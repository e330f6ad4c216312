import Mathlib.Data.List.Perm.Basic

/-! Slots in no particular order that carry time stamps, and the list of the same
slots by falling stamp. Rewriting one slot with a newer stamp moves it to the front of the
list, rewriting it with its old stamp leaves it where it is, and the slot with the
least stamp is the last of the list. -/

namespace SystemsLab.StampedSlots

variable {σ : Type*} (stamp : σ → Nat)

/-- `ord` is `items` with the newest stamp first. -/
structure NewestFirst (items ord : List σ) : Prop where
  perm : ord.Perm items
  sorted : ord.Pairwise fun a b => stamp b < stamp a

variable {stamp} {items rest ord : List σ} {x x' : σ}

theorem NewestFirst.nil : NewestFirst stamp [] [] := ⟨List.Perm.refl [], List.Pairwise.nil⟩

theorem NewestFirst.congr {items' : List σ} (h : NewestFirst stamp items ord)
    (same : items'.Perm items) :
    NewestFirst stamp items' ord := ⟨h.perm.trans same.symm, h.sorted⟩

theorem NewestFirst.split (h : NewestFirst stamp items ord) (items_eq : items.Perm (x :: rest)) :
    ∃ newer older, ord = newer ++ x :: older ∧ (newer ++ older).Perm rest := by
  have inside : x ∈ ord := (h.perm.trans items_eq).symm.subset List.mem_cons_self
  obtain ⟨newer, older, rfl⟩ := List.mem_iff_append.mp inside
  have front : (x :: (newer ++ older)).Perm (x :: rest) :=
    List.perm_middle.symm.trans (h.perm.trans items_eq)
  exact ⟨newer, older, rfl, front.cons_inv⟩

theorem NewestFirst.push (h : NewestFirst stamp items ord)
    (newest : ∀ y ∈ items, stamp y < stamp x) :
    NewestFirst stamp (x :: items) (x :: ord) :=
  ⟨h.perm.cons x, List.pairwise_cons.mpr ⟨fun y hy => newest y (h.perm.subset hy), h.sorted⟩⟩

theorem NewestFirst.refresh (h : NewestFirst stamp items ord) (items_eq : items.Perm (x :: rest))
    (newest : ∀ y ∈ items, stamp y < stamp x') :
    ∃ newer older, ord = newer ++ x :: older ∧
      NewestFirst stamp (x' :: rest) (x' :: (newer ++ older)) := by
  obtain ⟨newer, older, rfl, perm⟩ := h.split items_eq
  refine ⟨newer, older, rfl, NewestFirst.push ⟨perm, ?_⟩ fun y hy => newest y ?_⟩
  · exact h.sorted.sublist (List.Sublist.append_left (List.sublist_cons_self x older) newer)
  · exact items_eq.symm.subset (List.mem_cons_of_mem x hy)

theorem NewestFirst.keep (h : NewestFirst stamp items ord) (items_eq : items.Perm (x :: rest))
    (same : stamp x' = stamp x) :
    ∃ newer older, ord = newer ++ x :: older ∧
      NewestFirst stamp (x' :: rest) (newer ++ x' :: older) := by
  obtain ⟨newer, older, rfl, perm⟩ := h.split items_eq
  refine ⟨newer, older, rfl, List.perm_middle.trans (perm.cons x'), ?_⟩
  have sorted := h.sorted
  simp only [List.pairwise_append, List.pairwise_cons, List.forall_mem_cons, same] at sorted ⊢
  exact sorted

theorem NewestFirst.evict (h : NewestFirst stamp items ord) (items_eq : items.Perm (x :: rest))
    (least : ∀ y ∈ items, stamp x ≤ stamp y) :
    ∃ newer, ord = newer ++ [x] ∧ NewestFirst stamp rest newer := by
  obtain ⟨newer, older, rfl, perm⟩ := h.split items_eq
  have sorted := h.sorted
  rw [List.pairwise_append, List.pairwise_cons] at sorted
  cases older with
  | nil => exact ⟨newer, rfl, by rwa [List.append_nil] at perm, sorted.1⟩
  | cons y older =>
    have below : stamp y < stamp x := sorted.2.1.1 y List.mem_cons_self
    have inside : y ∈ items := h.perm.subset (by simp)
    exact absurd (least y inside) (Nat.not_le.mpr below)

/-! ## The first slot with the least stamp -/

def leastIdx {α : Type*} (key : α → Nat) (l : List α) : Nat :=
  l.findIdx fun a => l.all fun b => decide (key a ≤ key b)

theorem exists_least {α : Type*} (key : α → Nat) {l : List α} (ne : l ≠ []) :
    ∃ a ∈ l, ∀ b ∈ l, key a ≤ key b := by
  induction l with
  | nil => exact absurd rfl ne
  | cons a l ih =>
    by_cases empty : l = []
    · subst empty
      exact ⟨a, List.mem_cons_self, by simp⟩
    · obtain ⟨b, hb, least⟩ := ih empty
      rcases Nat.le_total (key a) (key b) with first | later
      · refine ⟨a, List.mem_cons_self, List.forall_mem_cons.mpr ⟨Nat.le_refl _, fun c hc => ?_⟩⟩
        exact Nat.le_trans first (least c hc)
      · exact ⟨b, List.mem_cons_of_mem a hb, List.forall_mem_cons.mpr ⟨later, least⟩⟩

theorem leastIdx_lt {α : Type*} (key : α → Nat) {l : List α} (ne : l ≠ []) :
    leastIdx key l < l.length := by
  obtain ⟨a, ha, least⟩ := exists_least key ne
  exact List.findIdx_lt_length_of_exists ⟨a, ha, by simpa using least⟩

theorem leastIdx_le {α : Type*} (key : α → Nat) {l : List α} (h : leastIdx key l < l.length) :
    ∀ b ∈ l, key l[leastIdx key l] ≤ key b := by
  have found := List.findIdx_getElem (w := h)
  rw [List.all_eq_true] at found
  exact fun b hb => of_decide_eq_true (found b hb)

/-! ## Searches that read two lists alike -/

theorem findIdx_congr {α : Type*} {p q : α → Bool} {l : List α} (same : ∀ a ∈ l, p a = q a) :
    l.findIdx p = l.findIdx q := by
  induction l with
  | nil => rfl
  | cons a l ih =>
    rw [List.findIdx_cons, List.findIdx_cons, same a List.mem_cons_self,
      ih fun b mem => same b (List.mem_cons_of_mem a mem)]

theorem findIdx?_congr {α : Type*} {p q : α → Bool} {l : List α} (same : ∀ a ∈ l, p a = q a) :
    l.findIdx? p = l.findIdx? q := by
  rw [List.findIdx?_eq_guard_findIdx_lt, List.findIdx?_eq_guard_findIdx_lt, findIdx_congr same]

theorem leastIdx_map {α β : Type*} (key : β → Nat) (f : α → β) (l : List α) :
    leastIdx key (l.map f) = leastIdx (key ∘ f) l := by
  unfold leastIdx
  simp only [List.findIdx_map, List.all_map]
  rfl

/-- Only the order of the keys decides. -/
theorem leastIdx_congr {α : Type*} {key key' : α → Nat} {l : List α}
    (same : ∀ a ∈ l, ∀ b ∈ l, key a ≤ key b ↔ key' a ≤ key' b) :
    leastIdx key l = leastIdx key' l := by
  refine findIdx_congr fun a ha => ?_
  rw [Bool.eq_iff_iff, List.all_eq_true, List.all_eq_true]
  simp only [decide_eq_true_iff]
  exact forall₂_congr fun b hb => same a ha b hb

end SystemsLab.StampedSlots
