import Mathlib.Data.List.Dedup
import Mathlib.Data.Finset.Card

/-! Lists of distinct elements, most recent first. The recency list of a history holds
everything used so far; a bounded list that moves a used element to the front and drops
the last one when it overflows is a prefix of it, also when it only sees the elements
of one class. Membership in the prefix is then a count over the history. -/

namespace SystemsLab.RecencyList

variable {α : Type*} [DecidableEq α]

def moveToFront (x : α) (l : List α) : List α := x :: l.erase x

def pushFront (cap : Nat) (x : α) (l : List α) : List α :=
  x :: if l.length < cap then l else l.dropLast

def use (cap : Nat) (x : α) (l : List α) : List α :=
  if x ∈ l then moveToFront x l else pushFront cap x l

def recency (history : List α) : List α := history.foldl (fun l x => moveToFront x l) []

variable {l history : List α} {cap : Nat} {x y : α}

omit [DecidableEq α] in
theorem pushFront_eq_take (pos : 0 < cap) (fits : l.length ≤ cap) :
    pushFront cap x l = (x :: l).take cap := by
  obtain ⟨m, rfl⟩ : ∃ m, cap = m + 1 := ⟨cap - 1, by omega⟩
  unfold pushFront
  rw [List.take_succ_cons]
  split
  case isTrue room => rw [List.take_of_length_le (by omega)]
  case isFalse full => rw [List.dropLast_eq_take, show l.length - 1 = m by omega]

omit [DecidableEq α] in
theorem nodup_pushFront (nodup : l.Nodup) (fresh : x ∉ l) : (pushFront cap x l).Nodup := by
  unfold pushFront
  split
  case isTrue => exact List.nodup_cons.mpr ⟨fresh, nodup⟩
  case isFalse =>
    have part := List.dropLast_sublist l
    exact List.nodup_cons.mpr ⟨fun mem => fresh (part.subset mem), nodup.sublist part⟩

/-! ## The recency list of a history -/

theorem recency_append (history : List α) (x : α) :
    recency (history ++ [x]) = moveToFront x (recency history) := by
  simp only [recency, List.foldl_append, List.foldl_cons, List.foldl_nil]

theorem nodup_moveToFront (h : l.Nodup) : (moveToFront x l).Nodup :=
  List.nodup_cons.mpr ⟨h.not_mem_erase, h.erase x⟩

theorem mem_moveToFront : y ∈ moveToFront x l ↔ y = x ∨ y ∈ l := by
  unfold moveToFront
  rw [List.mem_cons]
  by_cases eq : y = x
  · simp only [eq, true_or]
  · simp only [eq, false_or, List.mem_erase_of_ne eq]

theorem nodup_recency (history : List α) : (recency history).Nodup := by
  induction history using List.reverseRecOn with
  | nil => exact List.nodup_nil
  | append_singleton history x ih =>
    rw [recency_append]
    exact nodup_moveToFront ih

theorem mem_recency (history : List α) : y ∈ recency history ↔ y ∈ history := by
  induction history using List.reverseRecOn with
  | nil => exact Iff.rfl
  | append_singleton history x ih =>
    rw [recency_append, mem_moveToFront, ih, List.mem_append, List.mem_singleton, or_comm]

/-! ## The bounded list is a prefix -/

theorem filter_moveToFront (p : α → Bool) (nodup : l.Nodup) (hx : p x = true) :
    (moveToFront x l).filter p = moveToFront x (l.filter p) := by
  unfold moveToFront
  rw [List.filter_cons_of_pos hx, nodup.erase_eq_filter, (nodup.filter p).erase_eq_filter,
    List.filter_filter, List.filter_filter]
  simp only [Bool.and_comm]

theorem filter_moveToFront_of_neg (p : α → Bool) (nodup : l.Nodup) (hx : ¬ p x = true) :
    (moveToFront x l).filter p = l.filter p := by
  unfold moveToFront
  rw [List.filter_cons_of_neg hx, nodup.erase_eq_filter, List.filter_filter]
  refine List.filter_congr fun y _ => ?_
  by_cases eq : y = x
  · subst eq
    simp [hx]
  · simp [eq]

theorem take_moveToFront (pos : 0 < cap) (h : x ∈ l.take cap) :
    moveToFront x (l.take cap) = (moveToFront x l).take cap := by
  obtain ⟨m, rfl⟩ : ∃ m, cap = m + 1 := ⟨cap - 1, by omega⟩
  have whole : l.erase x = (l.take (m + 1)).erase x ++ l.drop (m + 1) := by
    conv_lhs => rw [← List.take_append_drop (m + 1) l]
    exact List.erase_append_left _ h
  have length : ((l.take (m + 1)).erase x).length = min (m + 1) l.length - 1 := by
    rw [List.length_erase_of_mem h, List.length_take]
  have inside : ((l.take (m + 1)).erase x).take m = (l.take (m + 1)).erase x :=
    List.take_of_length_le (by omega)
  have behind : (l.drop (m + 1)).take (m - ((l.take (m + 1)).erase x).length) = [] := by
    rcases Nat.lt_or_ge m l.length with long | short
    · rw [length, show m - (min (m + 1) l.length - 1) = 0 by omega, List.take_zero]
    · rw [List.drop_eq_nil_of_le (by omega), List.take_nil]
  unfold moveToFront
  rw [List.take_succ_cons, whole, List.take_append, inside, behind, List.append_nil]

theorem take_pushFront (pos : 0 < cap) (h : x ∉ l.take cap) :
    pushFront cap x (l.take cap) = (moveToFront x l).take cap := by
  rw [pushFront_eq_take pos (List.length_take_le cap l)]
  obtain ⟨m, rfl⟩ : ∃ m, cap = m + 1 := ⟨cap - 1, by omega⟩
  have whole : l.erase x = l.take (m + 1) ++ (l.drop (m + 1)).erase x := by
    conv_lhs => rw [← List.take_append_drop (m + 1) l]
    exact List.erase_append_right _ h
  unfold moveToFront
  rw [List.take_succ_cons, List.take_succ_cons, whole, List.take_append]
  rcases Nat.lt_or_ge m l.length with long | short
  · rw [List.length_take,
      show m - min (m + 1) l.length = 0 by omega, List.take_zero, List.append_nil]
  · rw [List.drop_eq_nil_of_le (by omega), List.erase_nil, List.take_nil, List.append_nil]

theorem use_take (pos : 0 < cap) : use cap x (l.take cap) = (moveToFront x l).take cap := by
  unfold use
  split
  case isTrue inside => exact take_moveToFront pos inside
  case isFalse outside => exact take_pushFront pos outside

theorem map_use {β : Type*} [DecidableEq β] {f : α → β} (injective : Function.Injective f) :
    (use cap x l).map f = use cap (f x) (l.map f) := by
  have same : f x ∈ l.map f ↔ x ∈ l := List.mem_map_of_injective injective
  unfold use
  split
  case isTrue inside =>
    rw [if_pos (same.mpr inside), moveToFront, moveToFront, List.map_cons, List.map_erase injective]
  case isFalse outside =>
    rw [if_neg (mt same.mp outside), pushFront, pushFront, List.map_cons, List.length_map,
      apply_ite (List.map f), List.map_dropLast]

/-! ## Counting the history -/

theorem takeWhile_erase (ne : y ≠ x) :
    (l.erase y).takeWhile (· ≠ x) = (l.takeWhile (· ≠ x)).erase y := by
  induction l with
  | nil => rfl
  | cons a l ih =>
    by_cases same : a = y
    · subst same
      rw [List.erase_cons_head, List.takeWhile_cons_of_pos (by simpa using ne),
        List.erase_cons_head]
    · rw [List.erase_cons_tail (by simpa using same)]
      by_cases stop : a = x
      · subst stop
        rw [List.takeWhile_cons_of_neg (by simp),
          List.takeWhile_cons_of_neg (by simp), List.erase_nil]
      · rw [List.takeWhile_cons_of_pos (by simpa using stop),
          List.takeWhile_cons_of_pos (by simpa using stop),
          List.erase_cons_tail (by simpa using same), ih]

theorem takeWhile_recency (earlier later : List α) (fresh : x ∉ later) :
    (recency (earlier ++ x :: later)).takeWhile (· ≠ x) = recency later := by
  induction later using List.reverseRecOn with
  | nil =>
    rw [recency_append, moveToFront, List.takeWhile_cons_of_neg (by simp)]
    rfl
  | append_singleton later y ih =>
    rw [List.mem_append, List.mem_singleton, not_or] at fresh
    have ne : y ≠ x := fun eq => fresh.2 eq.symm
    rw [← List.cons_append, ← List.append_assoc, recency_append, recency_append,
      moveToFront, moveToFront,
      List.takeWhile_cons_of_pos (by simpa using ne), takeWhile_erase ne, ih fresh.1]

theorem length_filter_recency (p : α → Bool) (history : List α) :
    ((recency history).filter p).length = (history.filter p).toFinset.card := by
  rw [← List.toFinset_card_of_nodup ((nodup_recency history).filter p)]
  congr 1
  ext y
  simp only [List.mem_toFinset, List.mem_filter, mem_recency]

theorem mem_take_iff (nodup : l.Nodup) (n : Nat) :
    x ∈ l.take n ↔ x ∈ l ∧ (l.takeWhile (· ≠ x)).length < n := by
  induction l generalizing n with
  | nil => simp
  | cons a l ih =>
    rw [List.nodup_cons] at nodup
    cases n with
    | zero => simp
    | succ n =>
      rw [List.take_succ_cons, List.mem_cons, List.mem_cons, ih nodup.2]
      by_cases same : x = a
      · subst same
        simp
      · have ne : a ≠ x := fun eq => same eq.symm
        rw [List.takeWhile_cons_of_pos (by simpa using ne), List.length_cons, Nat.succ_lt_succ_iff]
        simp only [same, false_or]

omit [DecidableEq α] in
theorem exists_last_use (used : x ∈ history) :
    ∃ earlier later, history = earlier ++ x :: later ∧ x ∉ later := by
  obtain ⟨later, earlier, reversed, fresh⟩ := List.eq_append_cons_of_mem (List.mem_reverse.mpr used)
  refine ⟨earlier.reverse, later.reverse, ?_, by rwa [List.mem_reverse]⟩
  rw [← List.reverse_reverse history, reversed]
  simp

theorem takeWhile_filter (p : α → Bool) (hx : p x = true) :
    (l.filter p).takeWhile (· ≠ x) = (l.takeWhile (· ≠ x)).filter p := by
  induction l with
  | nil => rfl
  | cons a l ih =>
    by_cases stop : a = x
    · subst stop
      rw [List.filter_cons_of_pos hx, List.takeWhile_cons_of_neg (by simp),
        List.takeWhile_cons_of_neg (by simp), List.filter_nil]
    · rw [List.takeWhile_cons_of_pos (p := fun b => decide (b ≠ x)) (by simpa using stop)]
      by_cases keep : p a = true
      · rw [List.filter_cons_of_pos keep, List.filter_cons_of_pos keep,
          List.takeWhile_cons_of_pos (by simpa using stop), ih]
      · rw [List.filter_cons_of_neg keep, List.filter_cons_of_neg keep, ih]

/-- An element is in the bounded list of its class when it was used and fewer than `n` other
elements of the class were used since. -/
theorem mem_window_iff (history : List α) (p : α → Bool) (n : Nat) (hx : p x = true) :
    x ∈ ((recency history).filter p).take n ↔
      ∃ earlier later, history = earlier ++ x :: later ∧ x ∉ later ∧
        (later.filter p).toFinset.card < n := by
  rw [mem_take_iff ((nodup_recency history).filter p), List.mem_filter, mem_recency,
    takeWhile_filter p hx]
  constructor
  · rintro ⟨⟨used, -⟩, count⟩
    obtain ⟨earlier, later, rfl, fresh⟩ := exists_last_use used
    rw [takeWhile_recency earlier later fresh, length_filter_recency] at count
    exact ⟨earlier, later, rfl, fresh, count⟩
  · rintro ⟨earlier, later, rfl, fresh, count⟩
    rw [takeWhile_recency earlier later fresh, length_filter_recency]
    exact ⟨⟨by simp, hx⟩, count⟩

theorem mem_window_mono (history : List α) {p q : α → Bool} {n m : Nat} (hp : p x = true)
    (hq : q x = true) (sub : ∀ y, q y = true → p y = true) (le : n ≤ m)
    (h : x ∈ ((recency history).filter p).take n) :
    x ∈ ((recency history).filter q).take m := by
  rw [mem_window_iff history p n hp] at h
  rw [mem_window_iff history q m hq]
  obtain ⟨earlier, later, eq, fresh, count⟩ := h
  refine ⟨earlier, later, eq, fresh,
    Nat.lt_of_le_of_lt (Finset.card_le_card ?_) (count.trans_le le)⟩
  intro y
  simp only [List.mem_toFinset, List.mem_filter]
  exact fun ⟨inside, inClass⟩ => ⟨inside, sub y inClass⟩

/-! ## Two bounded lists -/

/-- A bounded list keeps a part of another one in its order, and all of it while it has room. -/
structure Below (cap : Nat) (small large : List α) : Prop where
  part : small.Sublist large
  whole : small.length < cap → small = large

variable {cap' : Nat} {small large : List α}

theorem Below.move (h : Below cap small large) (inside : x ∈ small) :
    Below cap (moveToFront x small) (moveToFront x large) where
  part := (h.part.erase x).cons_cons x
  whole room := by
    have length := List.length_erase_of_mem inside
    have pos := List.length_pos_of_mem inside
    rw [moveToFront, List.length_cons] at room
    rw [h.whole (by omega)]

omit [DecidableEq α] in
theorem Below.full (h : Below cap small large) (outside : x ∉ small) (inside : x ∈ large) :
    cap ≤ small.length := by
  by_contra room
  exact outside (h.whole (by omega) ▸ inside)

theorem Below.part_erase (h : Below cap small large) (outside : x ∉ small) :
    small.Sublist (large.erase x) := by
  have part := h.part.erase x
  rwa [List.erase_of_not_mem outside] at part

theorem Below.move_large (h : Below cap small large) (outside : x ∉ small) (inside : x ∈ large) :
    Below cap small (moveToFront x large) where
  part := (h.part_erase outside).cons x
  whole room := absurd room (Nat.not_lt.mpr (h.full outside inside))

omit [DecidableEq α] in
theorem length_pushFront (full : cap ≤ l.length) : cap ≤ (pushFront cap x l).length := by
  rw [pushFront, if_neg (by omega), List.length_cons, List.length_dropLast]
  omega

theorem Below.push_move (h : Below cap small large) (outside : x ∉ small) (inside : x ∈ large) :
    Below cap (pushFront cap x small) (moveToFront x large) where
  part := by
    have full := h.full outside inside
    rw [pushFront, if_neg (by omega)]
    exact ((List.dropLast_sublist small).trans (h.part_erase outside)).cons_cons x
  whole room := absurd room (Nat.not_lt.mpr (length_pushFront (h.full outside inside)))

omit [DecidableEq α] in
theorem Below.push (h : Below cap small large) (le : cap ≤ cap') :
    Below cap (pushFront cap x small) (pushFront cap' x large) := by
  rcases Nat.lt_or_ge small.length cap with room | full
  · have same := h.whole room
    subst same
    rw [pushFront, pushFront, if_pos room, if_pos (by omega)]
    exact ⟨List.Sublist.refl _, fun _ => rfl⟩
  · refine ⟨?_, fun room => absurd room (Nat.not_lt.mpr (length_pushFront full))⟩
    rw [pushFront, pushFront, if_neg (by omega)]
    split
    case isTrue => exact ((List.dropLast_sublist small).trans h.part).cons_cons x
    case isFalse =>
      have part := h.part.reverse.tail.reverse
      rw [List.tail_reverse, List.tail_reverse, List.reverse_reverse, List.reverse_reverse] at part
      exact part.cons_cons x

/-! ## A window with few elements -/

/-- In front of a list stand all elements loaded during a window, and none but the
window's. -/
def Kept (window loaded : Finset α) (l : List α) : Prop :=
  ∃ front back, l = front ++ back ∧ (∀ y ∈ loaded, y ∈ front) ∧ ∀ y ∈ front, y ∈ window

variable {window loaded : Finset α}

omit [DecidableEq α] in
theorem Kept.start (window : Finset α) (l : List α) : Kept window ∅ l :=
  ⟨[], l, rfl, fun _ mem => absurd mem (Finset.notMem_empty _), fun _ mem => by cases mem⟩

omit [DecidableEq α] in
theorem Kept.mem (h : Kept window loaded l) (mem : x ∈ loaded) : x ∈ l := by
  obtain ⟨front, back, rfl, all, -⟩ := h
  exact List.mem_append_left back (all x mem)

theorem Kept.move (h : Kept window loaded l) (member : x ∈ window) :
    Kept window loaded (moveToFront x l) := by
  obtain ⟨front, back, rfl, all, only⟩ := h
  by_cases inFront : x ∈ front
  · refine ⟨moveToFront x front, back, ?_, fun y mem => ?_, fun y mem => ?_⟩
    · rw [moveToFront, moveToFront, List.erase_append_left back inFront, List.cons_append]
    · exact mem_moveToFront.mpr (Or.inr (all y mem))
    · rcases mem_moveToFront.mp mem with rfl | old
      · exact member
      · exact only y old
  · refine ⟨x :: front, back.erase x, ?_, fun y mem => ?_, List.forall_mem_cons.mpr ⟨member, only⟩⟩
    · rw [moveToFront, List.erase_append_right back inFront, List.cons_append]
    · exact List.mem_cons_of_mem x (all y mem)

theorem Kept.push (h : Kept window loaded l) (nodup : l.Nodup) (absent : x ∉ l)
    (member : x ∈ window) (fits : window.card ≤ cap) :
    Kept window (insert x loaded) (pushFront cap x l) := by
  obtain ⟨front, back, rfl, all, only⟩ := h
  have front_nodup : (x :: front).Nodup :=
    List.nodup_cons.mpr ⟨fun mem => absent (List.mem_append_left back mem),
      (List.nodup_append.mp nodup).1⟩
  have only_cons : ∀ y ∈ x :: front, y ∈ window := List.forall_mem_cons.mpr ⟨member, only⟩
  have room : front.length < cap := by
    have sub : (x :: front).toFinset ⊆ window := fun y mem => only_cons y (List.mem_toFinset.mp mem)
    have count := Finset.card_le_card sub
    rw [List.toFinset_card_of_nodup front_nodup, List.length_cons] at count
    omega
  have all_cons : ∀ y ∈ insert x loaded, y ∈ x :: front := fun y mem => by
    rcases Finset.mem_insert.mp mem with rfl | old
    · exact List.mem_cons_self
    · exact List.mem_cons_of_mem x (all y old)
  rw [pushFront]
  split
  case isTrue => exact ⟨x :: front, back, rfl, all_cons, only_cons⟩
  case isFalse full =>
    have more : back ≠ [] := fun empty => by
      rw [empty, List.append_nil] at full
      exact full room
    refine ⟨x :: front, back.dropLast, ?_, all_cons, only_cons⟩
    rw [List.dropLast_append_of_ne_nil more, List.cons_append]

end SystemsLab.RecencyList
