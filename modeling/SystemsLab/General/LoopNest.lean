import SystemsLab.General.CountedLoop
import Mathlib.Logic.Function.Basic
import Mathlib.Data.List.Nodup
import Mathlib.Order.Monotone.Basic

/-! Loop nests that update single elements of a memory. The nest is the list of its updates
in program order; what it leaves in an element depends only on the updates of that
element, in their order. A loop cut into tiles runs over the same values in the
same order, and each value lies in one tile. -/

namespace SystemsLab.LoopNest
open CountedLoop

variable {σ β : Type*}

def emit (lo hi step : Nat) (body : Nat → List σ) : List σ := (indices lo hi step).flatMap body

def tile (size hi x : Nat) : List Nat := indices x (min (x + size) hi) 1

variable {lo hi step size i x : Nat} {body : Nat → List σ} {s : σ}

theorem mem_emit : s ∈ emit lo hi step body ↔ ∃ i ∈ indices lo hi step, s ∈ body i :=
  List.mem_flatMap

theorem mem_indices_one : i ∈ indices lo hi 1 ↔ lo ≤ i ∧ i < hi := by
  rw [mem_indices Nat.one_pos]
  exact ⟨fun h => ⟨h.1, h.2.1⟩, fun h => ⟨h.1, h.2, Nat.one_dvd _⟩⟩

theorem mem_tile : i ∈ tile size hi x ↔ x ≤ i ∧ i < x + size ∧ i < hi := by
  rw [tile, mem_indices_one, Nat.lt_min]

theorem nodup_indices (pos : 0 < step) : (indices lo hi step).Nodup := by
  unfold indices
  exact List.nodup_range' step pos

/-! ## Tiles -/

theorem exists_tile (pos : 0 < size) (low : lo ≤ i) (high : i < hi) :
    ∃ x ∈ indices lo hi size, i ∈ tile size hi x ∧
      ∀ y ∈ indices lo hi size, i ∈ tile size hi y → y = x := by
  have split := Nat.div_add_mod (i - lo) size
  have small := Nat.mod_lt (i - lo) pos
  refine ⟨lo + size * ((i - lo) / size), ?_, ?_, fun y member inside => ?_⟩
  · rw [mem_indices pos]
    exact ⟨by omega, by omega, _, Nat.add_sub_cancel_left ..⟩
  · rw [mem_tile]
    omega
  · obtain ⟨ge, -, q, eq⟩ := (mem_indices pos).mp member
    rw [mem_tile] at inside
    have quotient : (i - lo) / size = q :=
      Nat.div_eq_of_lt_le (by rw [Nat.mul_comm]; omega) (by rw [Nat.succ_mul, Nat.mul_comm]; omega)
    rw [quotient, ← eq]
    omega

theorem emit_tile (pos : 0 < size) (lo hi : Nat) :
    emit lo hi size (tile size hi) = indices lo hi 1 := by
  induction trips : hi - lo using Nat.strongRecOn generalizing lo with
  | ind n ih =>
    subst trips
    unfold emit at *
    rcases Nat.lt_or_ge lo hi with more | done
    · rw [indices_of_lt pos more, List.flatMap_cons,
        ih (hi - (lo + size)) (by omega) (lo + size) rfl, tile,
        indices_one, indices_one, indices_one]
      rcases Nat.le_total (lo + size) hi with whole | cut
      · have count : size + (hi - (lo + size)) = hi - lo := by omega
        rw [Nat.min_eq_left whole, Nat.add_sub_cancel_left, List.range'_append_1, count]
      · have none : hi - (lo + size) = 0 := by omega
        rw [Nat.min_eq_right cut, none, List.range'_zero, List.append_nil]
    · rw [indices_of_ge done, indices_of_ge done, List.flatMap_nil]

theorem emit_emit_tile (pos : 0 < size) (lo hi : Nat) (body : Nat → List σ) :
    (emit lo hi size fun x => emit x (min (x + size) hi) 1 body) = emit lo hi 1 body := by
  have plain := congrArg (List.flatMap body) (emit_tile pos lo hi)
  unfold emit at *
  rwa [List.flatMap_assoc] at plain

theorem existsUnique_range {γ : Type*} [LinearOrder γ] {f : Nat → γ} (mono : Monotone f) {n : Nat}
    {x : γ} (low : f 0 ≤ x) (high : x < f n) :
    ∃! t, t < n ∧ f t ≤ x ∧ x < f (t + 1) := by
  have found : ∃ t, t < n ∧ f t ≤ x ∧ x < f (t + 1) := by
    induction n with
    | zero => exact absurd (low.trans_lt high) (lt_irrefl _)
    | succ n ih =>
      rcases lt_or_ge x (f n) with before | last
      · obtain ⟨t, lt, inside⟩ := ih before
        exact ⟨t, Nat.lt_succ_of_lt lt, inside⟩
      · exact ⟨n, Nat.lt_succ_self n, last, high⟩
  have ordered : ∀ {t u}, f t ≤ x → x < f (u + 1) → t ≤ u := fun {t u} ge lt => by
    by_contra after
    exact absurd (lt.trans_le ((mono (by omega : u + 1 ≤ t)).trans ge)) (lt_irrefl _)
  obtain ⟨t, lt, low, high⟩ := found
  refine ⟨t, ⟨lt, low, high⟩, ?_⟩
  rintro u ⟨-, low', high'⟩
  exact Nat.le_antisymm (ordered low' high) (ordered low high')

/-! ## Looking at one element -/

theorem filter_flatMap_unique {L : List β} (nodup : L.Nodup) {f : β → List σ} {p : σ → Bool} {y : β}
    (inside : y ∈ L) (others : ∀ z ∈ L, z ≠ y → ∀ s ∈ f z, ¬ p s = true) :
    (L.flatMap f).filter p = (f y).filter p := by
  induction L with
  | nil => exact absurd inside List.not_mem_nil
  | cons a L ih =>
    rw [List.nodup_cons] at nodup
    rw [List.flatMap_cons, List.filter_append]
    by_cases same : a = y
    · subst same
      have rest : (L.flatMap f).filter p = [] := by
        refine List.filter_eq_nil_iff.mpr fun s mem => ?_
        obtain ⟨z, hz, hs⟩ := List.mem_flatMap.mp mem
        exact others z (List.mem_cons_of_mem a hz) (fun eq => nodup.1 (eq ▸ hz)) s hs
      rw [rest, List.append_nil]
    · have first : (f a).filter p = [] :=
        List.filter_eq_nil_iff.mpr (others a List.mem_cons_self same)
      have tail : y ∈ L := (List.mem_cons.mp inside).resolve_left (Ne.symm same)
      rw [first, List.nil_append, ih nodup.2 tail fun z hz => others z (List.mem_cons_of_mem a hz)]

theorem filter_emit_unique (pos : 0 < step) {p : σ → Bool} (inside : i ∈ indices lo hi step)
    (others : ∀ z ∈ indices lo hi step, z ≠ i → ∀ s ∈ body z, ¬ p s = true) :
    (emit lo hi step body).filter p = (body i).filter p :=
  filter_flatMap_unique (nodup_indices pos) inside others

theorem filter_emit (p : σ → Bool) :
    (emit lo hi step body).filter p = emit lo hi step fun i => (body i).filter p :=
  List.filter_flatMap

section Exec

variable {κ α : Type*} [DecidableEq κ] (dst : σ → κ) (change : σ → α → α)

def exec (m : κ → α) (steps : List σ) : κ → α :=
  steps.foldl (fun m s => Function.update m (dst s) (change s (m (dst s)))) m

theorem exec_apply (m : κ → α) (steps : List σ) (a : κ) :
    exec dst change m steps a =
      (steps.filter fun s => decide (dst s = a)).foldl (fun v s => change s v) (m a) := by
  unfold exec
  induction steps generalizing m with
  | nil => rfl
  | cons s steps ih =>
    rw [List.foldl_cons, ih]
    by_cases here : dst s = a
    · subst here
      rw [List.filter_cons_of_pos (by simp), List.foldl_cons, Function.update_self]
    · rw [List.filter_cons_of_neg (by simpa using here), Function.update_of_ne (Ne.symm here)]

theorem exec_assign (value : σ → α) (m : κ → α) {steps : List σ} {a : κ} {v : α}
    (written : ∃ s ∈ steps, dst s = a)
    (same : ∀ s ∈ steps, dst s = a → value s = v) :
    exec dst (fun s _ => value s) m steps a = v := by
  rw [exec_apply]
  have all : ∀ s ∈ steps.filter fun s => decide (dst s = a), value s = v := fun s mem =>
    same s (List.mem_filter.mp mem).1 (of_decide_eq_true (List.mem_filter.mp mem).2)
  obtain ⟨s, mem, eq⟩ := written
  have ne : s ∈ steps.filter fun s => decide (dst s = a) :=
    List.mem_filter.mpr ⟨mem, decide_eq_true eq⟩
  generalize steps.filter (fun s => decide (dst s = a)) = l at all ne
  induction l using List.reverseRecOn with
  | nil => exact absurd ne List.not_mem_nil
  | append_singleton l t _ =>
    rw [List.foldl_append, List.foldl_cons, List.foldl_nil, all t (by simp)]

theorem exec_of_not_written (m : κ → α) (steps : List σ) (a : κ) (free : ∀ s ∈ steps, dst s ≠ a) :
    exec dst change m steps a = m a := by
  rw [exec_apply, List.filter_eq_nil_iff.mpr fun s mem => by simpa using free s mem, List.foldl_nil]

theorem exec_emit (m : κ → α) (lo hi step : Nat) (body : Nat → List σ) :
    exec dst change m (emit lo hi step body) =
      forLoop lo hi step (fun i m => exec dst change m (body i)) m := by
  unfold exec emit forLoop
  rw [List.foldl_flatMap]

theorem exec_singleton (m : κ → α) (s : σ) :
    exec dst change m [s] = Function.update m (dst s) (change s (m (dst s))) := rfl

end Exec

end SystemsLab.LoopNest
