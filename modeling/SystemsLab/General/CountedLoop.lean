import Mathlib.Data.List.Range
import Mathlib.Data.Vector.Basic
import Mathlib.Tactic.Linarith

/-! Counted loops. A loop over all indices of a fixed array is `Nat.fold` (or
`Nat.foldRev` when it counts down); the loop `for (i = lo; i < hi; i += step)`
runs over the list `indices lo hi step`. Invariants are passed to a loop as a
motive indexed by the number of finished iterations. -/

namespace SystemsLab.CountedLoop

/-! ## Loops over a whole array -/

theorem fold_inv {σ : Type*} (motive : Nat → σ → Prop) (n : Nat)
    (f : (i : Nat) → i < n → σ → σ) (s : σ) (start : motive 0 s)
    (step : ∀ i (h : i < n) s, motive i s → motive (i + 1) (f i h s)) :
    motive n (n.fold f s) := by
  induction n with
  | zero => exact start
  | succ n ih =>
    rw [Nat.fold_succ]
    exact step n (Nat.lt_succ_self n) _
      (ih (fun i h => f i (Nat.lt_succ_of_lt h)) fun i h => step i (Nat.lt_succ_of_lt h))

theorem foldRev_inv {σ : Type*} (motive : Nat → σ → Prop) (n : Nat)
    (f : (i : Nat) → i < n → σ → σ) (s : σ) (start : motive n s)
    (step : ∀ i (h : i < n) s, motive (i + 1) s → motive i (f i h s)) :
    motive 0 (n.foldRev f s) := by
  induction n generalizing s with
  | zero => exact start
  | succ n ih =>
    rw [Nat.foldRev_succ]
    exact ih (fun i h => f i (Nat.lt_succ_of_lt h)) _ (step n (Nat.lt_succ_self n) s start)
      fun i h => step i (Nat.lt_succ_of_lt h)

theorem fold_vector {κ σ : Type*} {n : Nat} (v : Vector κ n) (f : κ → σ → σ) (s : σ) :
    n.fold (fun i _ s => f v[i] s) s = v.toList.foldl (fun s k => f k s) s := by
  have inv := fold_inv (fun i t => t = (v.toList.take i).foldl (fun s k => f k s) s) n
    (fun i _ s => f v[i] s) s rfl (by
      intro i h t ht
      have hv : i < v.toList.length := by simpa using h
      rw [List.take_succ_eq_append_getElem hv, List.foldl_append, ← ht]
      simp)
  rw [inv, List.take_of_length_le (by simp)]

theorem foldRev_vector {κ σ : Type*} {n : Nat} (v : Vector κ n) (f : κ → σ → σ) (s : σ) :
    n.foldRev (fun i _ s => f v[i] s) s = v.toList.reverse.foldl (fun s k => f k s) s := by
  have inv := foldRev_inv (fun i t => t = (v.toList.drop i).reverse.foldl (fun s k => f k s) s) n
    (fun i _ s => f v[i] s) s (by rw [List.drop_of_length_le (by simp)]; rfl) (by
      intro i h t ht
      have hv : i < v.toList.length := by simpa using h
      rw [List.drop_eq_getElem_cons hv, List.reverse_cons, List.foldl_append, ← ht]
      simp)
  simpa using inv

theorem take_toList_set {α : Type*} {n : Nat} (v : Vector α n) (i : Nat) (h : i < n) (x : α) :
    (v.set i x h).toList.take (i + 1) = v.toList.take i ++ [x] := by
  have hv : i < v.toList.length := by simpa using h
  rw [Vector.toList_set, List.take_set, List.take_succ_eq_append_getElem hv,
    List.set_append_right _ _ (by simp)]
  simp [Nat.min_eq_left (Nat.le_of_lt h)]

/-! ## Loops with a stride -/

/-- The values of `i` in `for (i = lo; i < hi; i += step)`. -/
def indices (lo hi step : Nat) : List Nat := List.range' lo ((hi - lo + (step - 1)) / step) step

theorem indices_of_ge {lo hi step : Nat} (h : hi ≤ lo) : indices lo hi step = [] := by
  have none : (hi - lo + (step - 1)) / step = 0 := by
    rcases Nat.eq_zero_or_pos step with rfl | pos
    · exact Nat.div_zero _
    · exact Nat.div_eq_of_lt (by omega)
  rw [indices, none, List.range'_zero]

theorem indices_of_lt {lo hi step : Nat} (pos : 0 < step) (h : lo < hi) :
    indices lo hi step = lo :: indices (lo + step) hi step := by
  have count : (hi - lo + (step - 1)) / step = (hi - (lo + step) + (step - 1)) / step + 1 := by
    rcases Nat.lt_or_ge (lo + step) hi with more | last
    · rw [← Nat.add_div_right _ pos]
      congr 1
      omega
    · rw [show hi - (lo + step) = 0 by omega, Nat.zero_add,
        Nat.div_eq_of_lt (by omega : step - 1 < step)]
      apply Nat.div_eq_of_lt_le <;> omega
  rw [indices, count, List.range'_succ, indices]

theorem indices_one (lo hi : Nat) : indices lo hi 1 = List.range' lo (hi - lo) := by
  simp [indices]

theorem mem_indices {lo hi step i : Nat} (pos : 0 < step) :
    i ∈ indices lo hi step ↔ lo ≤ i ∧ i < hi ∧ step ∣ i - lo := by
  simp only [indices, List.mem_range']
  constructor
  · rintro ⟨k, hk, rfl⟩
    have bound := (Nat.lt_div_iff_mul_lt pos).mp hk
    refine ⟨by omega, ?_, ⟨k, by omega⟩⟩
    rw [Nat.mul_comm] at bound
    omega
  · rintro ⟨ge, lt, k, hk⟩
    refine ⟨k, (Nat.lt_div_iff_mul_lt pos).mpr ?_, by omega⟩
    rw [Nat.mul_comm]
    omega

/-- The state after `for (i = lo; i < hi; i += step) body`. -/
def forLoop {σ : Type*} (lo hi step : Nat) (body : Nat → σ → σ) (s : σ) : σ :=
  (indices lo hi step).foldl (fun s i => body i s) s

theorem forLoop_of_lt {σ : Type*} {lo hi step : Nat} (pos : 0 < step) (h : lo < hi)
    (body : Nat → σ → σ) (s : σ) :
    forLoop lo hi step body s = forLoop (lo + step) hi step body (body lo s) := by
  rw [forLoop, indices_of_lt pos h, List.foldl_cons, forLoop]

theorem forLoop_congr {σ : Type*} {lo hi step : Nat} {body body' : Nat → σ → σ}
    (same : ∀ i ∈ indices lo hi step, body i = body' i) (s : σ) :
    forLoop lo hi step body s = forLoop lo hi step body' s := by
  unfold forLoop
  apply List.foldl_ext
  intro s i mem
  rw [same i mem]

/-- One part of the state, where no iteration uses the others for it. -/
theorem forLoop_hom {σ τ : Type*} (part : σ → τ) {lo hi step : Nat} {body : Nat → σ → σ}
    {body' : Nat → τ → τ} (alone : ∀ i s, part (body i s) = body' i (part s)) (s : σ) :
    part (forLoop lo hi step body s) = forLoop lo hi step body' (part s) :=
  (List.foldl_hom part fun s i => (alone i s).symm).symm

theorem indices_append {lo hi step : Nat} (pos : 0 < step) (n : Nat) (le : lo + step * n ≤ hi) :
    indices lo hi step = indices lo (lo + step * n) step ++ indices (lo + step * n) hi step := by
  induction n generalizing lo with
  | zero => rw [Nat.mul_zero, Nat.add_zero, indices_of_ge (Nat.le_refl lo), List.nil_append]
  | succ n ih =>
    have next : lo + step * (n + 1) = lo + step + step * n := by rw [Nat.mul_succ]; omega
    have more : lo < lo + step * (n + 1) := by rw [Nat.mul_succ]; omega
    rw [indices_of_lt pos (Nat.lt_of_lt_of_le more le), indices_of_lt pos more, List.cons_append,
      next, ih (next ▸ le)]

theorem indices_add (lo hi step d : Nat) :
    indices (d + lo) (d + hi) step = (indices lo hi step).map (d + ·) := by
  have length : d + hi - (d + lo) = hi - lo := by omega
  rw [indices, indices, length, List.map_add_range']

theorem forLoop_append {σ : Type*} {lo hi step : Nat} (pos : 0 < step) (n : Nat)
    (le : lo + step * n ≤ hi) (body : Nat → σ → σ) (s : σ) :
    forLoop lo hi step body s =
      forLoop (lo + step * n) hi step body (forLoop lo (lo + step * n) step body s) := by
  unfold forLoop
  rw [indices_append pos n le, List.foldl_append]

theorem forLoop_add_left {σ : Type*} (lo hi step d : Nat) (body : Nat → σ → σ) (s : σ) :
    forLoop (d + lo) (d + hi) step body s = forLoop lo hi step (fun i => body (d + i)) s := by
  unfold forLoop
  rw [indices_add, List.foldl_map]

theorem forLoop_inv {σ : Type*} (motive : Nat → σ → Prop) (lo count step : Nat)
    (body : Nat → σ → σ) (s : σ) (pos : 0 < step) (start : motive 0 s)
    (next : ∀ n s, n < count → motive n s → motive (n + 1) (body (lo + step * n) s)) :
    motive count (forLoop lo (lo + step * count) step body s) := by
  have trips : (lo + step * count - lo + (step - 1)) / step = count := by
    rw [Nat.add_sub_cancel_left, Nat.mul_comm]
    exact Nat.div_eq_of_lt_le (by omega) (by rw [Nat.succ_mul]; omega)
  rw [forLoop, indices, trips]
  induction count with
  | zero => exact start
  | succ count ih =>
    rw [List.range'_concat, List.foldl_append, List.foldl_cons, List.foldl_nil]
    apply next count _ (Nat.lt_succ_self count)
    apply ih (fun n s hn => next n s (Nat.lt_succ_of_lt hn))
    rw [Nat.add_sub_cancel_left, Nat.mul_comm]
    exact Nat.div_eq_of_lt_le (by omega) (by rw [Nat.succ_mul]; omega)

end SystemsLab.CountedLoop
