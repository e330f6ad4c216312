import SystemsLab.General.Recorded
import Mathlib.Algebra.BigOperators.Group.Finset.Basic
import Mathlib.Data.BitVec

/-! The sums of the vector experiment: `combine1` and its unrolled versions with four or eight
accumulators. A run records each element that it reads and the result of each addition of
elements, in their order. The elements are those of any commutative addition; with 32-bit words
it is the `int` addition modulo `2 ^ 32`. -/

namespace SystemsLab.Combine
open CountedLoop Recorded

/-- A vector that `new_vec` has returned; only the first `len` elements of `data` are its own. -/
structure VecRec (α : Type) where
  len : Nat
  data : Nat → α

inductive Event (α : Type) where
  | read (index : Nat)
  | sum (x : α)
deriving DecidableEq

section Versions

variable {α : Type} [AddCommMonoid α] (v : VecRec α)

def read (i : Nat) : Run (Event α) α := ⟨v.data i, [.read i]⟩

def add (x y : α) : Run (Event α) α := ⟨x + y, [.sum (x + y)]⟩

/-- The return value, and what `dest` points to afterwards. -/
def getVecElement (i : Nat) (dest : α) : Run (Event α) (Bool × α) :=
  if v.len ≤ i then pure (false, dest) else do
    let x ← read v i
    pure (true, x)

/-- `junk` is what the uninitialised `val` holds. -/
def combine1 (junk : α) : Run (Event α) α :=
  loop 0 v.len 1 (fun i dest => do
    let (_, val) ← getVecElement v i junk
    add dest val) 0

/-- `sum0 += data[i]; sum1 += data[i + 1]; ...`, with one accumulator for each way. -/
def accumulate (ways i : Nat) (sums : Vector α ways) : Run (Event α) (Vector α ways) :=
  collect fun j => do
    let x ← read v (i + j)
    add (sums.get j) x

def addAll : List α → Run (Event α) α
  | [] => pure 0
  | sum0 :: rest => rest.foldl (fun r x => r >>= fun sum => add sum x) (pure sum0)

def unrolled (ways : Nat) : Run (Event α) α := do
  let limit := v.len - v.len % ways
  let sums ← loop 0 limit ways (accumulate v ways) (Vector.replicate ways 0)
  let sum ← addAll sums.toList
  -- `i` is `limit` after the loop
  loop limit v.len 1 (fun i sum => do
    let x ← read v i
    add sum x) sum

def combineOptimized2 : Run (Event α) α := unrolled v 4

def combineOptimized4 : Run (Event α) α := unrolled v 8

/-- `ptr` is kept as the index of the element that it points to. -/
def combineOptimized3 : Run (Event α) α := do
  let (ptr, sums) ← countDown (v.len / 4) (fun (ptr, sums) => do
    let sums ← accumulate v 4 ptr sums
    pure (ptr + 4, sums)) (0, Vector.replicate 4 0)
  let sum ← addAll sums.toList
  let (_, sum) ← countDown (v.len % 4) (fun (ptr, sum) => do
    let x ← read v ptr
    let sum ← add sum x
    pure (ptr + 1, sum)) (ptr, sum)
  pure sum

end Versions

section Records

variable {α β : Type}

def Event.read? : Event α → Option Nat
  | .read i => some i
  | .sum _ => none

def Event.sum? : Event α → Option α
  | .read _ => none
  | .sum x => some x

variable (r : Run (Event α) β)

def reads : List Nat := r.events.filterMap Event.read?

def sums : List α := r.events.filterMap Event.sum?

end Records

/-! ## The runs in closed form -/

section Closed

variable {α : Type} [AddCommMonoid α] (v : VecRec α) (ways : Nat)

def total (n : Nat) : α := ∑ i ∈ Finset.range n, v.data i

def laneSum (j n : Nat) : α := ∑ q ∈ Finset.range n, v.data (ways * q + j)

def laneSums (n : Nat) : Vector α ways := Vector.ofFn fun j => laneSum v ways j.val n

def tailEvents (lo n : Nat) : List (Event α) :=
  (List.range n).flatMap fun t => [.read (lo + t), .sum (total v (lo + t + 1))]

def iterationEvents (n : Nat) : List (Event α) :=
  (List.finRange ways).flatMap fun j : Fin ways =>
    [.read (ways * n + j.val), .sum (laneSum v ways j.val (n + 1))]

def laneEvents (n : Nat) : List (Event α) := (List.range n).flatMap (iterationEvents v ways)

def prefixSums (l : List α) : List α :=
  (List.range (l.length - 1)).map fun k => (l.take (k + 2)).sum

theorem total_succ (n : Nat) : total v (n + 1) = total v n + v.data n := Finset.sum_range_succ ..

theorem laneSum_succ (j n : Nat) :
    laneSum v ways j (n + 1) = laneSum v ways j n + v.data (ways * n + j) :=
  Finset.sum_range_succ ..

theorem laneSums_zero : laneSums v ways 0 = Vector.replicate ways 0 := by
  ext j h
  simp [laneSums, laneSum]

theorem laneSums_get (n : Nat) (j : Fin ways) :
    (laneSums v ways n).get j = laneSum v ways j.val n := Vector.getElem_ofFn _

theorem tailEvents_succ (lo n : Nat) : tailEvents v lo (n + 1) =
    tailEvents v lo n ++ [.read (lo + n), .sum (total v (lo + n + 1))] := by
  rw [tailEvents, List.range_succ, List.flatMap_append, List.flatMap_singleton, tailEvents]

theorem laneEvents_succ (n : Nat) :
    laneEvents v ways (n + 1) = laneEvents v ways n ++ iterationEvents v ways n := by
  rw [laneEvents, List.range_succ, List.flatMap_append, List.flatMap_singleton, laneEvents]

theorem prefixSums_append (first x : α) (l : List α) :
    prefixSums (first :: (l ++ [x])) = prefixSums (first :: l) ++ [(first :: l).sum + x] := by
  have all : (l ++ [x]).take (l.length + 1) = l ++ [x] := List.take_of_length_le (by simp)
  simp only [prefixSums, List.length_cons, List.length_append, List.length_nil, Nat.add_sub_cancel,
    List.range_succ, List.map_append, List.map_singleton, List.take_succ_cons, zero_add, all]
  congr 1
  · apply List.map_congr_left
    intro k lt
    rw [List.take_append_of_le_length (List.mem_range.mp lt)]
  · simp [add_assoc]

theorem combine1_eq (junk : α) : combine1 v junk = ⟨total v v.len, tailEvents v 0 v.len⟩ := by
  have inv := loop_inv (fun n r => r = ⟨total v n, tailEvents v 0 n⟩) 0 v.len 1
    (fun i dest => do
      let (_, val) ← getVecElement v i junk
      add dest val) 0 Nat.one_pos rfl (by
      rintro n r inside rfl
      rw [tailEvents_succ, total_succ, getVecElement]
      simp [Nat.not_le.mpr inside, read, add, total_succ])
  rw [Nat.one_mul, Nat.zero_add] at inv
  exact inv

theorem accumulate_eq (n : Nat) : accumulate v ways (ways * n) (laneSums v ways n) =
    ⟨laneSums v ways (n + 1), iterationEvents v ways n⟩ := by
  have lane (j : Fin ways) : (do
      let x ← read v (ways * n + j.val)
      add ((laneSums v ways n).get j) x) = ⟨laneSum v ways j.val (n + 1),
        [.read (ways * n + j.val), .sum (laneSum v ways j.val (n + 1))]⟩ := by
    rw [laneSums_get, laneSum_succ]
    rfl
  simp only [accumulate, collect, lane]
  rfl

theorem lanes_eq (n : Nat) (pos : 0 < ways) :
    loop 0 (ways * n) ways (accumulate v ways) (Vector.replicate ways 0) =
      ⟨laneSums v ways n, laneEvents v ways n⟩ := by
  have inv := loop_inv (fun n r => r = ⟨laneSums v ways n, laneEvents v ways n⟩) 0 n ways
    (accumulate v ways) (Vector.replicate ways 0) pos (by rw [laneSums_zero]; rfl) (by
      rintro n r - rfl
      rw [Nat.zero_add, mk_bind, accumulate_eq, laneEvents_succ])
  rw [Nat.zero_add] at inv
  exact inv

theorem addAll_eq (l : List α) : addAll l = ⟨l.sum, (prefixSums l).map .sum⟩ := by
  cases l with
  | nil => rfl
  | cons first rest =>
    induction rest using List.reverseRecOn with
    | nil => simp [addAll, prefixSums]
    | append_singleton rest x ih =>
      rw [addAll] at ih ⊢
      rw [List.foldl_append, ih, prefixSums_append]
      simp [add, add_assoc]

theorem remainder_eq (lo n : Nat) :
    loop lo (lo + n) 1 (fun i sum => do
      let x ← read v i
      add sum x) (total v lo) = ⟨total v (lo + n), tailEvents v lo n⟩ := by
  have inv := loop_inv (fun n r => r = ⟨total v (lo + n), tailEvents v lo n⟩) lo n 1
    (fun i sum => do
      let x ← read v i
      add sum x) (total v lo) Nat.one_pos rfl (by
      rintro n r - rfl
      rw [tailEvents_succ, Nat.one_mul, ← Nat.add_assoc, total_succ]
      simp [read, add])
  rw [Nat.one_mul] at inv
  exact inv

theorem laneSums_toList (n : Nat) :
    (laneSums v ways n).toList = (List.range ways).map fun j => laneSum v ways j n := by
  rw [laneSums, Vector.toList_ofFn, List.ofFn_eq_map, ← List.map_coe_finRange_eq_range,
    List.map_map]
  rfl

/-- What the unrolled loop has read is divided among the accumulators. -/
theorem total_eq_sum_laneSum (n : Nat) :
    total v (ways * n) = ∑ j ∈ Finset.range ways, laneSum v ways j n := by
  induction n with
  | zero => simp [total, laneSum]
  | succ n ih =>
    simp only [laneSum_succ, Finset.sum_add_distrib, ← ih]
    exact Finset.sum_range_add ..

theorem laneSums_sum (n : Nat) : (laneSums v ways n).toList.sum = total v (ways * n) := by
  rw [laneSums_toList, total_eq_sum_laneSum]
  rfl

theorem unrolled_eq (pos : 0 < ways) : unrolled v ways =
    ⟨total v v.len, laneEvents v ways (v.len / ways) ++
      ((prefixSums (laneSums v ways (v.len / ways)).toList).map .sum ++
        tailEvents v (ways * (v.len / ways)) (v.len % ways))⟩ := by
  have whole : v.len - v.len % ways = ways * (v.len / ways) := by
    have := Nat.div_add_mod v.len ways
    omega
  have rest := remainder_eq v (ways * (v.len / ways)) (v.len % ways)
  rw [Nat.div_add_mod] at rest
  simp only [unrolled, whole, lanes_eq v ways _ pos, mk_bind, addAll_eq, laneSums_sum, rest]

theorem pointerLanes_eq (n : Nat) :
    countDown n (fun (ptr, sums) => do
      let sums ← accumulate v 4 ptr sums
      pure (ptr + 4, sums)) (0, Vector.replicate 4 0) =
      ⟨(4 * n, laneSums v 4 n), laneEvents v 4 n⟩ := by
  refine countDown_inv (fun n r => r = ⟨(4 * n, laneSums v 4 n), laneEvents v 4 n⟩) n _ _
    (by rw [laneSums_zero]; rfl) ?_
  rintro n r - rfl
  simp only [mk_bind, accumulate_eq, pure_eq, List.append_nil, laneEvents_succ, Nat.mul_succ]

theorem pointerRemainder_eq (lo n : Nat) :
    countDown n (fun (ptr, sum) => do
      let x ← read v ptr
      let sum ← add sum x
      pure (ptr + 1, sum)) (lo, total v lo) = ⟨(lo + n, total v (lo + n)), tailEvents v lo n⟩ := by
  refine countDown_inv (fun n r => r = ⟨(lo + n, total v (lo + n)), tailEvents v lo n⟩) n _ _
    rfl ?_
  rintro n r - rfl
  rw [tailEvents_succ, ← Nat.add_assoc, total_succ]
  simp [read, add]

theorem combineOptimized3_eq : combineOptimized3 v = combineOptimized2 v := by
  have rest := pointerRemainder_eq v (4 * (v.len / 4)) (v.len % 4)
  rw [Nat.div_add_mod] at rest
  rw [combineOptimized3, pointerLanes_eq, mk_bind, combineOptimized2, unrolled_eq v 4 (by decide)]
  dsimp only
  rw [addAll_eq, laneSums_sum, mk_bind, rest]
  simp

end Closed

/-! ## Elements read -/

section Reads

variable {α : Type} [AddCommMonoid α] (v : VecRec α) (ways : Nat)

theorem tailEvents_reads (lo n : Nat) :
    (tailEvents v lo n).filterMap Event.read? = (List.range n).map (lo + ·) := by
  induction n with
  | zero => rfl
  | succ n ih =>
    rw [tailEvents_succ, List.filterMap_append, ih, List.range_succ, List.map_append]
    rfl

theorem iterationEvents_reads (n : Nat) : (iterationEvents v ways n).filterMap Event.read? =
    (List.range ways).map (ways * n + ·) := by
  rw [iterationEvents, List.filterMap_flatMap, ← List.map_coe_finRange_eq_range, List.map_map]
  exact List.flatMap_pure_eq_map ..

theorem laneEvents_reads (n : Nat) :
    (laneEvents v ways n).filterMap Event.read? = List.range (ways * n) := by
  induction n with
  | zero => rfl
  | succ n ih =>
    rw [laneEvents_succ, List.filterMap_append, ih, iterationEvents_reads, Nat.mul_succ,
      List.range_add]

theorem unrolled_reads (pos : 0 < ways) : reads (unrolled v ways) = List.range v.len := by
  have none : ∀ l : List α, (l.map .sum : List (Event α)).filterMap Event.read? = [] := fun l => by
    rw [List.filterMap_map]
    exact List.filterMap_eq_nil_iff.mpr fun _ _ => rfl
  rw [unrolled_eq v ways pos]
  simp only [reads, List.filterMap_append, laneEvents_reads, none, tailEvents_reads,
    List.nil_append, ← List.range_add, Nat.div_add_mod]

theorem combine1_reads (junk : α) : reads (combine1 v junk) = List.range v.len := by
  rw [combine1_eq, reads, tailEvents_reads]
  simp

end Reads

/-- The run stores the sum of the elements and reads each of them once. -/
def SumsOnce (v : VecRec (BitVec 32)) (r : Run (Event (BitVec 32)) (BitVec 32)) : Prop :=
  r.value = ∑ i ∈ Finset.range v.len, v.data i ∧ reads r = List.range v.len

theorem unrolled_sumsOnce (v : VecRec (BitVec 32)) {ways : Nat} (pos : 0 < ways) :
    SumsOnce v (unrolled v ways) :=
  ⟨by rw [unrolled_eq v ways pos, total], unrolled_reads v ways pos⟩

theorem versions_sumsOnce (v : VecRec (BitVec 32)) (junk : BitVec 32) :
    SumsOnce v (combine1 v junk) ∧ SumsOnce v (combineOptimized2 v) ∧
      SumsOnce v (combineOptimized3 v) ∧ SumsOnce v (combineOptimized4 v) := by
  rw [combineOptimized3_eq]
  refine ⟨⟨by rw [combine1_eq, total], combine1_reads v junk⟩, ?_⟩
  exact ⟨unrolled_sumsOnce v (by decide), unrolled_sumsOnce v (by decide),
    unrolled_sumsOnce v (by decide)⟩

end SystemsLab.Combine
