import SystemsLab.Matmul.Agreement
import Mathlib.Algebra.BigOperators.Fin
import Mathlib.Data.Matrix.Mul

/-! The version with every optimization of `matmul_all.c`, against its plain version 0. Both add the
product to what `C` holds. Version 8 hands the transposed `B` to the worker that
version 5 has for the untransposed one, so it multiplies by another matrix. Elements form
a ring, the arithmetic being exact. -/

namespace SystemsLab.MatmulAll
open CountedLoop LoopNest Interleaving RowMajor Matmul

section Versions

variable {α : Type*} [Add α] [Mul α] (g : Globals α)

/-- The same loops as those that fill `B_T` elsewhere. -/
def matTranspose (junk : Nat → α) : Nat → α := transposeB g junk

def matmulV0 (C : Nat → α) : Nat → α :=
  forLoop 0 g.M 1 (fun i C =>
    forLoop 0 g.N 1 (fun j C =>
      forLoop 0 g.K 1 (fun k C =>
        addTo C (i * g.N + j) (g.A (i * g.K + k) * g.B (k * g.N + j))) C) C) C

def threadV5 (data : ThreadData) : List Visit :=
  blockedVisits g.K g.N g.blockSize data.startRow data.endRow

/-- `C'` is what some schedule of the threads that are given `B` leaves of `C`. -/
def runThreadsV5 (C C' : Nat → α) : Prop :=
  ∃ trace, Scheduled (threads g (threadV5 g)) trace ∧ C' = runVisits g (plainB g) C trace

/-- `junk` is what the memory for `B_T` holds before. -/
def matmulV8 (junk C C' : Nat → α) : Prop := runThreadsV5 { g with B := matTranspose g junk } C C'

end Versions

/-! ## The matrices in memory -/

def matrixAt {α : Type*} (rows cols : Nat) (m : Nat → α) : Matrix (Fin rows) (Fin cols) α :=
  Matrix.of fun i j => m (i * cols + j)

/-- The `K` by `N` matrix that one reads where `B` is stored transposed. -/
def misread {α : Type*} (K N : Nat) (B : Nat → α) : Matrix (Fin K) (Fin N) α :=
  matrixAt K N fun p => B (p % K * N + p / K)

theorem eq_of_matrixAt_eq {α : Type*} {M N : Nat} {m m' : Nat → α}
    (inside : matrixAt M N m = matrixAt M N m')
    (outside : ∀ a, M * N ≤ a → m a = m' a) : m = m' := by
  funext a
  rcases Nat.lt_or_ge a (M * N) with small | large
  · obtain ⟨i, j, hi, hj, rfl⟩ := exists_cell small
    exact congrFun (congrFun inside ⟨i, hi⟩) ⟨j, hj⟩
  · exact outside a large

section Product

variable {α : Type*} [Ring α] (g : Globals α)

theorem forLoop_add (f : Nat → α) (c : α) (n : Nat) :
    forLoop 0 n 1 (fun k sum => sum + f k) c = c + ∑ k ∈ Finset.range n, f k := by
  have inv := forLoop_inv (fun n sum => sum = c + ∑ k ∈ Finset.range n, f k) 0 n 1
    (fun k sum => sum + f k) c Nat.one_pos (by rw [Finset.sum_range_zero, add_zero]) (by
      intro k sum _ eq
      rw [eq, Nat.zero_add, Nat.one_mul, Finset.sum_range_succ, add_assoc])
  rwa [Nat.zero_add, Nat.one_mul] at inv

theorem matrixAt_runVisits {visits : List Visit}
    (cover : Covers g.K g.N 0 g.M visits) (C : Nat → α) :
    matrixAt g.M g.N (runVisits g (plainB g) C visits) =
      matrixAt g.M g.N C + matrixAt g.M g.K g.A * matrixAt g.K g.N g.B := by
  ext i j
  rw [matrixAt, Matrix.of_apply, runVisits_cell g cover C i.isLt j.isLt, forLoop_add,
    Matrix.add_apply,
    Matrix.mul_apply, Finset.sum_range]
  rfl

theorem ijkVisits_covers (K N lo hi : Nat) :
    Covers K N lo hi
      (emit lo hi 1 fun i => emit 0 N 1 fun j => emit 0 K 1 fun k => [⟨i, k, j⟩]) where
  cell i j low high small := by
    rw [filter_emit_unique Nat.one_pos (mem_indices_one.mpr ⟨low, high⟩),
      filter_emit_unique Nat.one_pos (mem_indices_one.mpr ⟨Nat.zero_le j, small⟩),
        filter_emit, ← emit_cell]
    · congr 1
      funext k
      rw [filter_visit]
    · intro z _ other s mem
      simp only [mem_emit, List.mem_singleton] at mem
      obtain ⟨k, -, rfl⟩ := mem
      simp [other]
    · intro z _ other s mem
      simp only [mem_emit, List.mem_singleton] at mem
      obtain ⟨j', -, k, -, rfl⟩ := mem
      simp [other]
  inside v mem := by
    simp only [mem_emit, List.mem_singleton, mem_indices_one] at mem
    obtain ⟨i, rows, j, cols, k, -, rfl⟩ := mem
    exact ⟨rows.1, rows.2, cols.2⟩

theorem matmulV0_eq_run (C : Nat → α) :
    matmulV0 g C = runVisits g (plainB g) C
      (emit 0 g.M 1 fun i => emit 0 g.N 1 fun j => emit 0 g.K 1 fun k => [⟨i, k, j⟩]) := by
  simp only [runVisits, exec_emit, exec_singleton]
  rfl

theorem matmulV0_eq (C : Nat → α) :
    matrixAt g.M g.N (matmulV0 g C) =
      matrixAt g.M g.N C + matrixAt g.M g.K g.A * matrixAt g.K g.N g.B := by
  rw [matmulV0_eq_run]
  exact matrixAt_runVisits g (ijkVisits_covers ..) C

theorem matmulV0_outside (C : Nat → α) {a : Nat} (ha : g.M * g.N ≤ a) : matmulV0 g C a = C a := by
  rw [matmulV0_eq_run]
  exact runVisits_outside g (ijkVisits_covers ..) C ha

end Product

/-! ## What version 8 multiplies by -/

theorem matrixAt_matTranspose {α : Type*} (g : Globals α) (junk : Nat → α) :
    matrixAt g.K g.N (matTranspose g junk) = misread g.K g.N g.B := by
  ext k j
  rw [matrixAt, misread, matrixAt, Matrix.of_apply, Matrix.of_apply]
  have small := cell_lt k.isLt j.isLt
  generalize k * g.N + j = p at small
  have pos : 0 < g.K := Nat.zero_lt_of_lt k.isLt
  have read := transposedB_eq g junk (Nat.mod_lt p pos) (Nat.div_lt_of_lt_mul small)
  rwa [transposedB, Nat.div_add_mod'] at read

section Verdict

variable {α : Type*} [Ring α] (g : Globals α)

theorem matmulV8_eq (someThread : 1 ≤ g.numThreads) (someBlock : 1 ≤ g.blockSize)
    {junk C C' : Nat → α} (run : matmulV8 g junk C C') :
    matrixAt g.M g.N C' = matrixAt g.M g.N C + matrixAt g.M g.K g.A * misread g.K g.N g.B ∧
      ∀ a, g.M * g.N ≤ a → C' a = C a := by
  obtain ⟨trace, scheduled, rfl⟩ := run
  have cover : Covers g.K g.N 0 g.M trace :=
    scheduled_covers { g with B := matTranspose g junk } someThread
      (fun _ => blockedVisits_covers someBlock ..) scheduled
  refine ⟨?_, fun a ha => runVisits_outside { g with B := matTranspose g junk } cover C ha⟩
  rw [← matrixAt_matTranspose g junk]
  exact matrixAt_runVisits { g with B := matTranspose g junk } cover C

theorem exists_matmulV8 (junk C : Nat → α) : ∃ C', matmulV8 g junk C C' := by
  obtain ⟨trace, scheduled⟩ := exists_trace { g with B := matTranspose g junk }
    (threadV5 { g with B := matTranspose g junk })
  exact ⟨_, trace, scheduled, rfl⟩

/-- Whatever the schedule, version 8 leaves what version 0 leaves, and that is the product added to
`C`. -/
def V8Correct (junk C : Nat → α) : Prop :=
  ∀ C', matmulV8 g junk C C' → C' = matmulV0 g C ∧
    matrixAt g.M g.N C' = matrixAt g.M g.N C + matrixAt g.M g.K g.A * matrixAt g.K g.N g.B

theorem v8Correct_iff (someThread : 1 ≤ g.numThreads) (someBlock : 1 ≤ g.blockSize)
    (junk C : Nat → α) :
    V8Correct g junk C ↔
      matrixAt g.M g.K g.A * (misread g.K g.N g.B - matrixAt g.K g.N g.B) = 0 := by
  rw [Matrix.mul_sub, sub_eq_zero]
  constructor
  · intro correct
    obtain ⟨C', run⟩ := exists_matmulV8 g junk C
    have product := (correct C' run).2
    rw [(matmulV8_eq g someThread someBlock run).1] at product
    exact add_left_cancel product
  · intro same C' run
    obtain ⟨inside, outside⟩ := matmulV8_eq g someThread someBlock run
    rw [same] at inside
    refine ⟨eq_of_matrixAt_eq (inside.trans (matmulV0_eq g C).symm) fun a ha => ?_, inside⟩
    rw [outside a ha, matmulV0_outside g C ha]

/-- A matrix that every `A` annihilates is zero; one row of `A` is enough to see it. -/
theorem eq_zero_of_forall_mul {M K N : Nat} (someRow : 1 ≤ M) {D : Matrix (Fin K) (Fin N) α}
    (zero : ∀ A : Nat → α, matrixAt M K A * D = 0) : D = 0 := by
  ext k j
  have row := congrFun (congrFun (zero fun p => if p = k then 1 else 0) ⟨0, someRow⟩) j
  rw [Matrix.mul_apply, Finset.sum_eq_single k] at row
  · simpa [matrixAt] using row
  · intro k' _ other
    have ne : (k' : Nat) ≠ k := fun eq => other (Fin.ext eq)
    simp [matrixAt, ne]
  · exact fun absent => absurd (Finset.mem_univ k) absent

/-- Only a matrix with one row or one column is stored like its transpose, whatever its elements. -/
theorem misread_eq_iff [Nontrivial α] {K N : Nat} (inner : 1 ≤ K) (someColumn : 1 ≤ N) :
    (∀ B : Nat → α, misread K N B = matrixAt K N B) ↔ K = 1 ∨ N = 1 := by
  constructor
  · intro same
    by_contra neither
    rw [not_or] at neither
    have two : 2 ≤ K := by omega
    have entry := congrFun (congrFun (same fun p => if p = 1 then 1 else 0) ⟨0, inner⟩)
      ⟨1, by omega⟩
    simp [misread, matrixAt, Nat.mod_eq_of_lt two, Nat.div_eq_of_lt two, neither.2] at entry
  · intro thin B
    ext k j
    rw [misread, matrixAt, matrixAt, Matrix.of_apply, Matrix.of_apply]
    rcases thin with rfl | rfl
    · rw [Nat.mod_one, Nat.div_one, Nat.zero_mul, Nat.zero_add]
    · have col : (j : Nat) = 0 := by omega
      rw [col, Nat.mul_one, Nat.mul_one, Nat.add_zero, Nat.mod_eq_of_lt k.isLt,
        Nat.div_eq_of_lt k.isLt,
        Nat.add_zero]

/-- Version 8 is right exactly when `A` does not see the difference between `B` and its misread
transpose; for every `A`, when there is none; for every `A` and `B`, when `B` is a single row or
column. -/
theorem matmulV8_correct_iff [Nontrivial α] (g : Globals α) (someRow : 1 ≤ g.M) (inner : 1 ≤ g.K)
    (someColumn : 1 ≤ g.N) (someThread : 1 ≤ g.numThreads) (someBlock : 1 ≤ g.blockSize) :
    (∀ junk C, V8Correct g junk C ↔
        matrixAt g.M g.K g.A * (misread g.K g.N g.B - matrixAt g.K g.N g.B) = 0) ∧
      ((∀ A junk C : Nat → α, V8Correct { g with A := A } junk C) ↔
        misread g.K g.N g.B = matrixAt g.K g.N g.B) ∧
      ((∀ A B junk C : Nat → α, V8Correct { g with A := A, B := B } junk C) ↔
        g.K = 1 ∨ g.N = 1) := by
  have allA : ∀ B : Nat → α, (∀ A junk C : Nat → α, V8Correct { g with A := A, B := B } junk C) ↔
      misread g.K g.N B = matrixAt g.K g.N B := by
    intro B
    constructor
    · intro correct
      refine sub_eq_zero.mp (eq_zero_of_forall_mul someRow fun A => ?_)
      exact (v8Correct_iff { g with A := A, B := B } someThread someBlock A A).mp (correct A A A)
    · intro same A junk C
      refine (v8Correct_iff { g with A := A, B := B } someThread someBlock junk C).mpr ?_
      dsimp only
      rw [same, sub_self, Matrix.mul_zero]
  refine ⟨v8Correct_iff g someThread someBlock, allA g.B, ?_⟩
  rw [← misread_eq_iff (α := α) inner someColumn, forall_comm]
  exact forall_congr' allA

end Verdict

def oneRow : Globals Int where
  M := 1
  K := 2
  N := 2
  numThreads := 1
  blockSize := 1
  A a := if a = 0 then 1 else 0
  B a := a + 1

theorem matmulV8_correct_column : V8Correct { oneRow with N := 1 } (fun _ => 7) (fun _ => 9) :=
  (matmulV8_correct_iff { oneRow with N := 1 } (by decide) (by decide) (by decide) (by decide)
    (by decide)).2.2.mpr
    (Or.inr rfl) _ _ _ _

/-- Version 0 leaves 1 and 2 in the row, version 8 leaves 1 and 3. -/
theorem matmulV8_oneRow : matmulV0 oneRow (fun _ => 0) 1 = 2 ∧
    ∃ C', matmulV8 oneRow (fun _ => 0) (fun _ => 0) C' ∧ C' 1 = 3 := by
  obtain ⟨C', run⟩ := exists_matmulV8 oneRow (fun _ => 0) (fun _ => 0)
  refine ⟨by decide, C', run, ?_⟩
  have entry :=
    congrFun (congrFun (matmulV8_eq oneRow (by decide) (by decide) run).1 ⟨0, by decide⟩)
      ⟨1, by decide⟩
  rw [Matrix.add_apply, Matrix.mul_apply] at entry
  exact entry

end SystemsLab.MatmulAll
