import SystemsLab.General.CheckedInt
import SystemsLab.General.Interleaving
import SystemsLab.General.LoopNest

/-! The product of two square matrices in `matrix_multiplication.c`. Worker `tid` takes the rows
from `tid * n / num_threads` up to where the next worker starts, both rounded down; with more
threads than rows some workers have none. The arrays have `MAX_N` rows and columns, of
which the first `n` are used; an array is a function of row and column. -/

namespace SystemsLab.MatmulSquare
open CheckedInt Interleaving LoopNest

def maxN : Int := 512

def check (n numThreads : Int) : Except String Unit :=
  if n ≤ 0 ∨ maxN < n then .error "Matrix size N must be between 1 and 512"
  else if numThreads ≤ 0 then .error "Number of threads must be positive"
  else .ok ()

structure ThreadArg where
  tid : Int
  numThreads : Int
  n : Int

def rowRange (t : ThreadArg) : Checked (Int × Int) := do
  let first ← int (t.tid * t.n)
  let start ← divide first t.numThreads
  let tid' ← int (t.tid + 1)
  let next ← int (tid' * t.n)
  let stop ← divide next t.numThreads
  pure (start, stop)

def accessCell (i j : Int) : Checked Unit := do
  access maxN i
  access maxN j

def cells (n start stop : Int) : List (Int × Int) :=
  (intRange start stop 1).flatMap fun i => (intRange 0 n 1).map fun j => (i, j)

def worker (t : ThreadArg) : Checked (List (Int × Int)) := do
  let (start, stop) ← rowRange t
  forInt start stop 1 fun i =>
    forInt 0 t.n 1 fun j => do
      forInt 0 t.n 1 fun k => do
        accessCell i k
        accessCell k j
      accessCell i j
  pure (cells t.n start stop)

def threads (n numThreads : Int) (t : Nat) : List (Int × Int) :=
  if (t : Int) < numThreads then (worker ⟨t, numThreads, n⟩).toOption.getD [] else []

section Product

variable {α : Type} [Zero α] [Add α] [Mul α] (n : Int) (A B : Int × Int → α)

/-- The last value of `sum` for row `i` and column `j`. -/
def element (i j : Int) : α :=
  (intRange 0 n 1).foldl (fun sum k => sum + A (i, k) * B (k, j)) 0

/-- `C'` is what some schedule of the workers leaves of `C` once all of them are joined. -/
def multiply (numThreads : Int) (C C' : Int × Int → α) : Prop :=
  ∃ trace, Scheduled (threads n numThreads) trace ∧
    C' = exec id (fun cell _ => element n A B cell.1 cell.2) C trace

end Product

theorem check_eq_ok {n numThreads : Int} :
    check n numThreads = .ok () ↔ (1 ≤ n ∧ n ≤ maxN) ∧ 1 ≤ numThreads := by
  unfold check
  split
  case isTrue outside =>
    simp only [reduceCtorEq, false_iff]
    omega
  case isFalse inside =>
    split
    case isTrue none =>
      simp only [reduceCtorEq, false_iff]
      omega
    case isFalse some =>
      simp only [true_iff]
      omega

theorem element_eq {α : Type} [Zero α] [Add α] [Mul α] (n : Int) (A B : Int × Int → α)
    (i j : Int) :
    element n A B i j =
      ((List.range n.toNat).map fun k : Nat => A (i, k) * B (k, j)).foldl (· + ·) 0 := by
  have all : intRange 0 n 1 = (List.range n.toNat).map fun k : Nat => (k : Int) := by
    simp [intRange, CountedLoop.indices_one, List.range_eq_range']
  rw [element, all, List.foldl_map, List.foldl_map]

/-! ## The rows of the workers -/

variable {n numThreads : Int}

theorem mem_cells {start stop : Int} {cell : Int × Int} :
    cell ∈ cells n start stop ↔
      (start ≤ cell.1 ∧ cell.1 < stop) ∧ 0 ≤ cell.2 ∧ cell.2 < n := by
  obtain ⟨i, j⟩ := cell
  simp [cells, mem_intRange_one]

theorem rowRange_eq (pos : 0 < n) (small : numThreads * n < 2 ^ 31) {tid : Int} (low : 0 ≤ tid)
    (high : tid < numThreads) :
    rowRange ⟨tid, numThreads, n⟩ = .ok (tid * n / numThreads, (tid + 1) * n / numThreads) := by
  have first : 0 ≤ tid * n := mul_nonneg low pos.le
  have succ : tid + 1 ≤ (tid + 1) * n := le_mul_of_one_le_right (by omega) pos
  have order : tid * n ≤ (tid + 1) * n := mul_le_mul_of_nonneg_right (by omega) pos.le
  have top : (tid + 1) * n ≤ numThreads * n := mul_le_mul_of_nonneg_right (by omega) pos.le
  have quotient : ∀ a, 0 ≤ a → a ≤ numThreads * n → divide a numThreads = .ok (a / numThreads) := by
    intro a nonneg le
    have zero_le := Int.ediv_nonneg nonneg (by omega : 0 ≤ numThreads)
    have le_self := Int.ediv_le_self numThreads nonneg
    rw [divide_eq_ok, Int.tdiv_eq_ediv_of_nonneg nonneg]
    exact ⟨by omega, ⟨by omega, by omega⟩, rfl⟩
  simp only [rowRange, bind_eq_ok, pure_eq_ok, int_eq_ok]
  exact ⟨_, ⟨⟨by omega, by omega⟩, rfl⟩, _, quotient _ first (by omega),
    _, ⟨⟨by omega, by omega⟩, rfl⟩, _, ⟨⟨by omega, by omega⟩, rfl⟩,
    _, quotient _ (by omega) top, rfl⟩

theorem bound_mono (pos : 0 < n) (some : 0 < numThreads) {tid tid' : Nat} (le : tid ≤ tid') :
    (tid : Int) * n / numThreads ≤ tid' * n / numThreads :=
  Int.ediv_le_ediv some (mul_le_mul_of_nonneg_right (Int.ofNat_le.mpr le) pos.le)

theorem bound_zero : ((0 : Nat) : Int) * n / numThreads = 0 := by
  rw [Nat.cast_zero, zero_mul, Int.zero_ediv]

theorem bound_last {T : Nat} (some : 0 < (T : Int)) : (T : Int) * n / T = n :=
  Int.mul_ediv_cancel_left n some.ne'

theorem rows_inside (pos : 0 < n) {tid : Int} (low : 0 ≤ tid) (high : tid < numThreads) :
    0 ≤ tid * n / numThreads ∧ tid * n / numThreads ≤ (tid + 1) * n / numThreads ∧
      (tid + 1) * n / numThreads ≤ n := by
  lift tid to Nat using low
  lift numThreads to Nat using (by omega)
  have some : 0 < (numThreads : Int) := by omega
  have start := bound_mono pos some (Nat.zero_le tid)
  have step := bound_mono pos some (Nat.le_succ tid)
  have stop := bound_mono pos some (by omega : tid + 1 ≤ numThreads)
  simp only [bound_zero, bound_last some, Nat.cast_succ] at start step stop
  exact ⟨start, step, stop⟩

theorem existsUnique_worker (pos : 0 < n) (some : 0 < numThreads) {i : Int} (low : 0 ≤ i)
    (high : i < n) :
    ∃! tid : Nat, (tid : Int) < numThreads ∧
      tid * n / numThreads ≤ i ∧ i < (tid + 1) * n / numThreads := by
  lift numThreads to Nat using some.le
  have unique := existsUnique_range (f := fun tid : Nat => (tid : Int) * n / numThreads) (x := i)
    (fun _ _ => bound_mono pos some) (by rwa [bound_zero]) (by rwa [bound_last some])
  simpa only [Nat.cast_succ, Nat.cast_lt] using unique

/-! ## All workers -/

theorem accessCell_ok {i j : Int} (row : 0 ≤ i ∧ i < maxN) (col : 0 ≤ j ∧ j < maxN) :
    accessCell i j = .ok () := by
  simp only [accessCell, bind_eq_ok, access_eq_ok]
  exact ⟨(), row, col⟩

theorem worker_eq (pos : 0 < n) (fits : n ≤ maxN) (small : numThreads * n < 2 ^ 31) {tid : Int}
    (low : 0 ≤ tid) (high : tid < numThreads) :
    worker ⟨tid, numThreads, n⟩ =
      .ok (cells n (tid * n / numThreads) ((tid + 1) * n / numThreads)) := by
  obtain ⟨start, order, stop⟩ := rows_inside pos low high
  unfold maxN at fits
  simp only [worker, bind_eq_ok, pure_eq_ok]
  refine ⟨_, rowRange_eq pos small low high, (), ?_, rfl⟩
  rw [forInt_one_eq_ok (by omega) (by omega)]
  intro i startRow stopRow
  rw [forInt_one_eq_ok (by omega) (by omega)]
  intro j firstCol lastCol
  have inside : ∀ x, 0 ≤ x → x < n → 0 ≤ x ∧ x < maxN := fun x ge lt => ⟨ge, by unfold maxN; omega⟩
  have row := inside i (by omega) (by omega)
  have col := inside j firstCol lastCol
  rw [bind_eq_ok]
  refine ⟨(), ?_, accessCell_ok row col⟩
  rw [forInt_one_eq_ok (by omega) (by omega)]
  intro k first last
  rw [bind_eq_ok]
  exact ⟨(), accessCell_ok row (inside k first last), accessCell_ok (inside k first last) col⟩

theorem mem_threads (pos : 0 < n) (fits : n ≤ maxN) (small : numThreads * n < 2 ^ 31) {tid : Nat}
    {cell : Int × Int} :
    cell ∈ threads n numThreads tid ↔ ((tid : Int) < numThreads ∧
      tid * n / numThreads ≤ cell.1 ∧ cell.1 < (tid + 1) * n / numThreads) ∧
        0 ≤ cell.2 ∧ cell.2 < n := by
  unfold threads
  split
  case isTrue created =>
    rw [worker_eq pos fits small (Int.natCast_nonneg tid) created, and_iff_right created]
    exact mem_cells
  case isFalse absent => simp [absent]

theorem nodup_cells (start stop : Int) : (cells n start stop).Nodup :=
  (nodup_intRange Nat.one_pos).product (nodup_intRange Nat.one_pos)

theorem nodup_threads (pos : 0 < n) (fits : n ≤ maxN) (small : numThreads * n < 2 ^ 31)
    (tid : Nat) : (threads n numThreads tid).Nodup := by
  unfold threads
  split
  case isTrue created =>
    rw [worker_eq pos fits small (Int.natCast_nonneg tid) created]
    exact nodup_cells _ _
  case isFalse => exact List.nodup_nil

theorem trace_count (pos : 0 < n) (fits : n ≤ maxN) (some : 0 < numThreads)
    (small : numThreads * n < 2 ^ 31) {trace : List (Int × Int)}
    (run : Scheduled (threads n numThreads) trace) {i j : Int} (row : 0 ≤ i ∧ i < n)
    (col : 0 ≤ j ∧ j < n) : trace.count (i, j) = 1 := by
  obtain ⟨owner, inside, only⟩ := existsUnique_worker pos some row.1 row.2
  have own := run.filter_eq (fun cell => cell == (i, j)) owner fun tid other => by
    refine List.filter_eq_nil_iff.mpr fun cell mem same => other (only tid ?_)
    rw [eq_of_beq same] at mem
    exact ((mem_threads pos fits small).mp mem).1
  rw [List.count_eq_length_filter, own, ← List.count_eq_length_filter]
  exact List.count_eq_one_of_mem (nodup_threads pos fits small owner)
    ((mem_threads pos fits small).mpr ⟨inside, col⟩)

theorem trace_inside (pos : 0 < n) (fits : n ≤ maxN) (small : numThreads * n < 2 ^ 31)
    {trace : List (Int × Int)} (run : Scheduled (threads n numThreads) trace) {cell : Int × Int}
    (mem : cell ∈ trace) : (0 ≤ cell.1 ∧ cell.1 < n) ∧ 0 ≤ cell.2 ∧ cell.2 < n := by
  obtain ⟨tid, own⟩ := run.mem mem
  obtain ⟨⟨created, low, high⟩, col⟩ := (mem_threads pos fits small).mp own
  obtain ⟨start, -, stop⟩ := rows_inside pos (Int.natCast_nonneg tid) created
  exact ⟨⟨start.trans low, high.trans_le stop⟩, col⟩

theorem exists_trace (n numThreads : Int) : ∃ trace, Scheduled (threads n numThreads) trace :=
  exists_scheduled numThreads.toNat _ fun tid late => if_neg (by omega)

section Product

variable {α : Type} [Zero α] [Add α] [Mul α] {A B C C' : Int × Int → α}

theorem multiply_cell (pos : 0 < n) (fits : n ≤ maxN) (some : 0 < numThreads)
    (small : numThreads * n < 2 ^ 31) (done : multiply n A B numThreads C C') {i j : Int}
    (row : 0 ≤ i ∧ i < n) (col : 0 ≤ j ∧ j < n) : C' (i, j) = element n A B i j := by
  obtain ⟨trace, run, rfl⟩ := done
  have once := trace_count pos fits some small run row col
  have written : (i, j) ∈ trace := List.count_pos_iff.mp (by omega)
  refine exec_assign id _ C ⟨(i, j), written, rfl⟩ fun cell _ here => ?_
  rw [show cell = (i, j) from here]

theorem multiply_outside (pos : 0 < n) (fits : n ≤ maxN) (small : numThreads * n < 2 ^ 31)
    (done : multiply n A B numThreads C C') {cell : Int × Int}
    (outside : ¬ ((0 ≤ cell.1 ∧ cell.1 < n) ∧ 0 ≤ cell.2 ∧ cell.2 < n)) : C' cell = C cell := by
  obtain ⟨trace, run, rfl⟩ := done
  refine exec_of_not_written id _ C trace cell fun own mem here => outside ?_
  rw [← show own = cell from here]
  exact trace_inside pos fits small run mem

/-- The rows of the workers are in range and share out the rows of the matrix, so that every
schedule leaves the product of `A` and `B`. -/
theorem workers_multiply (n numThreads : Int) (low : 1 ≤ n) (high : n ≤ 512)
    (some : 1 ≤ numThreads) (small : numThreads * n < 2 ^ 31) (A B C : Int × Int → α) :
    (∀ tid, 0 ≤ tid → tid < numThreads →
      ∃ start stop, rowRange ⟨tid, numThreads, n⟩ = .ok (start, stop) ∧
        start = tid * n / numThreads ∧ stop = (tid + 1) * n / numThreads ∧
        0 ≤ start ∧ start ≤ stop ∧ stop ≤ n ∧
        worker ⟨tid, numThreads, n⟩ = .ok (cells n start stop)) ∧
    (∀ i, 0 ≤ i → i < n → ∃! tid : Nat, (tid : Int) < numThreads ∧
      ∃ start stop, rowRange ⟨tid, numThreads, n⟩ = .ok (start, stop) ∧ start ≤ i ∧ i < stop) ∧
    (∃ C', multiply n A B numThreads C C') ∧
    ∀ C', multiply n A B numThreads C C' →
      (∀ i j, 0 ≤ i → i < n → 0 ≤ j → j < n → C' (i, j) =
        ((List.range n.toNat).map fun k : Nat => A (i, k) * B (k, j)).foldl (· + ·) 0) ∧
      ∀ i j, ¬ ((0 ≤ i ∧ i < n) ∧ 0 ≤ j ∧ j < n) → C' (i, j) = C (i, j) := by
  have pos : 0 < n := low
  refine ⟨fun tid first last => ?_, fun i top bottom => ?_, ?_, fun C' done => ⟨?_, ?_⟩⟩
  · obtain ⟨start, order, stop⟩ := rows_inside pos first last
    exact ⟨_, _, rowRange_eq pos small first last, rfl, rfl, start, order, stop,
      worker_eq pos high small first last⟩
  · obtain ⟨owner, ⟨created, inside⟩, only⟩ := existsUnique_worker pos some top bottom
    have range : ∀ tid : Nat, (tid : Int) < numThreads →
        rowRange ⟨tid, numThreads, n⟩ =
          .ok (tid * n / numThreads, (tid + 1) * n / numThreads) := fun tid =>
      rowRange_eq pos small (Int.natCast_nonneg tid)
    refine ⟨owner, ⟨created, _, _, range owner created, inside⟩, ?_⟩
    rintro tid ⟨created', start, stop, eq, inside'⟩
    rw [range tid created', Except.ok.injEq, Prod.mk.injEq] at eq
    obtain ⟨rfl, rfl⟩ := eq
    exact only tid ⟨created', inside'⟩
  · obtain ⟨trace, run⟩ := exists_trace n numThreads
    exact ⟨_, trace, run, rfl⟩
  · intro i j top bottom left right
    rw [multiply_cell pos high some small done ⟨top, bottom⟩ ⟨left, right⟩]
    exact element_eq n A B i j
  · exact fun i j outside => multiply_outside pos high small done outside

end Product

/-- Three rows for five threads; the first and the third thread have none. -/
theorem workers_multiply_three_rows :
    rowRange ⟨2, 5, 3⟩ = .ok (1, 1) ∧
      ∃ C', multiply 3 (fun p => p.1 + 2 * p.2) (fun p => p.1 * p.1 + p.2) 5 (fun _ => (0 : Int))
        C' ∧ C' (2, 1) = 2 * 1 + 4 * 2 + 6 * 5 := by
  obtain ⟨-, -, ⟨C', done⟩, product⟩ := workers_multiply 3 5 (by decide) (by decide) (by decide)
    (by decide) (fun p => p.1 + 2 * p.2) (fun p => p.1 * p.1 + p.2) (fun _ => (0 : Int))
  refine ⟨by decide, C', done, ?_⟩
  rw [(product C' done).1 2 1 (by decide) (by decide) (by decide) (by decide)]
  decide

end SystemsLab.MatmulSquare
