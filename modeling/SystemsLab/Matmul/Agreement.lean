import SystemsLab.General.RowMajor
import SystemsLab.Matmul.Kernels

/-! Why the versions of the matrix product agree. A list of visits is a schedule of a range of rows
when it visits each cell of these rows with every `k` once and in ascending order, and
no other cell. Reordered, tiled and interleaved loops are such schedules,
and any schedule of all rows leaves what the plain product leaves. -/

namespace SystemsLab.Matmul
open CountedLoop LoopNest Interleaving RowMajor

/-! ## Schedules of rows -/

def cellVisits (K i j : Nat) : List Visit := (indices 0 K 1).map fun k => ⟨i, k, j⟩

/-- `visits` brings every cell of the rows from `lo` to `hi` its products in order. -/
structure Covers (K N lo hi : Nat) (visits : List Visit) : Prop where
  cell : ∀ i j, lo ≤ i → i < hi → j < N →
    visits.filter (fun v => decide (v.i = i ∧ v.j = j)) = cellVisits K i j
  inside : ∀ v ∈ visits, lo ≤ v.i ∧ v.i < hi ∧ v.j < N

variable {K N size lo hi : Nat}

theorem emit_cell (i j : Nat) : (emit 0 K 1 fun k => [(⟨i, k, j⟩ : Visit)]) = cellVisits K i j :=
  List.flatMap_pure_eq_map ..

theorem filter_visit (i k j : Nat) :
    [(⟨i, k, j⟩ : Visit)].filter (fun v => decide (v.i = i ∧ v.j = j)) = [⟨i, k, j⟩] := by
  rw [List.filter_cons_of_pos (by simp), List.filter_nil]

theorem Covers.small {visits : List Visit} (cover : Covers K N lo hi visits) {v : Visit}
    (mem : v ∈ visits) :
    v.k < K := by
  have inside := cover.inside v mem
  have own : v ∈ visits.filter fun w => decide (w.i = v.i ∧ w.j = v.j) :=
    List.mem_filter.mpr ⟨mem, decide_eq_true ⟨rfl, rfl⟩⟩
  rw [cover.cell v.i v.j inside.1 inside.2.1 inside.2.2, cellVisits, List.mem_map] at own
  obtain ⟨k, range, eq⟩ := own
  rw [← eq]
  exact (mem_indices_one.mp range).2

theorem ikjVisits_covers (K N lo hi : Nat) : Covers K N lo hi (ikjVisits K N lo hi) where
  cell i j low high small := by
    unfold ikjVisits
    rw [filter_emit_unique Nat.one_pos (mem_indices_one.mpr ⟨low, high⟩), filter_emit, ← emit_cell]
    · congr 1
      funext k
      rw [filter_emit_unique Nat.one_pos (mem_indices_one.mpr ⟨Nat.zero_le j, small⟩), filter_visit]
      intro z _ other s mem
      rw [List.mem_singleton] at mem
      simp [mem, other]
    · intro z _ other s mem
      simp only [mem_emit, List.mem_singleton] at mem
      obtain ⟨k, -, j', -, rfl⟩ := mem
      simp [other]
  inside v mem := by
    simp only [ikjVisits, mem_emit, List.mem_singleton, mem_indices_one] at mem
    obtain ⟨i, rows, k, -, j, cols, rfl⟩ := mem
    exact ⟨rows.1, rows.2, cols.2⟩

theorem blockedVisits_covers (pos : 0 < size) (K N lo hi : Nat) :
    Covers K N lo hi (blockedVisits K N size lo hi) where
  cell i j low high small := by
    obtain ⟨x, rowTile, inRow, onlyRow⟩ := exists_tile pos low high
    obtain ⟨y, colTile, inCol, onlyCol⟩ := exists_tile pos (Nat.zero_le j) small
    unfold blockedVisits
    rw [filter_emit_unique pos rowTile, filter_emit, ← emit_cell, ← emit_emit_tile pos 0 K]
    · congr 1
      funext k
      rw [filter_emit_unique pos colTile, filter_emit_unique Nat.one_pos inRow, filter_emit]
      · congr 1
        funext kk
        rw [filter_emit_unique Nat.one_pos inCol, filter_visit]
        intro z _ other s mem
        rw [List.mem_singleton] at mem
        simp [mem, other]
      · intro z _ other s mem
        simp only [mem_emit, List.mem_singleton] at mem
        obtain ⟨kk, -, jj, -, rfl⟩ := mem
        simp [other]
      · intro z tileMem other s mem
        simp only [mem_emit, List.mem_singleton] at mem
        obtain ⟨ii, -, kk, -, jj, inTile, rfl⟩ := mem
        have ne : jj ≠ j := fun eq => other (onlyCol z tileMem (eq ▸ inTile))
        simp [ne]
    · intro z tileMem other s mem
      simp only [mem_emit, List.mem_singleton] at mem
      obtain ⟨k, -, j', -, ii, inTile, kk, -, jj, -, rfl⟩ := mem
      have ne : ii ≠ i := fun eq => other (onlyRow z tileMem (eq ▸ inTile))
      simp [ne]
  inside v mem := by
    simp only [blockedVisits, mem_emit, List.mem_singleton] at mem
    obtain ⟨x, rowTile, k, -, y, colTile, ii, inRow, kk, -, jj, inCol, rfl⟩ := mem
    rw [mem_indices pos] at rowTile
    rw [mem_indices_one] at inRow inCol
    dsimp only
    omega

/-! ## Any schedule computes the product -/

section Product

variable {α : Type*} [Add α] [Mul α] (g : Globals α) {b : Nat → Nat → α} {visits : List Visit}

theorem runVisits_cell (cover : Covers g.K g.N 0 g.M visits) (C : Nat → α) {i j : Nat}
    (hi : i < g.M) (hj : j < g.N) :
    runVisits g b C visits (i * g.N + j) =
      forLoop 0 g.K 1 (fun k sum => sum + g.A (i * g.K + k) * b k j) (C (i * g.N + j)) := by
  have own :
    visits.filter (fun v => decide (v.i * g.N + v.j = i * g.N + j)) = cellVisits g.K i j := by
    rw [← cover.cell i j (Nat.zero_le i) hi hj]
    refine List.filter_congr fun v mem => ?_
    rw [decide_eq_decide]
    refine ⟨cell_eq (cover.inside v mem).2.2 hj, fun eq => ?_⟩
    rw [eq.1, eq.2]
  unfold runVisits forLoop
  rw [exec_apply, own, cellVisits, List.foldl_map]

theorem runVisits_outside (cover : Covers g.K g.N 0 g.M visits) (C : Nat → α) {a : Nat}
    (ha : g.M * g.N ≤ a) :
    runVisits g b C visits a = C a := by
  unfold runVisits
  refine exec_of_not_written _ _ _ _ _ fun v mem => ?_
  have bound := cell_lt (cover.inside v mem).2.1 (cover.inside v mem).2.2
  omega

end Product

section Naive

variable {α : Type*} [Zero α] [Add α] [Mul α] (g : Globals α)

theorem matmulNaive_eq_exec (C : Nat → α) :
    matmulNaive g C = exec (fun c => c.1 * g.N + c.2) (fun c _ => entry g c.1 c.2) C
      (emit 0 g.M 1 fun i => emit 0 g.N 1 fun j => [(i, j)]) := by
  simp only [exec_emit, exec_singleton]
  rfl

theorem matmulNaive_cell (C : Nat → α) {i j : Nat} (hi : i < g.M) (hj : j < g.N) :
    matmulNaive g C (i * g.N + j) = entry g i j := by
  rw [matmulNaive_eq_exec]
  refine exec_assign _ _ _ ⟨(i, j), ?_, rfl⟩ fun c mem here => ?_
  · simp only [mem_emit, mem_indices_one, List.mem_singleton]
    exact ⟨i, ⟨Nat.zero_le i, hi⟩, j, ⟨Nat.zero_le j, hj⟩, rfl⟩
  · simp only [mem_emit, mem_indices_one, List.mem_singleton] at mem
    obtain ⟨i', -, j', cols, rfl⟩ := mem
    obtain ⟨row, col⟩ := cell_eq cols.2 hj here
    rw [row, col]

theorem matmulNaive_outside (C : Nat → α) {a : Nat} (ha : g.M * g.N ≤ a) :
    matmulNaive g C a = C a := by
  rw [matmulNaive_eq_exec]
  refine exec_of_not_written _ _ _ _ _ fun c mem => ?_
  simp only [mem_emit, mem_indices_one, List.mem_singleton] at mem
  obtain ⟨i, rows, j, cols, rfl⟩ := mem
  have bound := cell_lt rows.2 cols.2
  dsimp only
  omega

/-- Whatever the order of the visits, the cleared matrix ends up as the plain product has it. -/
theorem runVisits_eq_naive {b : Nat → Nat → α} {visits : List Visit}
    (cover : Covers g.K g.N 0 g.M visits)
    (reads : ∀ k j, k < g.K → j < g.N → b k j = g.B (k * g.N + j)) (C : Nat → α) :
    runVisits g b (clearC g C) visits = matmulNaive g (clearC g C) := by
  funext a
  rcases Nat.lt_or_ge a (g.M * g.N) with inside | outside
  · obtain ⟨i, j, hi, hj, rfl⟩ := exists_cell inside
    rw [runVisits_cell g cover _ hi hj, matmulNaive_cell g _ hi hj, clearC, if_pos inside]
    apply forLoop_congr
    intro k mem
    rw [reads k j (mem_indices_one.mp mem).2 hj]
  · rw [runVisits_outside g cover _ outside, matmulNaive_outside g _ outside]

end Naive

/-! ## The sequential versions -/

section TransposeB

variable {α : Type*} (g : Globals α)

theorem transposeB_eq_exec (junk : Nat → α) :
    transposeB g junk = exec (fun e => e.2 * g.K + e.1) (fun e _ => plainB g e.1 e.2) junk
      (emit 0 g.K 1 fun k => emit 0 g.N 1 fun j => [(k, j)]) := by
  simp only [exec_emit, exec_singleton]
  rfl

/-- The filled `B_T` holds `B` transposed, whatever its memory held before. -/
theorem transposedB_eq (junk : Nat → α) {k j : Nat} (hk : k < g.K) (hj : j < g.N) :
    transposedB g (transposeB g junk) k j = g.B (k * g.N + j) := by
  rw [transposedB, transposeB_eq_exec]
  refine exec_assign _ _ _ ⟨(k, j), ?_, rfl⟩ fun e mem here => ?_
  · simp only [mem_emit, mem_indices_one, List.mem_singleton]
    exact ⟨k, ⟨Nat.zero_le k, hk⟩, j, ⟨Nat.zero_le j, hj⟩, rfl⟩
  · simp only [mem_emit, mem_indices_one, List.mem_singleton] at mem
    obtain ⟨k', rows, j', -, rfl⟩ := mem
    obtain ⟨col, row⟩ := cell_eq rows.2 hk here
    rw [col, row, plainB]

end TransposeB

section Sequential

variable {α : Type*} [Add α] [Mul α] (g : Globals α)

theorem matmulIkj_eq_run (C : Nat → α) :
    matmulIkj g C = runVisits g (plainB g) C (ikjVisits g.K g.N 0 g.M) := by
  simp only [runVisits, ikjVisits, exec_emit, exec_singleton]
  rfl

theorem blocked_eq_run (b : Nat → Nat → α) (C : Nat → α) :
    blocked g b C = runVisits g b C (blockedVisits g.K g.N g.blockSize 0 g.M) := by
  simp only [runVisits, blockedVisits, exec_emit, exec_singleton]
  rfl

theorem unrolled_eq (i k : Nat) (r : α) (j : Nat) (C : Nat → α) :
    unrolled g i k r j C = forLoop j g.N 1
      (fun j C => addTo C (i * g.N + j) (r * plainB g k j)) C := by
  fun_induction unrolled g i k r j C with
  | case1 j C room C₁ C₂ C₃ C₄ ih =>
    rw [ih, forLoop_of_lt Nat.one_pos (by omega : j < g.N),
      forLoop_of_lt Nat.one_pos (by omega : j + 1 < g.N),
      forLoop_of_lt Nat.one_pos (by omega : j + 1 + 1 < g.N),
      forLoop_of_lt Nat.one_pos (by omega : j + 1 + 1 + 1 < g.N)]
    rfl
  | case2 j C done => rfl

theorem matmulIkjUnroll_eq (C : Nat → α) : matmulIkjUnroll g C = matmulIkj g C := by
  unfold matmulIkjUnroll matmulIkj
  simp only [unrolled_eq]

end Sequential

section Transposed

variable {α : Type*} [Zero α] [Add α] [Mul α] (g : Globals α)

theorem matmulTranspose_eq (junk C : Nat → α) : matmulTranspose g junk C = matmulNaive g C := by
  unfold matmulTranspose matmulNaive
  apply forLoop_congr
  intro i _
  funext C
  apply forLoop_congr
  intro j cols
  funext C
  have sum :
    forLoop 0 g.K 1 (fun k sum => sum + g.A (i * g.K + k) * transposeB g junk (j * g.K + k)) 0 =
      entry g i j := by
    apply forLoop_congr
    intro k mem
    have read := transposedB_eq g junk (mem_indices_one.mp mem).2 (mem_indices_one.mp cols).2
    unfold transposedB at read
    rw [read]
  rw [sum]

end Transposed

/-! ## The worker threads -/

section Threads

variable {α : Type*} (g : Globals α) {worker : ThreadData → List Visit}

theorem exists_thread (pos : 1 ≤ g.numThreads) {i : Nat} (row : i < g.M) :
    ∃ t < g.numThreads, (threadData g t).startRow ≤ i ∧ i < (threadData g t).endRow ∧
      ∀ u < g.numThreads, (threadData g u).startRow ≤ i → i < (threadData g u).endRow → u = t := by
  unfold threadData
  dsimp only
  generalize g.M / g.numThreads = q
  -- rows from `(numThreads - 1) * q` on are the last thread's, also when `q` is zero
  rcases Nat.lt_or_ge i ((g.numThreads - 1) * q) with early | late
  · have qpos : 0 < q := Nat.pos_of_mul_pos_left (Nat.zero_lt_of_lt early)
    have small : i / q < g.numThreads - 1 := (Nat.div_lt_iff_lt_mul qpos).mpr early
    refine ⟨i / q, by omega, Nat.div_mul_le_self i q, ?_, fun u hu start stop => ?_⟩
    · rw [if_neg (by omega)]
      exact Nat.lt_mul_of_div_lt (Nat.lt_succ_self _) qpos
    · have notLast : u ≠ g.numThreads - 1 := fun last => by
        rw [last] at start
        omega
      rw [if_neg notLast] at stop
      exact (Nat.div_eq_of_lt_le start stop).symm
  · refine ⟨g.numThreads - 1, by omega, late, by rwa [if_pos rfl], fun u hu start stop => ?_⟩
    by_contra notLast
    rw [if_neg notLast] at stop
    have below : (u + 1) * q ≤ (g.numThreads - 1) * q := Nat.mul_le_mul_right q (by omega)
    omega

theorem threadData_endRow_le {t : Nat} (ht : t < g.numThreads) : (threadData g t).endRow ≤ g.M := by
  unfold threadData
  dsimp only
  split
  · exact Nat.le_refl _
  · calc (t + 1) * (g.M / g.numThreads) ≤ g.numThreads * (g.M / g.numThreads) :=
      Nat.mul_le_mul_right _ ht
      _ ≤ g.M := Nat.mul_div_le ..

theorem scheduled_covers (pos : 1 ≤ g.numThreads)
    (rows : ∀ data, Covers K N data.startRow data.endRow (worker data)) {trace : List Visit}
    (run : Scheduled (threads g worker) trace) : Covers K N 0 g.M trace where
  cell i j _ high small := by
    obtain ⟨t, created, start, stop, only⟩ := exists_thread g pos high
    rw [run.filter_eq _ t, threads, if_pos created]
    · exact (rows _).cell i j start stop small
    · intro u other
      refine List.filter_eq_nil_iff.mpr fun v mem here => ?_
      unfold threads at mem
      split at mem
      case isTrue hu =>
        have own := (rows _).inside v mem
        rw [(of_decide_eq_true here).1] at own
        exact other (only u hu own.1 own.2.1)
      case isFalse => exact absurd mem List.not_mem_nil
  inside v mem := by
    obtain ⟨t, step⟩ := run.mem mem
    unfold threads at step
    split at step
    case isTrue ht =>
      have own := (rows _).inside v step
      exact ⟨Nat.zero_le _, Nat.lt_of_lt_of_le own.2.1 (threadData_endRow_le g ht), own.2.2⟩
    case isFalse => exact absurd step List.not_mem_nil

theorem exists_trace (worker : ThreadData → List Visit) :
    ∃ trace, Scheduled (threads g worker) trace :=
  exists_scheduled g.numThreads _ fun t idle => by rw [threads, if_neg (Nat.not_lt.mpr idle)]

end Threads

/-! ## Agreement -/

section Agreement

variable {α : Type*} [Zero α] [Add α] [Mul α] (g : Globals α)

theorem multithread_iff (pos : 1 ≤ g.numThreads) {worker : ThreadData → List Visit}
    (rows : ∀ data, Covers g.K g.N data.startRow data.endRow (worker data)) (C C' : Nat → α) :
    (∃ trace, Scheduled (threads g worker) trace ∧ C' = runVisits g (plainB g) (clearC g C) trace) ↔
      C' = matmulNaive g (clearC g C) := by
  have agree : ∀ trace, Scheduled (threads g worker) trace →
      runVisits g (plainB g) (clearC g C) trace = matmulNaive g (clearC g C) := fun trace run =>
    runVisits_eq_naive g (scheduled_covers g pos rows run) (fun _ _ _ _ => rfl) C
  constructor
  · rintro ⟨trace, run, rfl⟩
    exact agree trace run
  · rintro rfl
    obtain ⟨trace, run⟩ := exists_trace g worker
    exact ⟨trace, run, (agree trace run).symm⟩

/-- From a cleared `C` every version leaves exactly what the plain product leaves, the multithreaded
ones under every schedule of their threads. -/
theorem versions_agree (g : Globals α) (someThread : 1 ≤ g.numThreads) (someBlock : 1 ≤ g.blockSize)
    (junk C : Nat → α) :
    matmulIkj g (clearC g C) = matmulNaive g (clearC g C) ∧
      matmulTranspose g junk (clearC g C) = matmulNaive g (clearC g C) ∧
      matmulBlocked g (clearC g C) = matmulNaive g (clearC g C) ∧
      matmulIkjUnroll g (clearC g C) = matmulNaive g (clearC g C) ∧
      matmulBlockTranspose g junk (clearC g C) = matmulNaive g (clearC g C) ∧
      (∀ C', matmulMultithread g (clearC g C) C' ↔ C' = matmulNaive g (clearC g C)) ∧
      ∀ C', matmulMultithreadBlock g (clearC g C) C' ↔ C' = matmulNaive g (clearC g C) := by
  have ikj : matmulIkj g (clearC g C) = matmulNaive g (clearC g C) := by
    rw [matmulIkj_eq_run]
    exact runVisits_eq_naive g (ikjVisits_covers ..) (fun _ _ _ _ => rfl) C
  refine ⟨ikj, matmulTranspose_eq g junk _, ?_, ?_, ?_, ?_, ?_⟩
  · rw [matmulBlocked, blocked_eq_run]
    exact runVisits_eq_naive g (blockedVisits_covers someBlock ..) (fun _ _ _ _ => rfl) C
  · rw [matmulIkjUnroll_eq, ikj]
  · rw [matmulBlockTranspose, blocked_eq_run]
    exact runVisits_eq_naive g (blockedVisits_covers someBlock ..)
      (fun _ _ => transposedB_eq g junk) C
  · exact multithread_iff g someThread (fun _ => ikjVisits_covers ..) C
  · exact multithread_iff g someThread (fun _ => blockedVisits_covers someBlock ..) C

def unevenSizes : Globals Int where
  M := 3
  K := 3
  N := 5
  numThreads := 2
  blockSize := 2
  A a := a
  B a := a

theorem versions_agree_unevenSizes :
    matmulIkjUnroll unevenSizes (clearC unevenSizes fun _ => 9) 14 = 199 ∧
      matmulBlockTranspose unevenSizes (fun _ => 7) (clearC unevenSizes fun _ => 9) 14 = 199 ∧
      ∃ C', matmulMultithreadBlock unevenSizes (clearC unevenSizes fun _ => 9) C' ∧
        C' 14 = 199 := by
  have last : matmulNaive unevenSizes (clearC unevenSizes fun _ => 9) 14 = 199 := by decide
  obtain ⟨-, -, -, unroll, transposed, -, threaded⟩ :=
    versions_agree unevenSizes (by decide) (by decide) (fun _ => 7) (fun _ => 9)
  rw [unroll, transposed]
  exact ⟨last, last, _, (threaded _).mpr rfl, last⟩

end Agreement

end SystemsLab.Matmul
