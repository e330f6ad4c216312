import SystemsLab.General.CheckedInt

/-! The `int` expressions of `matmul.c`: sizes, loop bounds and indices of `main` and of the nine
versions, with the four numbers of the command line used as they come. Elements have no values
here, and memory suffices for what is allocated. What a thread computes does not depend on the
other threads, so that the threads run one after the other. -/

namespace SystemsLab.MatmulInt
open CheckedInt

structure Sizes where
  M : Int
  K : Int
  N : Int
  numThreads : Int
  rows : InInt M
  inner : InInt K
  cols : InInt N
  threads : InInt numThreads

def blockSize : Nat := 64

def settings (argv : List String) : Sizes :=
  let argc := argv.length
  let arg (i : Nat) : Int32 := atoi (argv.getD i "")
  let M := if 4 ≤ argc then arg 1 else 1024
  let K := if 4 ≤ argc then arg 2 else 1024
  let N := if 4 ≤ argc then arg 3 else 1024
  let numThreads := if 5 ≤ argc then arg 4 else 4
  { M := M.toInt, K := K.toInt, N := N.toInt, numThreads := numThreads.toInt
    rows := inInt_toInt M, inner := inInt_toInt K, cols := inInt_toInt N
    threads := inInt_toInt numThreads }

def index (row cols col : Int) : Checked Int := do
  let start ← int (row * cols)
  int (start + col)

def element (count row cols col : Int) : Checked Unit := do
  let place ← index row cols col
  access count place

def elementAfter (count row cols col after : Int) : Checked Unit := do
  let place ← index row cols col
  let place' ← int (place + after)
  access count place'

section Versions

variable (s : Sizes)

def elementA (i k : Int) : Checked Unit := element (s.M * s.K) i s.K k

def elementB (k j : Int) : Checked Unit := element (s.K * s.N) k s.N j

def elementBT (j k : Int) : Checked Unit := element (s.N * s.K) j s.K k

def elementC (i j : Int) : Checked Unit := element (s.M * s.N) i s.N j

def clearC : Checked Unit := do
  let count ← int (s.M * s.N)
  -- a negative count becomes a `size_t` beyond any allocated memory
  if 0 ≤ count then pure () else .error .outOfBounds

def matmulNaive : Checked Unit :=
  forInt 0 s.M 1 fun i =>
    forInt 0 s.N 1 fun j => do
      forInt 0 s.K 1 fun k => do
        elementA s i k
        elementB s k j
      elementC s i j

def ikj (lo hi : Int) : Checked Unit :=
  forInt lo hi 1 fun i =>
    forInt 0 s.K 1 fun k => do
      elementA s i k
      forInt 0 s.N 1 fun j => do
        elementC s i j
        elementB s k j

def matmulIkj : Checked Unit := ikj s 0 s.M

def transposeB : Checked Unit := do
  let _ ← int (s.N * s.K)
  forInt 0 s.K 1 fun k =>
    forInt 0 s.N 1 fun j => do
      elementBT s j k
      elementB s k j

def matmulTranspose : Checked Unit := do
  transposeB s
  forInt 0 s.M 1 fun i =>
    forInt 0 s.N 1 fun j => do
      forInt 0 s.K 1 fun k => do
        elementA s i k
        elementBT s j k
      elementC s i j

def tileEnd (x hi : Int) : Checked Int := do
  let next ← int (x + blockSize)
  pure (min next hi)

def blocked (second : Int → Int → Checked Unit) (lo hi : Int) : Checked Unit :=
  forInt lo hi blockSize fun i =>
    forInt 0 s.K blockSize fun k =>
      forInt 0 s.N blockSize fun j => do
        let iEnd ← tileEnd i hi
        forInt i iEnd 1 fun ii => do
          let kEnd ← tileEnd k s.K
          forInt k kEnd 1 fun kk => do
            elementA s ii kk
            let jEnd ← tileEnd j s.N
            forInt j jEnd 1 fun jj => do
              elementC s ii jj
              second kk jj

def matmulBlocked : Checked Unit := blocked s (elementB s) 0 s.M

/-- What creates and joins the threads; `worker t lo hi` is what thread `t` runs. -/
def multithread (worker : Int → Int → Int → Checked Unit) : Checked Unit := do
  declare s.numThreads
  declare s.numThreads
  let rowsPerThread ← divide s.M s.numThreads
  forInt 0 s.numThreads 1 fun t => do
    access s.numThreads t
    let startRow ← int (t * rowsPerThread)
    let last ← int (s.numThreads - 1)
    let endRow ← if t = last then pure s.M else do
      let next ← int (t + 1)
      int (next * rowsPerThread)
    worker t startRow endRow
  forInt 0 s.numThreads 1 fun t => access s.numThreads t

def matmulMultithread : Checked Unit := multithread s fun _ => ikj s

def matmulMultithreadBlock : Checked Unit := multithread s fun _ => blocked s (elementB s)

def matmulIkjUnroll : Checked Unit :=
  forInt 0 s.M 1 fun i =>
    forInt 0 s.K 1 fun k => do
      elementA s i k
      let last ← int (s.N - 4)
      -- while `j <= N - 4`
      forInt 0 (last + 1) 4 fun j => do
        elementC s i j
        elementB s k j
        [1, 2, 3].forM fun after => do
          elementAfter (s.M * s.N) i s.N j after
          elementAfter (s.K * s.N) k s.N j after
      forInt (intAfter 0 (last + 1) 4) s.N 1 fun j => do
        elementC s i j
        elementB s k j

def matmulBlockTranspose : Checked Unit := do
  transposeB s
  blocked s (fun kk jj => elementBT s jj kk) 0 s.M

/-- Thread `t` transposes `B` if it finds that no thread has. -/
def threadFinalOptimize (findsNull : Int → Bool) (t lo hi : Int) : Checked Unit := do
  if findsNull t then transposeB s
  blocked s (fun kk jj => elementBT s jj kk) lo hi

def matmulMultithreadFinal (findsNull : Int → Bool) : Checked Unit :=
  multithread s (threadFinalOptimize s findsNull)

def versions (findsNull : Int → Bool) : List (Checked Unit) :=
  [matmulNaive s, matmulIkj s, matmulTranspose s, matmulBlocked s, matmulMultithread s,
    matmulMultithreadBlock s, matmulIkjUnroll s, matmulBlockTranspose s,
    matmulMultithreadFinal s findsNull]

def test (version : Checked Unit) : Checked Unit := do
  clearC s
  version

end Versions

def main (argv : List String) (findsNull : Int → Bool) : Checked Unit := do
  let s := settings argv
  let countA ← int (s.M * s.K)
  let countB ← int (s.K * s.N)
  let _ ← int (s.M * s.N)
  forInt 0 countA 1 fun i => access countA i
  forInt 0 countB 1 fun i => access countB i
  (versions s findsNull).forM (test s)

/-! ## Places of elements -/

section Elements

variable {count rows cols row col : Int}

theorem index_inside (size : count = rows * cols) (fits : InInt count) (low : 0 ≤ row)
    (high : row < rows) (left : 0 ≤ col) (right : col < cols) :
    index row cols col = .ok (row * cols + col) ∧
      0 ≤ row * cols + col ∧ row * cols + cols ≤ count := by
  have start : 0 ≤ row * cols := mul_nonneg low (by omega)
  have rest : (row + 1) * cols ≤ rows * cols := mul_le_mul_of_nonneg_right high (by omega)
  rw [add_mul, one_mul, ← size] at rest
  simp only [index, bind_eq_ok, int_eq_ok]
  exact ⟨⟨_, ⟨⟨by omega, by omega⟩, rfl⟩, ⟨by omega, by omega⟩, rfl⟩, by omega, rest⟩

theorem element_ok (size : count = rows * cols) (fits : InInt count) (low : 0 ≤ row)
    (high : row < rows) (left : 0 ≤ col) (right : col < cols) :
    element count row cols col = .ok () := by
  obtain ⟨place, ge, le⟩ := index_inside size fits low high left right
  simp only [element, bind_eq_ok, access_eq_ok]
  exact ⟨_, place, ge, by omega⟩

theorem elementAfter_ok (size : count = rows * cols) (fits : InInt count) (low : 0 ≤ row)
    (high : row < rows) (left : 0 ≤ col) {after : Int} (ge : 0 ≤ after)
    (right : col + after < cols) : elementAfter count row cols col after = .ok () := by
  obtain ⟨place, first, le⟩ := index_inside size fits low high left (by omega : col < cols)
  simp only [elementAfter, bind_eq_ok, access_eq_ok, int_eq_ok]
  exact ⟨_, place, _, ⟨⟨by omega, by omega⟩, rfl⟩, by omega, by omega⟩

end Elements

/-! ## Sizes that fit -/

/-- The products of the sizes are in range, that of `C` is not negative, and the tiled loops
that are entered can step past their bounds. -/
structure Fits (s : Sizes) : Prop where
  countA : InInt (s.M * s.K)
  countB : InInt (s.K * s.N)
  countC : InInt (s.M * s.N)
  clear : 0 ≤ s.M * s.N
  tileI : s.M ≤ 2 ^ 31 - 64
  tileK : 0 < s.M → s.K ≤ 2 ^ 31 - 64
  tileJ : 0 < s.M → 0 < s.K → s.N ≤ 2 ^ 31 - 64

structure RowRange (s : Sizes) (lo hi : Int) : Prop where
  low : InInt lo
  high : InInt hi
  inside : ∀ i, lo ≤ i → i < hi → 0 ≤ i ∧ i < s.M

theorem RowRange.all (s : Sizes) : RowRange s 0 s.M := ⟨by decide, s.rows, fun _ ge lt => ⟨ge, lt⟩⟩

theorem tileEnd_eq {x : Int} (hi : Int) (low : 0 ≤ x) (high : x < 2 ^ 31 - 64) :
    InInt (x + blockSize) ∧ tileEnd x hi = .ok (min (x + 64) hi) := by
  have next : InInt (x + blockSize) := by
    unfold blockSize
    constructor <;> omega
  simp only [tileEnd, bind_eq_ok, int_eq_ok, pure_eq_ok]
  exact ⟨next, _, ⟨next, rfl⟩, rfl⟩

section Ok

variable {s : Sizes} (fits : Fits s) {i j k : Int}

include fits

theorem clearC_ok : clearC s = .ok () := by
  simp only [clearC, bind_eq_ok, int_eq_ok]
  exact ⟨_, ⟨fits.countC, rfl⟩, if_pos fits.clear⟩

theorem test_eq (version : Checked Unit) : test s version = version := by
  unfold test
  rw [clearC_ok fits, ok_bind]

theorem elementA_ok (i0 : 0 ≤ i) (iM : i < s.M) (k0 : 0 ≤ k) (kK : k < s.K) :
    elementA s i k = .ok () :=
  element_ok rfl fits.countA i0 iM k0 kK

theorem elementB_ok (k0 : 0 ≤ k) (kK : k < s.K) (j0 : 0 ≤ j) (jN : j < s.N) :
    elementB s k j = .ok () :=
  element_ok rfl fits.countB k0 kK j0 jN

theorem elementBT_ok (k0 : 0 ≤ k) (kK : k < s.K) (j0 : 0 ≤ j) (jN : j < s.N) :
    elementBT s j k = .ok () :=
  element_ok rfl (mul_comm s.K s.N ▸ fits.countB) j0 jN k0 kK

theorem elementC_ok (i0 : 0 ≤ i) (iM : i < s.M) (j0 : 0 ≤ j) (jN : j < s.N) :
    elementC s i j = .ok () :=
  element_ok rfl fits.countC i0 iM j0 jN

theorem ijk_ok {second : Int → Int → Checked Unit}
    (read : ∀ k j, 0 ≤ k → k < s.K → 0 ≤ j → j < s.N → second k j = .ok ()) :
    (forInt 0 s.M 1 fun i =>
      forInt 0 s.N 1 fun j => do
        forInt 0 s.K 1 fun k => do
          elementA s i k
          second k j
        elementC s i j) = .ok () := by
  rw [forInt_one_eq_ok (by decide) s.rows.2]
  intro i i0 iM
  rw [forInt_one_eq_ok (by decide) s.cols.2]
  intro j j0 jN
  rw [bind_eq_ok]
  refine ⟨(), ?_, elementC_ok fits i0 iM j0 jN⟩
  rw [forInt_one_eq_ok (by decide) s.inner.2]
  intro k k0 kK
  rw [bind_eq_ok]
  exact ⟨(), elementA_ok fits i0 iM k0 kK, read k j k0 kK j0 jN⟩

theorem matmulNaive_ok : matmulNaive s = .ok () := ijk_ok fits fun _ _ => elementB_ok fits

theorem ikj_ok {lo hi : Int} (rows : RowRange s lo hi) : ikj s lo hi = .ok () := by
  unfold ikj
  rw [forInt_one_eq_ok rows.low.1 rows.high.2]
  intro i first last
  obtain ⟨i0, iM⟩ := rows.inside i first last
  rw [forInt_one_eq_ok (by decide) s.inner.2]
  intro k k0 kK
  rw [bind_eq_ok]
  refine ⟨(), elementA_ok fits i0 iM k0 kK, ?_⟩
  rw [forInt_one_eq_ok (by decide) s.cols.2]
  intro j j0 jN
  rw [bind_eq_ok]
  exact ⟨(), elementC_ok fits i0 iM j0 jN, elementB_ok fits k0 kK j0 jN⟩

theorem transposeB_ok : transposeB s = .ok () := by
  simp only [transposeB, bind_eq_ok, int_eq_ok]
  refine ⟨_, ⟨mul_comm s.K s.N ▸ fits.countB, rfl⟩, ?_⟩
  rw [forInt_one_eq_ok (by decide) s.inner.2]
  intro k k0 kK
  rw [forInt_one_eq_ok (by decide) s.cols.2]
  intro j j0 jN
  rw [bind_eq_ok]
  exact ⟨(), elementBT_ok fits k0 kK j0 jN, elementB_ok fits k0 kK j0 jN⟩

theorem matmulTranspose_ok : matmulTranspose s = .ok () := by
  unfold matmulTranspose
  rw [bind_eq_ok]
  exact ⟨(), transposeB_ok fits, ijk_ok fits fun _ _ => elementBT_ok fits⟩

theorem blocked_ok {second : Int → Int → Checked Unit}
    (read : ∀ k j, 0 ≤ k → k < s.K → 0 ≤ j → j < s.N → second k j = .ok ()) {lo hi : Int}
    (rows : RowRange s lo hi) : blocked s second lo hi = .ok () := by
  have tileI := fits.tileI
  unfold blocked
  rw [forInt_eq_ok (by decide)]
  intro i first last _
  obtain ⟨i0, iM⟩ := rows.inside i first last
  have high := rows.high
  have tileK := fits.tileK (by omega)
  obtain ⟨nextI, endI⟩ := tileEnd_eq hi i0 (by omega)
  refine ⟨?_, nextI⟩
  rw [forInt_eq_ok (by decide)]
  intro k k0 kK _
  have tileJ := fits.tileJ (by omega) (by omega)
  obtain ⟨nextK, endK⟩ := tileEnd_eq s.K k0 (by omega)
  refine ⟨?_, nextK⟩
  rw [forInt_eq_ok (by decide)]
  intro j j0 jN _
  obtain ⟨nextJ, endJ⟩ := tileEnd_eq s.N j0 (by omega)
  refine ⟨?_, nextJ⟩
  rw [bind_eq_ok]
  refine ⟨_, endI, ?_⟩
  rw [forInt_one_eq_ok (by omega) (by omega)]
  intro ii fromI toI
  obtain ⟨ii0, iiM⟩ := rows.inside ii (by omega) (by omega)
  rw [bind_eq_ok]
  refine ⟨_, endK, ?_⟩
  rw [forInt_one_eq_ok (by omega) (by omega)]
  intro kk fromK toK
  have kk0 : 0 ≤ kk := by omega
  have kkK : kk < s.K := by omega
  simp only [bind_eq_ok]
  refine ⟨(), elementA_ok fits ii0 iiM kk0 kkK, _, endJ, ?_⟩
  rw [forInt_one_eq_ok (by omega) (by omega)]
  intro jj fromJ toJ
  rw [bind_eq_ok]
  exact ⟨(), elementC_ok fits ii0 iiM (by omega) (by omega),
    read kk jj kk0 kkK (by omega) (by omega)⟩

theorem blocked_elementB_ok {lo hi : Int} (rows : RowRange s lo hi) :
    blocked s (elementB s) lo hi = .ok () :=
  blocked_ok fits (fun _ _ => elementB_ok fits) rows

theorem blocked_elementBT_ok {lo hi : Int} (rows : RowRange s lo hi) :
    blocked s (fun kk jj => elementBT s jj kk) lo hi = .ok () :=
  blocked_ok fits (fun _ _ => elementBT_ok fits) rows

theorem matmulBlockTranspose_ok : matmulBlockTranspose s = .ok () := by
  unfold matmulBlockTranspose
  rw [bind_eq_ok]
  exact ⟨(), transposeB_ok fits, blocked_elementBT_ok fits (.all s)⟩

theorem threadFinalOptimize_ok (findsNull : Int → Bool) (t : Int) {lo hi : Int}
    (rows : RowRange s lo hi) : threadFinalOptimize s findsNull t lo hi = .ok () := by
  have product := blocked_elementBT_ok fits rows
  unfold threadFinalOptimize
  split
  · exact bind_eq_ok.mpr ⟨(), transposeB_ok fits, product⟩
  · exact product

theorem matmulIkjUnroll_ok : matmulIkjUnroll s = .ok () := by
  unfold matmulIkjUnroll
  rw [forInt_one_eq_ok (by decide) s.rows.2]
  intro i i0 iM
  rw [forInt_one_eq_ok (by decide) s.inner.2]
  intro k k0 kK
  have columns : 0 ≤ s.N := nonneg_of_mul_nonneg_right fits.clear (by omega)
  have cols := s.cols
  simp only [bind_eq_ok, int_eq_ok]
  refine ⟨(), elementA_ok fits i0 iM k0 kK, _, ⟨⟨by omega, by omega⟩, rfl⟩, (), ?_, ?_⟩
  · rw [forInt_eq_ok (by decide)]
    intro j j0 before _
    refine ⟨?_, by omega, by omega⟩
    simp only [bind_eq_ok, forM_eq_ok]
    refine ⟨(), elementC_ok fits i0 iM j0 (by omega), (),
      elementB_ok fits k0 kK j0 (by omega), fun after three => ⟨(), ?_⟩⟩
    have range : 1 ≤ after ∧ after ≤ 3 := by
      simp only [List.mem_cons, List.not_mem_nil, or_false] at three
      omega
    exact ⟨elementAfter_ok rfl fits.countC i0 iM j0 (by omega) (by omega),
      elementAfter_ok rfl fits.countB k0 kK j0 (by omega) (by omega)⟩
  · have start : 0 ≤ intAfter 0 (s.N - 4 + 1) 4 := le_intAfter
    rw [forInt_one_eq_ok (by omega) cols.2]
    intro j first jN
    rw [bind_eq_ok]
    exact ⟨(), elementC_ok fits i0 iM (by omega) jN, elementB_ok fits k0 kK (by omega) jN⟩

end Ok

/-! ## Threads -/

section Threads

variable {s : Sizes} {worker : Int → Int → Int → Checked Unit}

theorem share_bounds {M T t : Int} (some : 0 < T) (low : 0 ≤ t) (high : t ≤ T) :
    (0 ≤ M → 0 ≤ t * M.tdiv T ∧ t * M.tdiv T ≤ M) ∧
      (M ≤ 0 → M ≤ t * M.tdiv T ∧ t * M.tdiv T ≤ 0) := by
  have upward : ∀ m : Int, 0 ≤ m → 0 ≤ t * m.tdiv T ∧ t * m.tdiv T ≤ m := fun m nonneg => by
    rw [Int.tdiv_eq_ediv_of_nonneg nonneg]
    have quotient : 0 ≤ m / T := Int.ediv_nonneg nonneg some.le
    have whole : T * (m / T) ≤ m := Int.mul_ediv_self_le some.ne'
    exact ⟨mul_nonneg low quotient, (mul_le_mul_of_nonneg_right high quotient).trans whole⟩
  refine ⟨upward M, fun nonpos => ?_⟩
  have mirrored := upward (-M) (by omega)
  rw [Int.neg_tdiv, mul_neg] at mirrored
  omega

theorem multithread_ok (some : 0 < s.numThreads)
    (works : ∀ t lo hi, RowRange s lo hi → worker t lo hi = .ok ()) :
    multithread s worker = .ok () := by
  have rows := s.rows
  have threads := s.threads
  have one := share_bounds (M := s.M) some Int.one_nonneg some
  rw [one_mul] at one
  simp only [multithread, bind_eq_ok, declare_eq_ok, divide_eq_ok]
  refine ⟨(), some.le, (), some.le, _, ⟨some.ne', ⟨by omega, by omega⟩, rfl⟩, (), ?_, ?_⟩
  · rw [forInt_one_eq_ok (by decide) threads.2]
    intro t t0 tT
    have start := share_bounds (M := s.M) some t0 tT.le
    have stop := share_bounds (M := s.M) some (by omega : 0 ≤ t + 1) tT
    have next : (t + 1) * s.M.tdiv s.numThreads =
        t * s.M.tdiv s.numThreads + s.M.tdiv s.numThreads := by rw [add_mul, one_mul]
    simp only [bind_eq_ok, access_eq_ok, int_eq_ok]
    refine ⟨(), ⟨t0, tT⟩, _, ⟨⟨by omega, by omega⟩, rfl⟩, _, ⟨⟨by omega, by omega⟩, rfl⟩, ?_⟩
    split
    case isTrue last =>
      rw [bind_eq_ok]
      exact ⟨_, rfl, works _ _ _ ⟨⟨by omega, by omega⟩, rows, fun i _ _ => by omega⟩⟩
    case isFalse =>
      simp only [bind_eq_ok, int_eq_ok]
      exact ⟨_, ⟨⟨by omega, by omega⟩, rfl⟩, _, ⟨⟨by omega, by omega⟩, rfl⟩,
        works _ _ _ ⟨⟨by omega, by omega⟩, ⟨by omega, by omega⟩, fun i _ _ => by omega⟩⟩
  · rw [forInt_one_eq_ok (by decide) threads.2]
    exact fun t t0 tT => access_eq_ok.mpr ⟨t0, tT⟩

theorem multithread_pos (run : multithread s worker = .ok ()) : 0 < s.numThreads := by
  simp only [multithread, bind_eq_ok, declare_eq_ok, divide_eq_ok] at run
  obtain ⟨_, ge, _, -, _, ⟨ne, -⟩, -⟩ := run
  omega

theorem multithread_zero (none : s.numThreads = 0) :
    multithread s worker = .error .divisionByZero := by
  unfold multithread
  rw [none]
  rfl

theorem multithread_neg (negative : s.numThreads < 0) :
    multithread s worker = .error .arrayLength := by
  unfold multithread declare
  rw [if_pos negative]
  rfl

end Threads

/-! ## The whole program -/

section Main

variable {s : Sizes} {findsNull : Int → Bool}

theorem versions_ok (fits : Fits s) (some : 0 < s.numThreads) :
    ∀ version ∈ versions s findsNull, version = .ok () := by
  simp only [versions, List.forall_mem_cons, List.not_mem_nil, false_implies, implies_true,
    and_true]
  exact ⟨matmulNaive_ok fits, ikj_ok fits (.all s), matmulTranspose_ok fits,
    blocked_elementB_ok fits (.all s), multithread_ok some fun _ _ _ => ikj_ok fits,
    multithread_ok some fun _ _ _ => blocked_elementB_ok fits, matmulIkjUnroll_ok fits,
    matmulBlockTranspose_ok fits, multithread_ok some fun t _ _ => threadFinalOptimize_ok fits _ t⟩

theorem tiles_of_ok {hi : Int} {body : Int → Checked Unit}
    (run : forInt 0 hi blockSize body = .ok ()) :
    hi ≤ 2 ^ 31 - 64 ∧ (0 < hi → body 0 = .ok ()) := by
  rw [forInt_eq_ok (by decide)] at run
  refine ⟨?_, fun pos => (run 0 le_rfl pos (dvd_zero _)).1⟩
  by_contra large
  have last := (run (64 * ((hi - 1) / 64)) (by omega) (by omega) (by
    rw [sub_zero]
    exact dvd_mul_right _ _)).2
  unfold blockSize at last
  omega

theorem fits_of_ok (productA : InInt (s.M * s.K)) (productB : InInt (s.K * s.N))
    (clear : clearC s = .ok ()) (tiled : matmulBlocked s = .ok ()) : Fits s := by
  simp only [clearC, bind_eq_ok, int_eq_ok] at clear
  obtain ⟨_, ⟨productC, rfl⟩, ge⟩ := clear
  obtain ⟨tileI, runK⟩ := tiles_of_ok tiled
  refine ⟨productA, productB, productC, ?_, tileI, fun rows => (tiles_of_ok (runK rows)).1,
    fun rows inner => (tiles_of_ok ((tiles_of_ok (runK rows)).2 inner)).1⟩
  by_contra negative
  rw [if_neg negative] at ge
  cases ge

theorem main_eq {argv : List String} (fits : Fits (settings argv)) :
    main argv findsNull =
      (versions (settings argv) findsNull).forM (test (settings argv)) := by
  have filled : ∀ {count : Int}, InInt count →
      (forInt 0 count 1 fun i => access count i) = .ok () := fun {count} inside => by
    rw [forInt_one_eq_ok (by decide) inside.2]
    exact fun i ge lt => access_eq_ok.mpr ⟨ge, lt⟩
  have value : ∀ {x : Int}, InInt x → int x = .ok x := fun inside => int_eq_ok.mpr ⟨inside, rfl⟩
  unfold main
  dsimp only
  rw [value fits.countA, value fits.countB, value fits.countC]
  simp only [ok_bind, filled fits.countA, filled fits.countB]

theorem main_error {argv : List String} (fits : Fits (settings argv)) {fault : Fault}
    (first : matmulMultithread (settings argv) = .error fault) :
    main argv findsNull = .error fault := by
  rw [main_eq fits]
  simp only [versions, List.forM_eq_forM, List.forM_cons, test_eq fits, matmulNaive_ok fits,
    matmulIkj, ikj_ok fits (.all _), matmulTranspose_ok fits, matmulBlocked,
    blocked_elementB_ok fits (.all _), first, ok_bind, error_bind]

/-- The run has no fault exactly with at least one thread and sizes that fit. Where they fit,
too few threads are what goes wrong. -/
theorem main_ok_iff (argv : List String) (findsNull : Int → Bool) :
    (main argv findsNull = .ok () ↔ 1 ≤ (settings argv).numThreads ∧ Fits (settings argv)) ∧
    (Fits (settings argv) → (settings argv).numThreads = 0 →
      main argv findsNull = .error .divisionByZero) ∧
    (Fits (settings argv) → (settings argv).numThreads < 0 →
      main argv findsNull = .error .arrayLength) := by
  refine ⟨⟨fun run => ?_, ?_⟩, fun fits empty => ?_, fun fits negative => ?_⟩
  · simp only [main, bind_eq_ok, int_eq_ok, forM_eq_ok] at run
    obtain ⟨_, ⟨productA, -⟩, _, ⟨productB, -⟩, _, -, _, -, _, -, all⟩ := run
    have tiled := all (matmulBlocked (settings argv)) (by simp [versions])
    have threaded := all (matmulMultithread (settings argv)) (by simp [versions])
    simp only [test, bind_eq_ok] at tiled threaded
    obtain ⟨_, clear, tiled⟩ := tiled
    obtain ⟨_, -, threaded⟩ := threaded
    exact ⟨multithread_pos threaded, fits_of_ok productA productB clear tiled⟩
  · rintro ⟨created, fits⟩
    rw [main_eq fits, forM_eq_ok]
    exact fun version mem => (test_eq fits version).trans (versions_ok fits created version mem)
  · exact main_error fits (multithread_zero empty)
  · exact main_error fits (multithread_neg negative)

/-- No thread, a product past the range, and a negative one. -/
theorem main_faults :
    main ["./matmul", "1", "1", "1", "0"] (fun _ => true) = .error .divisionByZero ∧
      main ["./matmul", "65536", "1", "65536", "4"] (fun _ => true) = .error .overflow ∧
      main ["./matmul", "-1", "1", "1", "4"] (fun _ => true) = .error .outOfBounds := by
  decide +kernel

end Main

end SystemsLab.MatmulInt
