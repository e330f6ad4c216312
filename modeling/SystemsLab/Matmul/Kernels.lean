import SystemsLab.General.LoopNest
import SystemsLab.General.Interleaving

/-! The matrix products of the first experiment, `C = A * B` on matrices stored row after
row. A matrix is the memory that its pointer points to, and what `malloc` returns holds
any values. The sequential versions are the loops of the source; a worker thread is the list
of the updates that it makes, for the scheduler to interleave. Elements have a
zero, an addition and a multiplication, and no law is assumed of them. -/

namespace SystemsLab.Matmul
open CountedLoop LoopNest Interleaving

/-- The global variables, except for the output matrix `C`. -/
structure Globals (α : Type*) where
  M : Nat
  K : Nat
  N : Nat
  numThreads : Nat
  blockSize : Nat
  A : Nat → α
  B : Nat → α

section Sequential

variable {α : Type*} [Zero α] [Add α] [Mul α] (g : Globals α)

def clearC (C : Nat → α) : Nat → α := fun a => if a < g.M * g.N then 0 else C a

def entry (i j : Nat) : α :=
  forLoop 0 g.K 1 (fun k sum => sum + g.A (i * g.K + k) * g.B (k * g.N + j)) 0

def matmulNaive (C : Nat → α) : Nat → α :=
  forLoop 0 g.M 1 (fun i C =>
    forLoop 0 g.N 1 (fun j C => Function.update C (i * g.N + j) (entry g i j)) C) C

end Sequential

section Updates

variable {α : Type*} [Add α] [Mul α] (g : Globals α)

def addTo (C : Nat → α) (a : Nat) (x : α) : Nat → α := Function.update C a (C a + x)

def plainB (k j : Nat) : α := g.B (k * g.N + j)

def transposedB (BT : Nat → α) (k j : Nat) : α := BT (j * g.K + k)

def matmulIkj (C : Nat → α) : Nat → α :=
  forLoop 0 g.M 1 (fun i C =>
    forLoop 0 g.K 1 (fun k C =>
      let r := g.A (i * g.K + k)
      forLoop 0 g.N 1 (fun j C => addTo C (i * g.N + j) (r * plainB g k j)) C) C) C

/-- The loops that fill `B_T`, the memory of which first holds `junk`. -/
def transposeB (junk : Nat → α) : Nat → α :=
  forLoop 0 g.K 1 (fun k BT =>
    forLoop 0 g.N 1 (fun j BT => Function.update BT (j * g.K + k) (g.B (k * g.N + j))) BT) junk

def blocked (b : Nat → Nat → α) (C : Nat → α) : Nat → α :=
  forLoop 0 g.M g.blockSize (fun i C =>
    forLoop 0 g.K g.blockSize (fun k C =>
      forLoop 0 g.N g.blockSize (fun j C =>
        forLoop i (min (i + g.blockSize) g.M) 1 (fun ii C =>
          forLoop k (min (k + g.blockSize) g.K) 1 (fun kk C =>
            let r := g.A (ii * g.K + kk)
            forLoop j (min (j + g.blockSize) g.N) 1 (fun jj C =>
              addTo C (ii * g.N + jj) (r * b kk jj)) C) C) C) C) C) C

def matmulBlocked (C : Nat → α) : Nat → α := blocked g (plainB g) C

def matmulBlockTranspose (junk C : Nat → α) : Nat → α :=
  blocked g (transposedB g (transposeB g junk)) C

def unrolled (i k : Nat) (r : α) (j : Nat) (C : Nat → α) : Nat → α :=
  -- in `int`, where `N - 4` may be negative
  if (j : Int) ≤ (g.N : Int) - 4 then
    let C := addTo C (i * g.N + j) (r * g.B (k * g.N + j))
    let C := addTo C (i * g.N + j + 1) (r * g.B (k * g.N + j + 1))
    let C := addTo C (i * g.N + j + 2) (r * g.B (k * g.N + j + 2))
    let C := addTo C (i * g.N + j + 3) (r * g.B (k * g.N + j + 3))
    unrolled i k r (j + 4) C
  else
    forLoop j g.N 1 (fun j C => addTo C (i * g.N + j) (r * g.B (k * g.N + j))) C
termination_by g.N - j
decreasing_by omega

def matmulIkjUnroll (C : Nat → α) : Nat → α :=
  forLoop 0 g.M 1 (fun i C =>
    forLoop 0 g.K 1 (fun k C => unrolled g i k (g.A (i * g.K + k)) 0 C) C) C

end Updates

section Transposed

variable {α : Type*} [Zero α] [Add α] [Mul α] (g : Globals α)

def matmulTranspose (junk C : Nat → α) : Nat → α :=
  let BT := transposeB g junk
  forLoop 0 g.M 1 (fun i C =>
    forLoop 0 g.N 1 (fun j C =>
      let sum := forLoop 0 g.K 1 (fun k sum => sum + g.A (i * g.K + k) * BT (j * g.K + k)) 0
      Function.update C (i * g.N + j) sum) C) C

end Transposed

/-! ## Worker threads -/

/-- One run of the innermost statement `C[i * N + j] += A[i * K + k] * B[k * N + j]`. -/
structure Visit where
  i : Nat
  k : Nat
  j : Nat
deriving DecidableEq

structure ThreadData where
  startRow : Nat
  endRow : Nat

/-- The rows of thread `t`; the last thread also takes the rows that are left over. -/
def threadData {α : Type*} (g : Globals α) (t : Nat) : ThreadData :=
  let rowsPerThread := g.M / g.numThreads
  { startRow := t * rowsPerThread
    endRow := if t = g.numThreads - 1 then g.M else (t + 1) * rowsPerThread }

def ikjVisits (K N lo hi : Nat) : List Visit :=
  emit lo hi 1 fun i => emit 0 K 1 fun k => emit 0 N 1 fun j => [⟨i, k, j⟩]

def blockedVisits (K N size lo hi : Nat) : List Visit :=
  emit lo hi size fun i => emit 0 K size fun k => emit 0 N size fun j =>
    emit i (min (i + size) hi) 1 fun ii =>
      emit k (min (k + size) K) 1 fun kk =>
        emit j (min (j + size) N) 1 fun jj => [⟨ii, kk, jj⟩]

section Threads

variable {α : Type*} [Add α] [Mul α] (g : Globals α)

def threadFunc (data : ThreadData) : List Visit := ikjVisits g.K g.N data.startRow data.endRow

def threadFuncBlocked (data : ThreadData) : List Visit :=
  blockedVisits g.K g.N g.blockSize data.startRow data.endRow

def runVisits (b : Nat → Nat → α) (C : Nat → α) (visits : List Visit) : Nat → α :=
  exec (fun v => v.i * g.N + v.j) (fun v c => c + g.A (v.i * g.K + v.k) * b v.k v.j) C visits

def threads (worker : ThreadData → List Visit) (t : Nat) : List Visit :=
  if t < g.numThreads then worker (threadData g t) else []

/-- `C'` is what some schedule of the threads leaves of `C` once all of them are joined. -/
def matmulMultithread (C C' : Nat → α) : Prop :=
  ∃ trace, Scheduled (threads g (threadFunc g)) trace ∧ C' = runVisits g (plainB g) C trace

def matmulMultithreadBlock (C C' : Nat → α) : Prop :=
  ∃ trace, Scheduled (threads g (threadFuncBlocked g)) trace ∧ C' = runVisits g (plainB g) C trace

end Threads

end SystemsLab.Matmul
