import SystemsLab.General.StepRuns
import SystemsLab.Sm4.PortableCbc

/-! The parallel CBC decryption of `sm4_cbc_decrypt_parallel.c`. The caller deals ranges of blocks
to the workers that it creates and joins them in order; a worker decrypts the blocks of its
range one after the other. The argument records lie in the stack frame of the caller.
Each block of a worker is one step, and the scheduler chooses who goes next. -/

namespace SystemsLab.ParallelDecrypt
open ByteWord Textbook Sm4Portable Sm4PortableCbc Buffer CipherChaining StepRuns

structure DecryptArg where
  ks : RoundKeys
  cipher : Nat
  plain : Nat
  iv : Block
  startBlock : Nat
  endBlock : Nat

/-- A call of `cbc_decrypt_parallel`, and which calls of `pthread_create` succeed in it. -/
structure Call where
  threads : Nat
  cipher : Nat
  plain : Nat
  len : Nat
  ks : RoundKeys
  iv : Block
  creates : Nat → Bool

inductive Main where
  | creating (i nextBlock : Nat)
  | joining (i : Nat)
  | returned (ret : Int)
deriving DecidableEq

inductive Worker where
  | notStarted
  | entered
  | atBlock (b : Nat)
  | finished
  | joined
deriving DecidableEq

inductive Actor where
  | main
  | worker (i : Nat)
deriving DecidableEq

/-- `written` is the history of the blocks, each with the worker that decrypted it. -/
structure State where
  mem : Memory Byte
  main : Main
  args : Nat → DecryptArg
  workers : Nat → Worker
  written : List (Nat × Nat)

def decryptBlock (arg : DecryptArg) (b : Nat) (mem : Memory Byte) : Memory Byte :=
  let cur := arg.cipher + b * 16
  let prev := if b = 0 then arg.iv else read 16 mem (cur - 16)
  let block := sm4DecryptBlock (read 16 mem cur) arg.ks
  write mem (arg.plain + b * 16) (sm4XorBlock block prev)

section Steps

variable (c : Call) (s : State)

def stepWorker (i : Nat) : Option State :=
  match s.workers i with
  | .entered =>
    some { s with workers := Function.update s.workers i (.atBlock (s.args i).startBlock) }
  | .atBlock b =>
    if b < (s.args i).endBlock then
      some { s with
        mem := decryptBlock (s.args i) b s.mem
        workers := Function.update s.workers i (.atBlock (b + 1))
        written := (i, b) :: s.written }
    else some { s with workers := Function.update s.workers i .finished }
  | .notStarted | .finished | .joined => none

def nextArg (i nextBlock : Nat) : DecryptArg :=
  let left := c.len / 16 - nextBlock
  let take := left / (c.threads - i)
  { ks := c.ks, cipher := c.cipher, plain := c.plain, iv := c.iv, startBlock := nextBlock
    endBlock := nextBlock + take }

def stepMain : Option State :=
  match s.main with
  | .creating i nextBlock =>
    if i < c.threads then
      let arg := nextArg c i nextBlock
      let args := Function.update s.args i arg
      if c.creates i then
        some { s with
          main := .creating (i + 1) arg.endBlock
          args := args
          workers := Function.update s.workers i .entered }
      else some { s with main := .returned 0, args := args }
    else some { s with main := .joining 0 }
  | .joining i =>
    if i < c.threads then
      -- `pthread_join` waits for the worker
      if s.workers i = .finished then
        some { s with main := .joining (i + 1), workers := Function.update s.workers i .joined }
      else none
    else some { s with main := .returned 1 }
  | .returned _ => none

def step : Actor → Option State
  | .main => stepMain c s
  | .worker i => stepWorker s i

/-- The frame of a call: the records hold whatever the stack holds. -/
def start (args : Nat → DecryptArg) (mem : Memory Byte) : State where
  mem := mem
  main := if c.len % 16 ≠ 0 then .returned 0 else .creating 0 0
  args := args
  workers _ := .notStarted
  written := []

inductive Moves : Actor → State → Prop where
  | create {i b : Nat} (here : s.main = .creating i b) (more : i < c.threads)
      (created : c.creates i = true) :
      Moves .main { s with
        main := .creating (i + 1) (nextArg c i b).endBlock
        args := Function.update s.args i (nextArg c i b)
        workers := Function.update s.workers i .entered }
  | fail {i b : Nat} (here : s.main = .creating i b) (more : i < c.threads)
      (failed : c.creates i = false) :
      Moves .main { s with main := .returned 0, args := Function.update s.args i (nextArg c i b) }
  | created {i b : Nat} (here : s.main = .creating i b) (all : c.threads ≤ i) :
      Moves .main { s with main := .joining 0 }
  | join {i : Nat} (here : s.main = .joining i) (more : i < c.threads)
      (finished : s.workers i = .finished) :
      Moves .main
        { s with main := .joining (i + 1), workers := Function.update s.workers i .joined }
  | done {i : Nat} (here : s.main = .joining i) (all : c.threads ≤ i) :
      Moves .main { s with main := .returned 1 }
  | enter {i : Nat} (here : s.workers i = .entered) :
      Moves (.worker i)
        { s with workers := Function.update s.workers i (.atBlock (s.args i).startBlock) }
  | block {i b : Nat} (here : s.workers i = .atBlock b) (more : b < (s.args i).endBlock) :
      Moves (.worker i) { s with
        mem := decryptBlock (s.args i) b s.mem
        workers := Function.update s.workers i (.atBlock (b + 1))
        written := (i, b) :: s.written }
  | finish {i b : Nat} (here : s.workers i = .atBlock b) (all : (s.args i).endBlock ≤ b) :
      Moves (.worker i) { s with workers := Function.update s.workers i .finished }

variable {c s} {s' : State}

theorem stepMain_moves (h : stepMain c s = some s') : Moves c s .main s' := by
  unfold stepMain at h
  split at h
  case h_1 i b here =>
    split at h
    case isTrue more =>
      dsimp only at h
      split at h
      case isTrue created =>
        cases h
        exact .create here more created
      case isFalse failed =>
        cases h
        exact .fail here more (Bool.eq_false_iff.mpr failed)
    case isFalse all =>
      cases h
      exact .created here (Nat.le_of_not_lt all)
  case h_2 i here =>
    split at h
    case isTrue more =>
      split at h
      case isTrue finished =>
        cases h
        exact .join here more finished
      case isFalse => cases h
    case isFalse all =>
      cases h
      exact .done here (Nat.le_of_not_lt all)
  case h_3 => cases h

theorem stepWorker_moves {i : Nat} (h : stepWorker s i = some s') : Moves c s (.worker i) s' := by
  unfold stepWorker at h
  split at h
  case h_1 here =>
    cases h
    exact .enter here
  case h_2 b here =>
    split at h
    case isTrue more =>
      cases h
      exact .block here more
    case isFalse all =>
      cases h
      exact .finish here (Nat.le_of_not_lt all)
  case h_3 => cases h
  case h_4 => cases h
  case h_5 => cases h

theorem step_moves {a : Actor} (h : step c s a = some s') : Moves c s a s' := by
  cases a with
  | main => exact stepMain_moves h
  | worker i => exact stepWorker_moves h

end Steps

/-! ## The ranges -/

section Ranges

variable (c : Call)

def firstBlock : Nat → Nat
  | 0 => 0
  | i + 1 => firstBlock i + (c.len / 16 - firstBlock i) / (c.threads - i)

def argOf (i : Nat) : DecryptArg := nextArg c i (firstBlock c i)

theorem argOf_endBlock (i : Nat) : (argOf c i).endBlock = firstBlock c (i + 1) := rfl

theorem firstBlock_le (i : Nat) : firstBlock c i ≤ c.len / 16 := by
  induction i with
  | zero => exact Nat.zero_le _
  | succ i ih =>
    have take := Nat.div_le_self (c.len / 16 - firstBlock c i) (c.threads - i)
    rw [firstBlock]
    omega

theorem firstBlock_mono {i j : Nat} (le : i ≤ j) : firstBlock c i ≤ firstBlock c j := by
  induction le with
  | refl => exact Nat.le_refl _
  | step _ ih => exact Nat.le_trans ih (Nat.le_add_right ..)

theorem firstBlock_threads (someThread : 1 ≤ c.threads) : firstBlock c c.threads = c.len / 16 := by
  obtain ⟨last, eq⟩ : ∃ last, c.threads = last + 1 := ⟨c.threads - 1, by omega⟩
  have le := firstBlock_le c last
  rw [eq, firstBlock, eq, Nat.add_sub_cancel_left, Nat.div_one]
  omega

theorem exists_range {n b : Nat} (below : b < firstBlock c n) :
    ∃ i < n, firstBlock c i ≤ b ∧ b < firstBlock c (i + 1) := by
  induction n with
  | zero => exact absurd below (Nat.not_lt_zero b)
  | succ n ih =>
    rcases Nat.lt_or_ge b (firstBlock c n) with earlier | here
    · obtain ⟨i, hi, range⟩ := ih earlier
      exact ⟨i, Nat.lt_succ_of_lt hi, range⟩
    · exact ⟨n, Nat.lt_succ_self n, here, below⟩

variable {c} in
theorem range_unique {i j b : Nat} (low : firstBlock c i ≤ b) (high : b < firstBlock c (i + 1))
    (low' : firstBlock c j ≤ b) (high' : b < firstBlock c (j + 1)) : i = j := by
  rcases Nat.lt_trichotomy i j with lt | eq | gt
  · have le : firstBlock c (i + 1) ≤ firstBlock c j := firstBlock_mono c lt
    omega
  · exact eq
  · have le : firstBlock c (j + 1) ≤ firstBlock c i := firstBlock_mono c gt
    omega

end Ranges

/-! ## What every run preserves when all workers can be created -/

section Invariant

variable (c : Call) (mem : Memory Byte)

def Main.launched : Main → Nat
  | .creating i _ => i
  | .joining _ | .returned _ => c.threads

def Main.reaped : Main → Nat
  | .creating _ _ => 0
  | .joining i => i
  | .returned _ => c.threads

def Main.Fits : Main → Prop
  | .creating i b => i ≤ c.threads ∧ b = firstBlock c i
  | .joining i => i ≤ c.threads
  | .returned ret => ret = 1

def Worker.Fits (main : Main) (i : Nat) : Worker → Prop
  | .notStarted => main.launched c ≤ i
  | .entered | .finished => main.reaped c ≤ i ∧ i < main.launched c
  | .atBlock b => (main.reaped c ≤ i ∧ i < main.launched c) ∧ firstBlock c i ≤ b ∧
      b ≤ firstBlock c (i + 1)
  | .joined => i < main.reaped c

def Worker.position (i : Nat) : Worker → Nat
  | .notStarted | .entered => firstBlock c i
  | .atBlock b => b
  | .finished | .joined => firstBlock c (i + 1)

/-- The workers are started with their ranges and joined, as far as the caller has come. -/
structure Dealt (s : State) : Prop where
  main : s.main.Fits c
  workers : ∀ i, (s.workers i).Fits c s.main i
  args : ∀ i < s.main.launched c, s.args i = argOf c i

/-- Moreover the history has the blocks before each worker's next one, and they are decrypted. -/
structure Sound (s : State) : Prop extends Dealt c s where
  written : ∀ i b, (i, b) ∈ s.written ↔ firstBlock c i ≤ b ∧ b < (s.workers i).position c i
  once : s.written.Nodup
  plain : Scattered sm4XorBlock (sm4DecryptBlock · c.ks) c.cipher c.plain c.iv mem (c.len / 16)
    (fun b => ∃ i, (i, b) ∈ s.written) s.mem

variable {c mem} {s s' : State} {i b : Nat}

theorem Main.Fits.launched_le {main : Main} (h : main.Fits c) : main.launched c ≤ c.threads := by
  cases main with
  | creating i b => exact h.1
  | joining i => exact Nat.le_refl _
  | returned ret => exact Nat.le_refl _

theorem start_main (whole : c.len % 16 = 0) (args : Nat → DecryptArg) :
    (start c args mem).main = .creating 0 0 := by
  rw [start, whole]
  rfl

theorem start_dealt (whole : c.len % 16 = 0) (args : Nat → DecryptArg) :
    Dealt c (start c args mem) := by
  constructor
  case main =>
    rw [start_main whole]
    exact ⟨Nat.zero_le _, rfl⟩
  case workers =>
    rw [start_main whole]
    exact fun i => Nat.zero_le i
  case args =>
    rw [start_main whole]
    exact fun i hi => absurd hi (Nat.not_lt_zero i)

theorem start_sound (whole : c.len % 16 = 0) (args : Nat → DecryptArg) :
    Sound c mem (start c args mem) where
  toDealt := start_dealt whole args
  written i b := by
    refine ⟨fun mem => absurd mem List.not_mem_nil, fun range => ?_⟩
    exact absurd range.2 (Nat.not_lt.mpr range.1)
  once := List.nodup_nil
  plain := by
    refine Scattered.refl fun b _ => ?_
    rintro ⟨i, mem⟩
    exact absurd mem List.not_mem_nil

theorem Sound.written_update (inv : Sound c mem s) {w : Worker}
    (same : w.position c i = (s.workers i).position c i) (j b : Nat) :
    (j, b) ∈ s.written ↔
      firstBlock c j ≤ b ∧ b < (Function.update s.workers i w j).position c j := by
  by_cases own : j = i
  · subst own
    rw [Function.update_self, same]
    exact inv.written j b
  · rw [Function.update_of_ne own]
    exact inv.written j b

theorem Worker.Fits.congr {w : Worker} {main main' : Main} (h : w.Fits c main i)
    (launched : i < main'.launched c ↔ i < main.launched c)
    (reaped : i < main'.reaped c ↔ i < main.reaped c) :
    w.Fits c main' i := by
  cases w with
  | notStarted => exact Nat.le_of_not_lt fun lt => Nat.not_lt.mpr h (launched.mp lt)
  | entered =>
    exact ⟨Nat.le_of_not_lt fun lt => Nat.not_lt.mpr h.1 (reaped.mp lt), launched.mpr h.2⟩
  | atBlock b =>
    exact ⟨⟨Nat.le_of_not_lt fun lt => Nat.not_lt.mpr h.1.1 (reaped.mp lt), launched.mpr h.1.2⟩,
      h.2⟩
  | finished =>
    exact ⟨Nat.le_of_not_lt fun lt => Nat.not_lt.mpr h.1 (reaped.mp lt), launched.mpr h.2⟩
  | joined => exact reaped.mpr h

theorem workers_update {main : Main} {w : Worker} (own : w.Fits c main i)
    (others : ∀ j, j ≠ i → (s.workers j).Fits c main j) (j : Nat) :
    (Function.update s.workers i w j).Fits c main j := by
  by_cases same : j = i
  · subst same
    rwa [Function.update_self]
  · rw [Function.update_of_ne same]
    exact others j same

theorem decryptBlock_eq (arg : DecryptArg) (b : Nat) (mem : Memory Byte) :
    decryptBlock arg b mem =
      decryptBlockAt sm4XorBlock (sm4DecryptBlock · arg.ks) arg.cipher arg.plain arg.iv b mem := by
  unfold decryptBlock decryptBlockAt
  dsimp only
  rw [Nat.mul_comm b 16]
  cases b with
  | zero => rfl
  | succ b =>
    have place : arg.cipher + 16 * (b + 1) - 16 = arg.cipher + 16 * b := by omega
    rw [if_neg (Nat.succ_ne_zero b), previous, place]

theorem Main.Fits.reaped_le {main : Main} (h : main.Fits c) : main.reaped c ≤ main.launched c := by
  cases main with
  | creating i b => exact Nat.zero_le i
  | joining i => exact h
  | returned ret => exact Nat.le_refl _

theorem Worker.Fits.notStarted {w : Worker} {main : Main} (h : w.Fits c main i)
    (le : main.reaped c ≤ main.launched c) (later : main.launched c ≤ i) : w = .notStarted := by
  cases w with
  | notStarted => rfl
  | entered => exact absurd h.2 (Nat.not_lt.mpr later)
  | atBlock b => exact absurd h.1.2 (Nat.not_lt.mpr later)
  | finished => exact absurd h.2 (Nat.not_lt.mpr later)
  | joined => exact absurd h (Nat.not_lt.mpr (Nat.le_trans le later))

theorem Worker.Fits.joined {w : Worker} {main : Main} (h : w.Fits c main i)
    (le : main.reaped c ≤ main.launched c) (earlier : i < main.reaped c) : w = .joined := by
  cases w with
  | notStarted => exact absurd (Nat.lt_of_lt_of_le earlier le) (Nat.not_lt.mpr h)
  | entered => exact absurd earlier (Nat.not_lt.mpr h.1)
  | atBlock b => exact absurd earlier (Nat.not_lt.mpr h.1.1)
  | finished => exact absurd earlier (Nat.not_lt.mpr h.1)
  | joined => rfl

theorem Dealt.main_at (inv : Dealt c s) {main : Main} (here : s.main = main) : main.Fits c :=
  here ▸ inv.main

theorem Dealt.fits_at (inv : Dealt c s) {w : Worker} (here : s.workers i = w) : w.Fits c s.main i :=
  here ▸ inv.workers i

theorem Dealt.workers_at (inv : Dealt c s) {main : Main} (here : s.main = main) (j : Nat) :
    (s.workers j).Fits c main j := here ▸ inv.workers j

theorem Dealt.args_at (inv : Dealt c s) {main : Main} (here : s.main = main) (j : Nat)
    (hj : j < main.launched c) :
    s.args j = argOf c j := inv.args j (here ▸ hj)

theorem Dealt.not_started (inv : Dealt c s) (here : s.main = .creating i b) :
    s.workers i = .notStarted :=
  (inv.workers_at here i).notStarted (inv.main_at here).reaped_le (Nat.le_refl i)

theorem step_dealt (creates : ∀ i < c.threads, c.creates i = true) {a : Actor} (inv : Dealt c s)
    (h : step c s a = some s') : Dealt c s' := by
  cases step_moves h with
  | @create i b here more created =>
    obtain ⟨-, rfl⟩ := inv.main_at here
    refine ⟨⟨more, rfl⟩, workers_update ⟨Nat.zero_le i, Nat.lt_succ_self i⟩ fun j ne => ?_,
      fun j hj => ?_⟩
    · refine (inv.workers_at here j).congr ?_ Iff.rfl
      dsimp only [Main.launched]
      omega
    · dsimp only
      by_cases same : j = i
      · rw [same, Function.update_self, argOf]
      · rw [Function.update_of_ne same]
        exact inv.args_at here j (Nat.lt_of_le_of_ne (Nat.le_of_lt_succ hj) same)
  | fail here more failed =>
    rw [creates _ more] at failed
    cases failed
  | @created i b here all =>
    obtain rfl : i = c.threads := Nat.le_antisymm (inv.main_at here).1 all
    exact ⟨Nat.zero_le _, fun j => (inv.workers_at here j).congr Iff.rfl Iff.rfl,
      fun j hj => inv.args_at here j hj⟩
  | @join i here more finished =>
    refine ⟨more, workers_update (Nat.lt_succ_self i) fun j ne => ?_,
      fun j hj => inv.args_at here j hj⟩
    refine (inv.workers_at here j).congr Iff.rfl ?_
    dsimp only [Main.reaped]
    omega
  | @done i here all =>
    obtain rfl : i = c.threads := Nat.le_antisymm (inv.main_at here) all
    exact ⟨rfl, fun j => (inv.workers_at here j).congr Iff.rfl Iff.rfl,
      fun j hj => inv.args_at here j hj⟩
  | @enter i here =>
    have fits := inv.fits_at here
    refine ⟨inv.main, workers_update ?_ fun j _ => inv.workers j, inv.args⟩
    rw [inv.args i fits.2]
    exact ⟨fits, Nat.le_refl _, firstBlock_mono c (Nat.le_succ i)⟩
  | @block i b here more =>
    have fits := inv.fits_at here
    rw [inv.args i fits.1.2, argOf_endBlock] at more
    exact ⟨inv.main, workers_update ⟨fits.1, Nat.le_succ_of_le fits.2.1, more⟩
      fun j _ => inv.workers j, inv.args⟩
  | finish here all =>
    exact ⟨inv.main, workers_update (inv.fits_at here).1 fun j _ => inv.workers j, inv.args⟩

theorem Sound.block
    (apart : c.cipher + 16 * (c.len / 16) ≤ c.plain ∨ c.plain + 16 * (c.len / 16) ≤ c.cipher)
    (inv : Sound c mem s) (here : s.workers i = .atBlock b) (more : b < firstBlock c (i + 1)) :
    (∀ j b', (j, b') ∈ (i, b) :: s.written ↔
        firstBlock c j ≤ b' ∧
          b' < (Function.update s.workers i (.atBlock (b + 1)) j).position c j) ∧
      ((i, b) :: s.written).Nodup ∧
      Scattered sm4XorBlock (sm4DecryptBlock · c.ks) c.cipher c.plain c.iv mem (c.len / 16)
        (fun b' => ∃ j, (j, b') ∈ (i, b) :: s.written) (decryptBlock (argOf c i) b s.mem) := by
  have low := (inv.fits_at here).2.1
  have fresh : (i, b) ∉ s.written := fun mem => by
    have range := (inv.written i b).mp mem
    rw [here] at range
    exact Nat.lt_irrefl b range.2
  refine ⟨fun j b' => ?_, List.nodup_cons.mpr ⟨fresh, inv.once⟩, ?_⟩
  · rw [List.mem_cons, inv.written j b', Prod.mk.injEq]
    by_cases same : j = i
    · subst same
      rw [Function.update_self, here]
      dsimp only [Worker.position]
      omega
    · rw [Function.update_of_ne same]
      exact or_iff_right fun eq => same eq.1
  · rw [decryptBlock_eq]
    refine inv.plain.step apart (Nat.lt_of_lt_of_le more (firstBlock_le c _)) fun b' _ => ?_
    rintro ⟨j, mem⟩
    rcases List.mem_cons.mp mem with eq | earlier
    · exact Or.inr (Prod.mk.inj eq).2
    · exact Or.inl ⟨j, earlier⟩

theorem step_sound
    (apart : c.cipher + 16 * (c.len / 16) ≤ c.plain ∨ c.plain + 16 * (c.len / 16) ≤ c.cipher)
    (creates : ∀ i < c.threads, c.creates i = true) {a : Actor} (inv : Sound c mem s)
    (h : step c s a = some s') : Sound c mem s' := by
  have dealt := step_dealt creates inv.toDealt h
  cases step_moves h with
  | create here more created =>
    exact ⟨dealt, inv.written_update (by rw [inv.not_started here]; rfl), inv.once, inv.plain⟩
  | fail here more failed => exact ⟨dealt, inv.written, inv.once, inv.plain⟩
  | created here all => exact ⟨dealt, inv.written, inv.once, inv.plain⟩
  | join here more finished =>
    exact ⟨dealt, inv.written_update (by rw [finished]; rfl), inv.once, inv.plain⟩
  | done here all => exact ⟨dealt, inv.written, inv.once, inv.plain⟩
  | enter here =>
    have arg := inv.args _ (inv.fits_at here).2
    exact ⟨dealt, inv.written_update (by rw [here, arg]; rfl), inv.once, inv.plain⟩
  | @block i b here more =>
    have arg := inv.args i (inv.fits_at here).1.2
    rw [arg, argOf_endBlock] at more
    obtain ⟨written, once, plain⟩ := inv.block apart here more
    exact ⟨dealt, written, once, by rwa [arg]⟩
  | @finish i b here all =>
    have fits := inv.fits_at here
    rw [inv.args i fits.1.2, argOf_endBlock] at all
    have last : b = firstBlock c (i + 1) := Nat.le_antisymm fits.2.2 all
    exact ⟨dealt, inv.written_update (by rw [here, last]; rfl), inv.once, inv.plain⟩

/-! ## The end of a run -/

theorem Dealt.joined (inv : Dealt c s) {ret : Int} (here : s.main = .returned ret)
    (hi : i < c.threads) :
    s.workers i = .joined :=
  (inv.workers_at here i).joined (inv.main_at here).reaped_le hi

theorem Dealt.never_started (inv : Dealt c s) (hi : c.threads ≤ i) : s.workers i = .notStarted :=
  (inv.workers i).notStarted inv.main.reaped_le (Nat.le_trans inv.main.launched_le hi)

/-- Every block was given to one worker and decrypted once, by that worker, and the plaintext is the
sequential one. -/
structure Complete (c : Call) (mem : Memory Byte) (s : State) : Prop where
  assigned : ∀ b < c.len / 16, ∃! i, i < c.threads ∧ (s.args i).startBlock ≤ b ∧
    b < (s.args i).endBlock
  decrypted : ∀ i b, (i, b) ∈ s.written ↔
    i < c.threads ∧ (s.args i).startBlock ≤ b ∧ b < (s.args i).endBlock
  once : s.written.Nodup
  plain : s.mem = (sm4CbcDecrypt mem c.cipher c.plain c.len c.ks c.iv).mem

theorem Sound.complete (someThread : 1 ≤ c.threads) (whole : c.len % 16 = 0)
    (apart : c.cipher + 16 * (c.len / 16) ≤ c.plain ∨ c.plain + 16 * (c.len / 16) ≤ c.cipher)
    (inv : Sound c mem s) {ret : Int} (here : s.main = .returned ret) : Complete c mem s := by
  have args := inv.args_at here
  have decrypted (i b : Nat) : (i, b) ∈ s.written ↔
      i < c.threads ∧ (s.args i).startBlock ≤ b ∧ b < (s.args i).endBlock := by
    rw [inv.written i b]
    rcases Nat.lt_or_ge i c.threads with hi | hi
    · rw [inv.joined here hi, args i hi, and_iff_right hi]
      rfl
    · rw [inv.never_started hi]
      dsimp only [Worker.position]
      omega
  have assigned (b : Nat) (hb : b < c.len / 16) :
      ∃! i, i < c.threads ∧ (s.args i).startBlock ≤ b ∧ b < (s.args i).endBlock := by
    rw [← firstBlock_threads c someThread] at hb
    obtain ⟨i, hi, low, high⟩ := exists_range c hb
    refine ⟨i, ⟨hi, by rwa [args i hi], by rwa [args i hi]⟩, ?_⟩
    rintro j ⟨hj, low', high'⟩
    rw [args j hj] at low' high'
    exact range_unique low' high' low high
  refine ⟨assigned, decrypted, inv.once, ?_⟩
  have done := inv.plain.eq_decryptLoop (by decide) apart fun b hb => by
    obtain ⟨i, range, -⟩ := assigned b hb
    exact ⟨i, (decrypted i b).mpr range⟩
  have len : 16 * (c.len / 16) = c.len := Nat.mul_div_cancel' (Nat.dvd_of_mod_eq_zero whole)
  rw [done, len, sm4CbcDecrypt, if_neg (by omega)]
  rfl

theorem Sound.disjoint (inv : Sound c mem s) {i j b b' : Nat} (mem : (i, b) ∈ s.written)
    (mem' : (j, b') ∈ s.written) (ne : i ≠ j) :
    c.plain + b * 16 + 16 ≤ c.plain + b' * 16 ∨ c.plain + b' * 16 + 16 ≤ c.plain + b * 16 := by
  have differ : b ≠ b' := by
    rintro rfl
    have range (k : Nat) (mem : (k, b) ∈ s.written) :
      firstBlock c k ≤ b ∧ b < firstBlock c (k + 1) := by
      have inside := (inv.written k b).mp mem
      have fits := inv.workers k
      have step := firstBlock_mono c (Nat.le_succ k)
      refine ⟨inside.1, Nat.lt_of_lt_of_le inside.2 ?_⟩
      cases state : s.workers k with
      | notStarted => exact step
      | entered => exact step
      | atBlock b =>
        rw [state] at fits
        exact fits.2.2
      | finished => exact Nat.le_refl _
      | joined => exact Nat.le_refl _
    exact ne (range_unique (range i mem).1 (range i mem).2 (range j mem').1 (range j mem').2)
  omega

/-! ## Every run comes to an end -/

def Main.cost (c : Call) : Main → Nat
  | .creating i _ => 2 * c.threads + 2 - i
  | .joining i => c.threads + 1 - i
  | .returned _ => 0

def Worker.cost (c : Call) : Worker → Nat
  | .notStarted => c.len / 16 + 3
  | .entered => c.len / 16 + 2
  | .atBlock b => c.len / 16 - b + 1
  | .finished | .joined => 0

def State.cost (c : Call) (s : State) : Nat :=
  s.main.cost c + total (fun _ w => w.cost c) s.workers c.threads

theorem cost_update {w : Worker} {main : Main} (hi : i < c.threads)
    (less : main.cost c + w.cost c < s.main.cost c + (s.workers i).cost c) :
    main.cost c + total (fun _ w => w.cost c) (Function.update s.workers i w) c.threads <
      s.cost c := by
  have moved := total_update (fun _ w => Worker.cost c w) s.workers hi w
  unfold State.cost
  omega

theorem step_cost (creates : ∀ i < c.threads, c.creates i = true) {a : Actor} (inv : Dealt c s)
    (h : step c s a = some s') : s'.cost c < s.cost c := by
  have launched := inv.main.launched_le
  cases step_moves h with
  | create here more created =>
    refine cost_update more ?_
    rw [here, inv.not_started here]
    dsimp only [Main.cost, Worker.cost]
    omega
  | fail here more failed =>
    rw [creates _ more] at failed
    cases failed
  | created here all =>
    have le := (inv.main_at here).1
    refine Nat.add_lt_add_right ?_ _
    rw [here]
    dsimp only [Main.cost]
    omega
  | join here more finished =>
    refine cost_update more ?_
    rw [here, finished]
    dsimp only [Main.cost, Worker.cost]
    omega
  | @done i here all =>
    have le : i ≤ c.threads := inv.main_at here
    refine Nat.add_lt_add_right ?_ _
    rw [here]
    dsimp only [Main.cost]
    omega
  | enter here =>
    refine cost_update (Nat.lt_of_lt_of_le (inv.fits_at here).2 launched) ?_
    rw [here]
    dsimp only [Worker.cost]
    omega
  | @block i b here more =>
    have fits := inv.fits_at here
    rw [inv.args i fits.1.2, argOf_endBlock] at more
    have last := firstBlock_le c (i + 1)
    refine cost_update (Nat.lt_of_lt_of_le fits.1.2 launched) ?_
    rw [here]
    dsimp only [Worker.cost]
    omega
  | finish here all =>
    refine cost_update (Nat.lt_of_lt_of_le (inv.fits_at here).1.2 launched) ?_
    rw [here]
    dsimp only [Worker.cost]
    omega

theorem start_cost (c : Call) (args : Nat → DecryptArg) (mem : Memory Byte) :
    (start c args mem).cost c ≤ 2 * c.threads + 2 + c.threads * (c.len / 16 + 3) := by
  unfold State.cost
  refine Nat.add_le_add ?_ (Nat.le_of_eq (total_const _ _ fun _ _ => rfl))
  rw [start]
  dsimp only
  split
  case isTrue => exact Nat.zero_le _
  case isFalse => exact Nat.le_refl _

theorem exists_step (inv : Dealt c s) (more : ∀ ret, s.main ≠ .returned ret) :
    ∃ a s', step c s a = some s' := by
  cases here : s.main with
  | creating i b =>
    refine ⟨.main, ?_⟩
    rw [step, stepMain, here]
    dsimp only
    split
    case isTrue =>
      split
      case isTrue => exact ⟨_, rfl⟩
      case isFalse => exact ⟨_, rfl⟩
    case isFalse => exact ⟨_, rfl⟩
  | returned ret => exact absurd here (more ret)
  | joining i =>
    have fits := inv.workers_at here i
    by_cases last : i < c.threads
    · cases state : s.workers i with
      | notStarted =>
        rw [state] at fits
        exact absurd last (Nat.not_lt.mpr fits)
      | joined =>
        rw [state] at fits
        exact absurd fits (Nat.lt_irrefl i)
      | entered => exact ⟨.worker i, _, by rw [step, stepWorker, state]⟩
      | atBlock b =>
        refine ⟨.worker i, ?_⟩
        rw [step, stepWorker, state]
        dsimp only
        split
        case isTrue => exact ⟨_, rfl⟩
        case isFalse => exact ⟨_, rfl⟩
      | finished =>
        exact ⟨.main, _, by rw [step, stepMain, here]; exact (if_pos last).trans (if_pos state)⟩
    · exact ⟨.main, _, by rw [step, stepMain, here]; exact if_neg last⟩

end Invariant

/-- When every worker can be created, every run comes to its end, no two workers write the same
byte, and at the end every block has been decrypted once and the plaintext is the sequential one. -/
theorem cbcDecryptParallel_correct (c : Call) (args : Nat → DecryptArg) (mem : Memory Byte)
    (someThread : 1 ≤ c.threads) (whole : c.len % 16 = 0)
    (apart : c.cipher + c.len ≤ c.plain ∨ c.plain + c.len ≤ c.cipher)
    (creates : ∀ i < c.threads, c.creates i = true) :
    ∀ schedule s, run (step c) (start c args mem) schedule = some s →
      schedule.length ≤ 2 * c.threads + 2 + c.threads * (c.len / 16 + 3) ∧
        ((∀ ret, s.main ≠ .returned ret) → ∃ a s', step c s a = some s') ∧
        (∀ i b j b', (i, b) ∈ s.written → (j, b') ∈ s.written → i ≠ j →
          c.plain + b * 16 + 16 ≤ c.plain + b' * 16 ∨ c.plain + b' * 16 + 16 ≤ c.plain + b * 16) ∧
        ∀ ret, s.main = .returned ret → ret = 1 ∧ Complete c mem s := by
  intro schedule s h
  have len : 16 * (c.len / 16) = c.len := Nat.mul_div_cancel' (Nat.dvd_of_mod_eq_zero whole)
  rw [← len] at apart
  have preserved (s : State) (a : Actor) (s' : State) (inv : Sound c mem s)
    (h : step c s a = some s') :
      Sound c mem s' := step_sound apart creates inv h
  have first : Sound c mem (start c args mem) := start_sound whole args
  have inv := run_inv preserved first h
  have bound :=
    run_length_le preserved (fun s a s' inv h => step_cost creates inv.toDealt h) first h
  refine ⟨?_, exists_step inv.toDealt, fun i b j b' mem mem' => inv.disjoint mem mem',
    fun ret here => ?_⟩
  · have cost := start_cost c args mem
    omega
  · exact ⟨inv.main_at here, inv.complete someThread whole apart here⟩

def twoBlocks (creates : Nat → Bool) : Call where
  threads := 3
  cipher := 0
  plain := 32
  len := 32
  ks := Vector.replicate 32 0
  iv := Vector.replicate 16 0
  creates := creates

def twoBlocksStart (creates : Nat → Bool) : State :=
  start (twoBlocks creates) (fun _ => argOf (twoBlocks creates) 0) fun a => BitVec.ofNat 8 a

def thirdFirst : List Actor :=
  [.main, .main, .main, .worker 2, .worker 2, .main, .worker 2, .worker 0, .worker 1,
    .worker 0, .main,
    .worker 1, .worker 1, .main, .main, .main]

theorem cbcDecryptParallel_correct_two_blocks :
    ∃ s, run (step (twoBlocks fun _ => true)) (twoBlocksStart fun _ => true) thirdFirst = some s ∧
      s.main = .returned 1 ∧
      s.mem = (sm4CbcDecrypt (fun a => BitVec.ofNat 8 a) 0 32 32 (Vector.replicate 32 0)
        (Vector.replicate 16 0)).mem := by
  have correct := cbcDecryptParallel_correct (twoBlocks fun _ => true)
    (fun _ => argOf (twoBlocks fun _ => true) 0)
    (fun a => BitVec.ofNat 8 a) (by decide) (by decide) (by decide) (fun _ _ => rfl)
  exact ⟨_, rfl, rfl, ((correct thirdFirst _ rfl).2.2.2 1 rfl).2.plain⟩

/-! ## Workers that cannot be created -/

section Failure

variable {c : Call} {s s' : State}

structure Unstarted (c : Call) (s : State) : Prop where
  workers : ∀ i, s.workers i = .notStarted
  creating : ∀ i b, s.main = .creating i b → i = 0 ∧ c.creates 0 = false
  joining : ∀ i, s.main ≠ .joining i

theorem step_unstarted (someThread : 1 ≤ c.threads) {a : Actor} (inv : Unstarted c s)
    (h : step c s a = some s') : Unstarted c s' := by
  cases step_moves h with
  | create here more created =>
    obtain ⟨rfl, failed⟩ := inv.creating _ _ here
    rw [failed] at created
    cases created
  | fail here more failed =>
    refine ⟨inv.workers, fun i b here => ?_, fun i here => ?_⟩
    · cases here
    · cases here
  | created here all =>
    obtain ⟨rfl, -⟩ := inv.creating _ _ here
    omega
  | join here more finished => exact absurd here (inv.joining _)
  | done here all => exact absurd here (inv.joining _)
  | enter here =>
    rw [inv.workers] at here
    cases here
  | block here more =>
    rw [inv.workers] at here
    cases here
  | finish here all =>
    rw [inv.workers] at here
    cases here

theorem start_unstarted {args : Nat → DecryptArg} {mem : Memory Byte}
    (none : c.len % 16 ≠ 0 ∨ c.creates 0 = false) : Unstarted c (start c args mem) where
  workers _ := rfl
  creating i b here := by
    rw [start] at here
    dsimp only at here
    split at here
    case isTrue => cases here
    case isFalse whole =>
      cases here
      exact ⟨rfl, none.resolve_left whole⟩
  joining i here := by
    rw [start] at here
    dsimp only at here
    split at here <;> cases here

theorem run_creating (whole : c.len % 16 = 0) (args : Nat → DecryptArg)
    (mem : Memory Byte) {m : Nat} (le : m ≤ c.threads) (created : ∀ i < m, c.creates i = true) :
    ∃ s b, run (step c) (start c args mem) (List.replicate m .main) = some s ∧
      s.main = .creating m b ∧
      ∀ i < m, s.workers i = .entered := by
  induction m with
  | zero => exact ⟨_, 0, rfl, start_main whole args, fun i hi => absurd hi (Nat.not_lt_zero i)⟩
  | succ m ih =>
    obtain ⟨s, b, h, here, entered⟩ :=
      ih (Nat.le_of_succ_le le) fun i hi => created i (Nat.lt_succ_of_lt hi)
    have next : step c s .main = some { s with
        main := .creating (m + 1) (nextArg c m b).endBlock
        args := Function.update s.args m (nextArg c m b)
        workers := Function.update s.workers m .entered } := by
      rw [step, stepMain, here]
      exact (if_pos le).trans (if_pos (created m (Nat.lt_succ_self m)))
    rw [List.replicate_succ']
    refine ⟨_, _, run_snoc h next, rfl, fun i hi => ?_⟩
    dsimp only
    by_cases last : i = m
    · rw [last, Function.update_self]
    · rw [Function.update_of_ne last]
      exact entered i (by omega)

end Failure

/-- Every worker that was started has been joined, and none can take another step. -/
def AllJoined (c : Call) (s : State) : Prop :=
  ∀ i, (s.workers i = .notStarted ∨ s.workers i = .joined) ∧ step c s (.worker i) = none

theorem allJoined_of {c : Call} {s : State}
    (h : ∀ i, s.workers i = .notStarted ∨ s.workers i = .joined) :
    AllJoined c s := by
  intro i
  refine ⟨h i, ?_⟩
  rcases h i with idle | joined
  · rw [step, stepWorker, idle]
  · rw [step, stepWorker, joined]

/-- Whenever the call returns all workers are joined, exactly if it never gets as far as a first
worker or never fails to create one. -/
theorem cbcDecryptParallel_joins_iff (c : Call) (args : Nat → DecryptArg) (mem : Memory Byte)
    (someThread : 1 ≤ c.threads) :
    (∀ schedule s ret, run (step c) (start c args mem) schedule = some s → s.main = .returned ret →
        AllJoined c s) ↔
      c.len % 16 ≠ 0 ∨ c.creates 0 = false ∨ ∀ i < c.threads, c.creates i = true := by
  constructor
  · intro joins
    by_contra neither
    push Not at neither
    obtain ⟨whole, some_created, j, hj, some_failed⟩ := neither
    have failing : ∃ i, c.creates i = false := ⟨j, Bool.eq_false_iff.mpr some_failed⟩
    have le : Nat.find failing ≤ j := Nat.find_min' failing (Bool.eq_false_iff.mpr some_failed)
    have failed := Nat.find_spec failing
    have before (i : Nat) (hi : i < Nat.find failing) : c.creates i = true :=
      Bool.eq_true_of_not_eq_false (Nat.find_min failing hi)
    have pos : 0 < Nat.find failing := Nat.pos_of_ne_zero fun zero => some_created (zero ▸ failed)
    obtain ⟨s, b, h, here, entered⟩ := run_creating whole args mem (by omega) before
    have next : step c s .main = some { s with
        main := .returned 0
        args := Function.update s.args (Nat.find failing) (nextArg c (Nat.find failing) b) } := by
      rw [step, stepMain, here]
      exact (if_pos (by omega)).trans (if_neg (Bool.eq_false_iff.mp failed))
    have joined := (joins _ _ 0 (run_snoc h next) rfl 0).1
    dsimp only at joined
    rw [entered 0 pos] at joined
    rcases joined with idle | joined
    · cases idle
    · cases joined
  · intro condition schedule s ret h here
    by_cases none : c.len % 16 ≠ 0 ∨ c.creates 0 = false
    · have inv := run_inv (fun s a s' => step_unstarted someThread) (start_unstarted none) h
      exact allJoined_of fun i => Or.inl (inv.workers i)
    · rw [not_or, not_not] at none
      have creates := (condition.resolve_left (not_not.mpr none.1)).resolve_left none.2
      have inv := run_inv (fun s a s' => step_dealt creates) (start_dealt none.1 args) h
      refine allJoined_of fun i => ?_
      rcases Nat.lt_or_ge i c.threads with hi | hi
      · exact Or.inr (inv.joined here hi)
      · exact Or.inl (inv.never_started hi)

theorem cbcDecryptParallel_joins_all_created :
    ∃ s, run (step (twoBlocks fun _ => true)) (twoBlocksStart fun _ => true) thirdFirst = some s ∧
      AllJoined (twoBlocks fun _ => true) s := by
  have joins := (cbcDecryptParallel_joins_iff (twoBlocks fun _ => true)
    (fun _ => argOf (twoBlocks fun _ => true) 0) (fun a => BitVec.ofNat 8 a) (by decide)).mpr
    (Or.inr (Or.inr fun _ _ => rfl))
  exact ⟨_, rfl, joins thirdFirst _ 1 rfl rfl⟩

/-- The last of three workers cannot be created; the caller returns, and the second worker goes on
to decrypt a block. -/
theorem cbcDecryptParallel_leaves_worker :
    ∃ s s', run (step (twoBlocks fun i => i < 2)) (twoBlocksStart fun i => i < 2)
        [.main, .main, .main] = some s ∧
      s.main = .returned 0 ∧ s.workers 1 = .entered ∧
      run (step (twoBlocks fun i => i < 2)) s [.worker 1, .worker 1] = some s' ∧
        s'.written = [(1, 0)] :=
  ⟨_, _, rfl, rfl, rfl, rfl, rfl⟩

end SystemsLab.ParallelDecrypt
