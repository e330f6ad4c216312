import SystemsLab.General.StepRuns
import SystemsLab.Sm4.PortableCbc

/-! The decryption threads of the openHiTLS demo (`sm4cbc_origin.c`). They meet at a barrier, the
first one takes the start time, each decrypts every `totalThreads`-th block with a cipher context
of its own, and who finds the counter of finished threads full takes the end time. The
cipher functions are parameters; a block is one step, and so is every access to what the
threads share. -/

namespace SystemsLab.ThreadDecrypt
open ByteWord Textbook Sm4Portable Sm4PortableCbc Buffer CipherChaining StepRuns

/-- `ThreadDecryptData`, except for the index of the thread. -/
structure ThreadDecryptData where
  cipherText : Nat
  cipherLen : Nat
  plainText : Nat
  key : Block
  iv : Block
  totalThreads : Nat

/-- The calls of `CRYPT_EAL` as the threads make them: the context of a thread, whether an
initialization for decryption succeeds, and the block that an update puts out, if any. -/
structure Eal (Ctx : Type*) where
  cipherNewCtx : Nat → Option Ctx
  cipherSetPadding : Ctx → Ctx
  cipherInit : Ctx → Block → Block → Ctx × Bool
  cipherUpdate : Ctx → Block → Ctx × Option Block

inductive Phase (Ctx : Type*) where
  | atBarrier
  | waiting
  | released
  | newCtx
  | atBlock (i : Nat) (ctx : Ctx)
  | counting
  | testing
  | recording
  | exited

structure BlockStep where
  thread : Nat
  block : Nat
  time : Nat
  decrypted : Bool

/-- `now` is the clock; `work` is the history of the blocks. -/
structure State (Ctx : Type*) where
  mem : Memory Byte
  threads : Nat → Phase Ctx
  arrived : Nat
  decryptStart : Option Nat
  decryptEnd : Option Nat
  threadsCompleted : Nat
  now : Nat
  work : List BlockStep

variable {Ctx : Type*}

def State.goto (s : State Ctx) (t : Nat) (phase : Phase Ctx) : State Ctx :=
  { s with threads := Function.update s.threads t phase, now := s.now + 1 }

section Steps

variable (eal : Eal Ctx) (data : ThreadDecryptData)

/-- The body of the loop, in `uint32_t`: the context, whether the block was decrypted, and the
memory. -/
def decryptBlock (i : Nat) (ctx : Ctx) (mem : Memory Byte) : Ctx × Bool × Memory Byte :=
  let localIV := if i = 0 then data.iv else read 16 mem (data.cipherText + (i - 1) * 16 % 2 ^ 32)
  let (ctx, ok) := eal.cipherInit ctx data.key localIV
  if ok then
    let (ctx, out) := eal.cipherUpdate ctx (read 16 mem (data.cipherText + i * 16 % 2 ^ 32))
    match out with
    | some block => (ctx, true, write mem (data.plainText + i * 16 % 2 ^ 32) block)
    | none => (ctx, false, mem)
  else (ctx, false, mem)

/-- One step of thread `t`; `none` while it waits at the barrier, and after its exit. -/
def step (s : State Ctx) (t : Nat) : Option (State Ctx) :=
  match s.threads t with
  | .atBarrier => some ({ s with arrived := s.arrived + 1 }.goto t .waiting)
  | .waiting => if s.arrived = data.totalThreads then some (s.goto t .released) else none
  | .released =>
    some ({ s with decryptStart := if t = 0 then some s.now else s.decryptStart }.goto t .newCtx)
  | .newCtx =>
    match eal.cipherNewCtx t with
    | none => some (s.goto t .exited)
    | some ctx => some (s.goto t (.atBlock t (eal.cipherSetPadding ctx)))
  | .atBlock i ctx =>
    if i < data.cipherLen / 16 then
      let (ctx, decrypted, mem) := decryptBlock eal data i ctx s.mem
      some ({ s with
        mem := mem
        work := ⟨t, i, s.now, decrypted⟩ :: s.work }.goto t
        (.atBlock ((i + data.totalThreads) % 2 ^ 32) ctx))
    else some (s.goto t .counting)
  | .counting => some ({ s with threadsCompleted := s.threadsCompleted + 1 }.goto t .testing)
  | .testing =>
    some (s.goto t (if s.threadsCompleted = data.totalThreads then .recording else .exited))
  | .recording => some ({ s with decryptEnd := some s.now }.goto t .exited)
  | .exited => none

def start (mem : Memory Byte) : State Ctx where
  mem := mem
  threads t := if t < data.totalThreads then .atBarrier else .exited
  arrived := 0
  decryptStart := none
  decryptEnd := none
  threadsCompleted := 0
  now := 0
  work := []

def Finished (s : State Ctx) : Prop := ∀ t < data.totalThreads, s.threads t = .exited

inductive Moves (s : State Ctx) (t : Nat) : State Ctx → Prop where
  | arrive (here : s.threads t = .atBarrier) : Moves s t
      ({ s with arrived := s.arrived + 1 }.goto t .waiting)
  | release (here : s.threads t = .waiting) (all : s.arrived = data.totalThreads) :
      Moves s t (s.goto t .released)
  | pass (here : s.threads t = .released) :
      Moves s t ({ s with decryptStart := if t = 0 then some s.now else s.decryptStart }.goto t
        .newCtx)
  | noContext (here : s.threads t = .newCtx) (none : eal.cipherNewCtx t = none) : Moves s t
      (s.goto t .exited)
  | context {ctx : Ctx} (here : s.threads t = .newCtx) (some : eal.cipherNewCtx t = some ctx) :
      Moves s t (s.goto t (.atBlock t (eal.cipherSetPadding ctx)))
  | block {i : Nat} {ctx : Ctx} (here : s.threads t = .atBlock i ctx)
      (more : i < data.cipherLen / 16) :
      Moves s t ({ s with
        mem := (decryptBlock eal data i ctx s.mem).2.2
        work := ⟨t, i, s.now, (decryptBlock eal data i ctx s.mem).2.1⟩ :: s.work }.goto t
        (.atBlock ((i + data.totalThreads) % 2 ^ 32) (decryptBlock eal data i ctx s.mem).1))
  | leave {i : Nat} {ctx : Ctx} (here : s.threads t = .atBlock i ctx)
      (all : data.cipherLen / 16 ≤ i) :
      Moves s t (s.goto t .counting)
  | count (here : s.threads t = .counting) :
      Moves s t ({ s with threadsCompleted := s.threadsCompleted + 1 }.goto t .testing)
  | full (here : s.threads t = .testing) (all : s.threadsCompleted = data.totalThreads) :
      Moves s t (s.goto t .recording)
  | notFull (here : s.threads t = .testing) (more : s.threadsCompleted ≠ data.totalThreads) :
      Moves s t (s.goto t .exited)
  | record (here : s.threads t = .recording) : Moves s t
      ({ s with decryptEnd := some s.now }.goto t .exited)

variable {eal data} {s s' : State Ctx} {t : Nat}

theorem step_moves (h : step eal data s t = some s') : Moves eal data s t s' := by
  unfold step at h
  split at h
  case h_1 here =>
    cases h
    exact .arrive here
  case h_2 here =>
    split at h
    case isTrue all =>
      cases h
      exact .release here all
    case isFalse => cases h
  case h_3 here =>
    cases h
    exact .pass here
  case h_4 here =>
    split at h
    case h_1 none =>
      cases h
      exact .noContext here none
    case h_2 some =>
      cases h
      exact .context here some
  case h_5 here =>
    split at h
    case isTrue more =>
      cases h
      exact .block here more
    case isFalse all =>
      cases h
      exact .leave here (Nat.le_of_not_lt all)
  case h_6 here =>
    cases h
    exact .count here
  case h_7 here =>
    cases h
    split
    case isTrue all => exact .full here all
    case isFalse more => exact .notFull here more
  case h_8 here =>
    cases h
    exact .record here
  case h_9 => cases h

end Steps

/-! ## Barrier and counter -/

/-- Sizes for which no index of the threads wraps around. -/
structure ThreadDecryptData.Valid (data : ThreadDecryptData) : Prop where
  someThread : 1 ≤ data.totalThreads
  fewThreads : data.totalThreads < 2 ^ 31
  small : data.cipherLen < 2 ^ 32

section Counters

variable (eal : Eal Ctx) (data : ThreadDecryptData)

def Phase.Fits (t : Nat) : Phase Ctx → Prop
  | .atBarrier | .waiting | .released | .newCtx | .counting | .testing | .recording =>
    t < data.totalThreads
  | .atBlock i _ => t < data.totalThreads ∧ i % data.totalThreads = t
  | .exited => True

def Phase.arrived : Phase Ctx → Nat
  | .atBarrier => 0
  | .waiting | .released | .newCtx | .atBlock _ _ | .counting | .testing | .recording | .exited => 1

def Phase.completed : Phase Ctx → Nat
  | .testing | .recording | .exited => 1
  | .atBarrier | .waiting | .released | .newCtx | .atBlock _ _ | .counting => 0

def Phase.cost : Phase Ctx → Nat
  | .atBarrier => data.cipherLen / 16 + 8
  | .waiting => data.cipherLen / 16 + 7
  | .released => data.cipherLen / 16 + 6
  | .newCtx => data.cipherLen / 16 + 5
  | .atBlock i _ => data.cipherLen / 16 - i + 4
  | .counting => 3
  | .testing => 2
  | .recording => 1
  | .exited => 0

def cost (s : State Ctx) : Nat := total (fun _ phase => phase.cost data) s.threads data.totalThreads

/-- The shared counters are what the threads have made of them. -/
structure Synced (s : State Ctx) : Prop where
  fits : ∀ t, (s.threads t).Fits data t
  arrived : s.arrived = total (fun _ phase => phase.arrived) s.threads data.totalThreads
  completed : s.threadsCompleted =
    total (fun _ phase => phase.completed) s.threads data.totalThreads

variable {eal data} {s s' : State Ctx} {t i : Nat}

theorem ThreadDecryptData.Valid.next (valid : data.Valid) (more : i < data.cipherLen / 16) :
    (i + data.totalThreads) % 2 ^ 32 = i + data.totalThreads := by
  have few := valid.fewThreads
  have small := valid.small
  exact Nat.mod_eq_of_lt (by omega)

theorem Phase.arrived_le (phase : Phase Ctx) : phase.arrived ≤ 1 := by
  cases phase <;> simp [Phase.arrived]

theorem Phase.completed_le (phase : Phase Ctx) : phase.completed ≤ 1 := by
  cases phase <;> simp [Phase.completed]

theorem Phase.Fits.lt {phase : Phase Ctx} (h : phase.Fits data t) (active : phase ≠ .exited) :
    t < data.totalThreads := by
  cases phase with
  | atBlock i ctx => exact h.1
  | exited => exact absurd rfl active
  | atBarrier => exact h
  | waiting => exact h
  | released => exact h
  | newCtx => exact h
  | counting => exact h
  | testing => exact h
  | recording => exact h

theorem start_created (mem : Memory Byte) (created : t < data.totalThreads) :
    (start data mem : State Ctx).threads t = .atBarrier := if_pos created

theorem start_synced (mem : Memory Byte) : Synced data (start data mem : State Ctx) where
  fits t := by
    rw [start]
    dsimp only
    split
    case isTrue created => exact created
    case isFalse => trivial
  arrived := by
    have none (t : Nat) (created : t < data.totalThreads) :
        ((start data mem : State Ctx).threads t).arrived = 0 := by
      rw [start_created mem created, Phase.arrived]
    rw [total_const (fun _ phase => Phase.arrived phase) _ none]
    rfl
  completed := by
    have none (t : Nat) (created : t < data.totalThreads) :
        ((start data mem : State Ctx).threads t).completed = 0 := by
      rw [start_created mem created, Phase.completed]
    rw [total_const (fun _ phase => Phase.completed phase) _ none]
    rfl

theorem Synced.fits_at (inv : Synced data s) {old : Phase Ctx} (here : s.threads t = old) :
    old.Fits data t :=
  here ▸ inv.fits t

theorem Synced.goto (inv : Synced data s) {old phase : Phase Ctx} (here : s.threads t = old)
    (created : t < data.totalThreads) (threads : s'.threads = Function.update s.threads t phase)
    (own : phase.Fits data t) (arrived : s'.arrived + old.arrived = s.arrived + phase.arrived)
    (completed : s'.threadsCompleted + old.completed = s.threadsCompleted + phase.completed) :
    Synced data s' where
  fits u := by
    rw [threads]
    by_cases same : u = t
    · subst same
      rwa [Function.update_self]
    · rw [Function.update_of_ne same]
      exact inv.fits u
  arrived := by
    have moved := total_update (fun _ phase => Phase.arrived phase) s.threads created phase
    have before := inv.arrived
    rw [here] at moved
    rw [threads]
    omega
  completed := by
    have moved := total_update (fun _ phase => Phase.completed phase) s.threads created phase
    have before := inv.completed
    rw [here] at moved
    rw [threads]
    omega

theorem step_synced (valid : data.Valid)
    (obtains : ∀ t < data.totalThreads, (eal.cipherNewCtx t).isSome)
    (inv : Synced data s) (h : step eal data s t = some s') : Synced data s' := by
  cases step_moves h with
  | arrive here =>
    have created := inv.fits_at here
    exact inv.goto here created rfl created rfl rfl
  | release here all =>
    have created := inv.fits_at here
    exact inv.goto here created rfl created rfl rfl
  | pass here =>
    have created := inv.fits_at here
    exact inv.goto here created rfl created rfl rfl
  | noContext here none =>
    have some := obtains t (inv.fits_at here)
    rw [none] at some
    cases some
  | context here some =>
    have created := inv.fits_at here
    exact inv.goto here created rfl ⟨created, Nat.mod_eq_of_lt created⟩ rfl rfl
  | block here more =>
    obtain ⟨created, residue⟩ := inv.fits_at here
    refine inv.goto here created rfl ⟨created, ?_⟩ rfl rfl
    rw [valid.next more, Nat.add_mod_right, residue]
  | leave here all =>
    have created := (inv.fits_at here).1
    exact inv.goto here created rfl created rfl rfl
  | count here =>
    have created := inv.fits_at here
    exact inv.goto here created rfl created rfl rfl
  | full here all =>
    have created := inv.fits_at here
    exact inv.goto here created rfl created rfl rfl
  | notFull here more => exact inv.goto here (inv.fits_at here) rfl trivial rfl rfl
  | record here => exact inv.goto here (inv.fits_at here) rfl trivial rfl rfl

theorem Synced.not_full (inv : Synced data s) {old : Phase Ctx} (here : s.threads t = old)
    (created : t < data.totalThreads) (busy : old.completed = 0) :
    s.threadsCompleted ≠ data.totalThreads := by
  intro full
  rw [inv.completed] at full
  have counted :=
    (total_eq_iff _ s.threads fun _ phase => Phase.completed_le phase).mp full t created
  rw [here, busy] at counted
  cases counted

/-! ## Every run comes to an end -/

theorem start_cost (mem : Memory Byte) :
    cost data (start data mem : State Ctx) = data.totalThreads * (data.cipherLen / 16 + 8) := by
  refine total_const _ _ fun t created => ?_
  rw [start_created mem created, Phase.cost]

theorem cost_goto {old phase : Phase Ctx} (here : s.threads t = old)
    (created : t < data.totalThreads)
    (threads : s'.threads = Function.update s.threads t phase)
    (less : phase.cost data < old.cost data) :
    cost data s' < cost data s := by
  have moved := total_update (fun _ phase => Phase.cost data phase) s.threads created phase
  rw [here] at moved
  unfold cost
  rw [threads]
  omega

theorem step_cost (valid : data.Valid) (inv : Synced data s) (h : step eal data s t = some s') :
    cost data s' < cost data s := by
  have active : s.threads t ≠ .exited := fun here => by
    rw [step, here] at h
    cases h
  have created := (inv.fits t).lt active
  cases step_moves h with
  | arrive here => exact cost_goto here created rfl (Nat.lt_succ_self _)
  | release here all => exact cost_goto here created rfl (Nat.lt_succ_self _)
  | pass here => exact cost_goto here created rfl (Nat.lt_succ_self _)
  | noContext here none => exact cost_goto here created rfl (Nat.succ_pos _)
  | context here some =>
    refine cost_goto here created rfl ?_
    dsimp only [Phase.cost]
    omega
  | block here more =>
    have someThread := valid.someThread
    refine cost_goto here created rfl ?_
    rw [valid.next more]
    dsimp only [Phase.cost]
    omega
  | leave here all =>
    refine cost_goto here created rfl ?_
    dsimp only [Phase.cost]
    omega
  | count here => exact cost_goto here created rfl (Nat.lt_succ_self _)
  | full here all => exact cost_goto here created rfl (Nat.lt_succ_self _)
  | notFull here more => exact cost_goto here created rfl (Nat.succ_pos _)
  | record here => exact cost_goto here created rfl (Nat.lt_succ_self _)

theorem exists_step_of_active (active : s.threads t ≠ .exited)
    (go : s.threads t = .waiting → s.arrived = data.totalThreads) :
    ∃ s', step eal data s t = some s' := by
  unfold step
  split
  case h_1 => exact ⟨_, rfl⟩
  case h_2 here => exact ⟨_, if_pos (go here)⟩
  case h_3 => exact ⟨_, rfl⟩
  case h_4 =>
    split
    case h_1 => exact ⟨_, rfl⟩
    case h_2 => exact ⟨_, rfl⟩
  case h_5 =>
    split
    case isTrue => exact ⟨_, rfl⟩
    case isFalse => exact ⟨_, rfl⟩
  case h_6 => exact ⟨_, rfl⟩
  case h_7 => exact ⟨_, rfl⟩
  case h_8 => exact ⟨_, rfl⟩
  case h_9 here => exact absurd here active

theorem exists_step (inv : Synced data s) (unfinished : ¬ Finished data s) :
    ∃ t s', step eal data s t = some s' := by
  unfold Finished at unfinished
  push Not at unfinished
  obtain ⟨t, created, active⟩ := unfinished
  by_cases closed : s.threads t = .waiting ∧ s.arrived ≠ data.totalThreads
  · have missing := closed.2
    rw [inv.arrived, Ne, total_eq_iff _ _ fun _ phase => Phase.arrived_le phase] at missing
    push Not at missing
    obtain ⟨u, -, absent⟩ := missing
    have here : s.threads u = .atBarrier := by
      cases state : s.threads u with
      | atBarrier => rfl
      | _ =>
        rw [state] at absent
        exact absurd rfl absent
    refine ⟨u, exists_step_of_active ?_ ?_⟩
    · rw [here]
      exact nofun
    · rw [here]
      exact nofun
  · rw [not_and, not_not] at closed
    exact ⟨t, exists_step_of_active active closed⟩

end Counters

/-! ## The plaintext -/

/-- The library works on every context that the threads have: an update after an initialization with
`key` and `iv` puts out the CBC decryption of its block, where `dec` decrypts single blocks. -/
structure Eal.Works (eal : Eal Ctx) (dec : Block → Block → Block) (threads : Nat) : Prop where
  newCtx : ∀ t < threads, (eal.cipherNewCtx t).isSome
  init : ∀ ctx key iv, (eal.cipherInit ctx key iv).2 = true
  update : ∀ ctx key iv block,
    (eal.cipherUpdate (eal.cipherInit ctx key iv).1 block).2 = some (sm4XorBlock (dec key block) iv)

section Plaintext

variable (data : ThreadDecryptData) (dec : Block → Block → Block) (mem : Memory Byte)

def Phase.position : Phase Ctx → Nat
  | .atBarrier | .waiting | .released | .newCtx => 0
  | .atBlock i _ => i
  | .counting | .testing | .recording | .exited => data.cipherLen / 16

def Reached (threads : Nat → Phase Ctx) (b : Nat) : Prop :=
  b < (threads (b % data.totalThreads)).position data

instance (threads : Nat → Phase Ctx) (b : Nat) : Decidable (Reached data threads b) :=
  inferInstanceAs (Decidable (b < (threads (b % data.totalThreads)).position data))

def attempts (s : State Ctx) (b : Nat) : List Bool :=
  (s.work.filter fun e => e.block = b).map BlockStep.decrypted

structure Decrypts (s : State Ctx) : Prop where
  once : ∀ b, attempts s b =
    if b < data.cipherLen / 16 ∧ Reached data s.threads b then [true] else []
  plain : Scattered sm4XorBlock (dec data.key) data.cipherText data.plainText data.iv mem
    (data.cipherLen / 16) (Reached data s.threads) s.mem

variable {data dec mem} {eal : Eal Ctx} {s s' : State Ctx} {t i : Nat}

theorem decryptBlock_works {threads : Nat} (works : eal.Works dec threads) (valid : data.Valid)
    (more : i < data.cipherLen / 16) (ctx : Ctx) (m : Memory Byte) :
    (decryptBlock eal data i ctx m).2 =
      (true, decryptBlockAt sm4XorBlock (dec data.key) data.cipherText data.plainText
        data.iv i m) := by
  have small := valid.small
  have offset : i * 16 % 2 ^ 32 = 16 * i := by
    rw [Nat.mod_eq_of_lt (by omega), Nat.mul_comm]
  have before : (if i = 0 then data.iv else read 16 m (data.cipherText + (i - 1) * 16 % 2 ^ 32)) =
      previous (fun j => read 16 m (data.cipherText + 16 * j)) data.iv i := by
    cases i with
    | zero => rfl
    | succ i =>
      rw [if_neg (Nat.succ_ne_zero i), previous, Nat.add_sub_cancel,
        Nat.mod_eq_of_lt (by omega), Nat.mul_comm]
  unfold decryptBlock
  dsimp only
  rw [before, offset, works.init, if_pos rfl, works.update]
  rfl

theorem reached_update {old phase : Phase Ctx} (here : s.threads t = old)
    (same : ∀ b < data.cipherLen / 16, b % data.totalThreads = t →
      (b < phase.position data ↔ b < old.position data)) (b : Nat) (hb : b < data.cipherLen / 16) :
    Reached data (Function.update s.threads t phase) b ↔ Reached data s.threads b := by
  unfold Reached
  by_cases own : b % data.totalThreads = t
  · rw [own, Function.update_self, here]
    exact same b hb own
  · rw [Function.update_of_ne own]

theorem Decrypts.goto (inv : Decrypts data dec mem s) {old phase : Phase Ctx}
    (here : s.threads t = old) (threads : s'.threads = Function.update s.threads t phase)
    (same : ∀ b < data.cipherLen / 16, b % data.totalThreads = t →
      (b < phase.position data ↔ b < old.position data))
    (work : s'.work = s.work) (memory : s'.mem = s.mem) :
    Decrypts data dec mem s' where
  once b := by
    have before := inv.once b
    unfold attempts at *
    rw [work, before, threads]
    refine if_congr ?_ rfl rfl
    exact and_congr_right fun hb => (reached_update here same b hb).symm
  plain := by
    rw [memory, threads]
    exact inv.plain.mono fun b hb => (reached_update here same b hb).mp

theorem lt_add_iff_of_mod {b i step : Nat} (pos : 0 < step) (residue : b % step = i % step) :
    b < i + step ↔ b < i ∨ b = i := by
  constructor
  · intro lt
    rcases Nat.lt_or_ge b i with below | above
    · exact Or.inl below
    · have multiple : step ∣ b - i := (Nat.modEq_iff_dvd' above).mp residue.symm
      have zero : b - i = 0 := Nat.eq_zero_of_dvd_of_lt multiple (by omega)
      exact Or.inr (by omega)
  · omega

theorem Decrypts.block {dec : Block → Block → Block} (works : eal.Works dec data.totalThreads)
    (valid : data.Valid) (apart : data.cipherText + 16 * (data.cipherLen / 16) ≤ data.plainText ∨
      data.plainText + 16 * (data.cipherLen / 16) ≤ data.cipherText)
    (inv : Decrypts data dec mem s) {ctx ctx' : Ctx} (here : s.threads t = .atBlock i ctx)
    (residue : i % data.totalThreads = t) (more : i < data.cipherLen / 16)
    (threads : s'.threads = Function.update s.threads t (.atBlock (i + data.totalThreads) ctx'))
    (work : s'.work = ⟨t, i, s.now, (decryptBlock eal data i ctx s.mem).2.1⟩ :: s.work)
    (memory : s'.mem = (decryptBlock eal data i ctx s.mem).2.2) : Decrypts data dec mem s' := by
  have grow (b : Nat) : Reached data s'.threads b ↔ Reached data s.threads b ∨ b = i := by
    unfold Reached
    rw [threads]
    by_cases own : b % data.totalThreads = t
    · rw [own, Function.update_self, here]
      exact lt_add_iff_of_mod valid.someThread (own.trans residue.symm)
    · rw [Function.update_of_ne own]
      refine (or_iff_left fun same => own ?_).symm
      rw [same, residue]
  have fresh : ¬ Reached data s.threads i := by
    unfold Reached
    rw [residue, here]
    exact Nat.lt_irrefl i
  rw [decryptBlock_works works valid more] at work memory
  constructor
  case once =>
    intro b
    have before := inv.once b
    unfold attempts at *
    rw [work]
    by_cases same : b = i
    · subst same
      rw [if_neg fun done => fresh done.2] at before
      rw [List.filter_cons_of_pos (by simp), List.map_cons, before,
        if_pos ⟨more, (grow b).mpr (Or.inr rfl)⟩]
    · rw [List.filter_cons_of_neg (by simpa using Ne.symm same), before]
      refine if_congr (and_congr_right fun _ => ?_) rfl rfl
      rw [grow b]
      exact (or_iff_left same).symm
  case plain =>
    rw [memory]
    exact inv.plain.step apart more fun b _ => (grow b).mp

theorem step_decrypts {dec : Block → Block → Block} (works : eal.Works dec data.totalThreads)
    (valid : data.Valid) (apart : data.cipherText + 16 * (data.cipherLen / 16) ≤ data.plainText ∨
      data.plainText + 16 * (data.cipherLen / 16) ≤ data.cipherText)
    (sync : Synced data s) (inv : Decrypts data dec mem s) (h : step eal data s t = some s') :
    Decrypts data dec mem s' := by
  cases step_moves h with
  | arrive here => exact inv.goto here rfl (fun _ _ _ => Iff.rfl) rfl rfl
  | release here all => exact inv.goto here rfl (fun _ _ _ => Iff.rfl) rfl rfl
  | pass here => exact inv.goto here rfl (fun _ _ _ => Iff.rfl) rfl rfl
  | noContext here none =>
    have some := works.newCtx t (sync.fits_at here)
    rw [none] at some
    cases some
  | context here some =>
    have created : t < data.totalThreads := sync.fits_at here
    refine inv.goto here rfl (fun b _ own => iff_of_false (fun below : b < t => ?_)
      (Nat.not_lt_zero b)) rfl rfl
    rw [Nat.mod_eq_of_lt (Nat.lt_trans below created)] at own
    exact Nat.ne_of_lt below own
  | block here more =>
    have residue := (sync.fits_at here).2
    exact inv.block works valid apart here residue more (by rw [valid.next more]; rfl) rfl rfl
  | leave here all =>
    exact inv.goto here rfl (fun b hb _ => iff_of_true hb (Nat.lt_of_lt_of_le hb all)) rfl rfl
  | count here => exact inv.goto here rfl (fun _ _ _ => Iff.rfl) rfl rfl
  | full here all => exact inv.goto here rfl (fun _ _ _ => Iff.rfl) rfl rfl
  | notFull here more => exact inv.goto here rfl (fun _ _ _ => Iff.rfl) rfl rfl
  | record here => exact inv.goto here rfl (fun _ _ _ => Iff.rfl) rfl rfl

theorem start_decrypts {dec : Block → Block → Block} (valid : data.Valid) :
    Decrypts data dec mem (start data mem : State Ctx) := by
  have none (b : Nat) : ¬ Reached data (start data mem : State Ctx).threads b := by
    have created := Nat.mod_lt b valid.someThread
    rw [Reached, start_created mem created]
    exact Nat.not_lt_zero b
  constructor
  case once =>
    intro b
    rw [if_neg fun done => none b done.2]
    rfl
  case plain => exact Scattered.refl fun b _ => none b

theorem Finished.reached (valid : data.Valid) (finished : Finished data s) {b : Nat}
    (hb : b < data.cipherLen / 16) : Reached data s.threads b := by
  rw [Reached, finished _ (Nat.mod_lt b valid.someThread)]
  exact hb

end Plaintext

/-- The threads together come to their end, never wait for each other in vain and never wrap an
index around; at the end every block has been decrypted exactly once, and the plaintext is the
sequential one. -/
theorem threadDecrypt_correct (eal : Eal Ctx) (data : ThreadDecryptData)
    (dec : Block → Block → Block)
    (mem : Memory Byte) (works : eal.Works dec data.totalThreads) (valid : data.Valid)
    (apart : data.cipherText + data.cipherLen ≤ data.plainText ∨
      data.plainText + data.cipherLen ≤ data.cipherText) :
    ∀ schedule s, run (step eal data) (start data mem) schedule = some s →
      schedule.length ≤ data.totalThreads * (data.cipherLen / 16 + 8) ∧
        (¬ Finished data s → ∃ t s', step eal data s t = some s') ∧
        (∀ t i ctx, s.threads t = .atBlock i ctx → i < data.cipherLen / 16 →
          i + data.totalThreads < 2 ^ 32 ∧ i * 16 < 2 ^ 32) ∧
        (Finished data s →
          (∀ b, attempts s b = if b < data.cipherLen / 16 then [true] else []) ∧
            s.mem = (decryptLoop sm4XorBlock (dec data.key) data.cipherText data.plainText
              (16 * (data.cipherLen / 16)) ⟨mem, data.iv⟩).mem) := by
  intro schedule s h
  have blocks : 16 * (data.cipherLen / 16) ≤ data.cipherLen := Nat.mul_div_le ..
  have apart' : data.cipherText + 16 * (data.cipherLen / 16) ≤ data.plainText ∨
      data.plainText + 16 * (data.cipherLen / 16) ≤ data.cipherText := by omega
  have synced (s : State Ctx) (t : Nat) (s' : State Ctx) (inv : Synced data s)
    (h : step eal data s t = some s') :
      Synced data s' := step_synced valid works.newCtx inv h
  have sync := run_inv synced (start_synced mem) h
  have bound :=
    run_length_le synced (fun s t s' inv h => step_cost valid inv h) (start_synced mem) h
  have inv := run_inv (motive := fun s => Synced data s ∧ Decrypts data dec mem s)
    (fun s t s' inv h => ⟨synced s t s' inv.1 h, step_decrypts works valid apart' inv.1 inv.2 h⟩)
    ⟨start_synced mem, start_decrypts valid⟩ h
  refine ⟨?_, exists_step sync, fun t i ctx _ more => ?_, fun finished => ⟨fun b => ?_, ?_⟩⟩
  · rw [start_cost] at bound
    omega
  · have few := valid.fewThreads
    have small := valid.small
    omega
  · rw [inv.2.once b]
    refine if_congr ?_ rfl rfl
    exact and_iff_left_of_imp fun hb => finished.reached valid hb
  · exact inv.2.plain.eq_decryptLoop (by decide) apart' fun b hb => finished.reached valid hb

/-- Contexts that hold the key and the chaining value, with the block function of the portable
header. -/
def portableEal : Eal (Block × Block) where
  cipherNewCtx _ := some (Vector.replicate 16 0, Vector.replicate 16 0)
  cipherSetPadding ctx := ctx
  cipherInit _ key iv := ((key, iv), true)
  cipherUpdate ctx block :=
    ((ctx.1, block),
      some (sm4XorBlock (sm4DecryptBlock block (sm4SetKey ctx.1 (Vector.replicate 32 0))) ctx.2))

def zeroData (totalThreads cipherLen : Nat) : ThreadDecryptData where
  cipherText := 0
  cipherLen := cipherLen
  plainText := cipherLen
  key := Vector.replicate 16 0
  iv := Vector.replicate 16 0
  totalThreads := totalThreads

/-- Three blocks and two bytes for two threads, the second of which runs first. -/
theorem threadDecrypt_correct_three_blocks :
    ∃ s, run (step portableEal (zeroData 2 50)) (start (zeroData 2 50) fun a => BitVec.ofNat 8 a)
        ([0, 1] ++ List.replicate 7 1 ++ List.replicate 9 0) = some s ∧
      s.mem = (sm4CbcDecrypt (fun a => BitVec.ofNat 8 a) 0 50 48
        (sm4SetKey (Vector.replicate 16 0) (Vector.replicate 32 0))
        (Vector.replicate 16 0)).mem := by
  have possible :
    (run (step portableEal (zeroData 2 50)) (start (zeroData 2 50) fun a => BitVec.ofNat 8 a)
    ([0, 1] ++ List.replicate 7 1 ++ List.replicate 9 0)).isSome = true := rfl
  have correct := threadDecrypt_correct portableEal (zeroData 2 50)
    (fun key block => sm4DecryptBlock block (sm4SetKey key (Vector.replicate 32 0)))
      (fun a => BitVec.ofNat 8 a)
    ⟨fun _ _ => rfl, fun _ _ _ => rfl, fun _ _ _ _ => rfl⟩
    ⟨by decide, by decide, by decide⟩ (by decide)
    _ _ (Option.some_get possible).symm
  refine ⟨_, (Option.some_get possible).symm, (correct.2.2.2 fun t created => ?_).2.trans ?_⟩
  · have lt : t < 2 := created
    interval_cases t <;> rfl
  · rw [sm4CbcDecrypt, if_neg (by decide)]
    rfl

/-! ## The clock -/

section Clock

variable {eal : Eal Ctx} {data : ThreadDecryptData} {s s' : State Ctx} {t : Nat}

theorem step_now (h : step eal data s t = some s') : s'.now = s.now + 1 := by
  cases step_moves h <;> rfl

theorem step_work (h : step eal data s t = some s') :
    s'.work = s.work ∨ ∃ i ctx ok, s.threads t = .atBlock i ctx ∧ i < data.cipherLen / 16 ∧
      s'.work = ⟨t, i, s.now, ok⟩ :: s.work := by
  cases step_moves h with
  | block here more => exact Or.inr ⟨_, _, _, here, more, rfl⟩
  | _ => exact Or.inl rfl

theorem step_decryptStart (h : step eal data s t = some s') :
    s'.decryptStart = s.decryptStart ∨
      (t = 0 ∧ s.threads 0 = .released ∧ s'.decryptStart = some s.now) := by
  cases step_moves h with
  | pass here =>
    by_cases first : t = 0
    · exact Or.inr ⟨first, first ▸ here, if_pos first⟩
    · exact Or.inl (if_neg first)
  | _ => exact Or.inl rfl

theorem step_decryptEnd (h : step eal data s t = some s') :
    s'.decryptEnd = s.decryptEnd ∨ (s.threads t = .recording ∧ s'.decryptEnd = some s.now) := by
  cases step_moves h with
  | record here => exact Or.inr ⟨here, rfl⟩
  | _ => exact Or.inl rfl

theorem step_threadsCompleted (h : step eal data s t = some s') :
    s'.threadsCompleted = s.threadsCompleted ∨
      (s.threads t = .counting ∧ s'.threads t = .testing ∧
        s'.threadsCompleted = s.threadsCompleted + 1) := by
  cases step_moves h with
  | count here => exact Or.inr ⟨here, Function.update_self .., rfl⟩
  | _ => exact Or.inl rfl

theorem step_others (h : step eal data s t = some s') {u : Nat} (other : u ≠ t) :
    s'.threads u = s.threads u := by
  cases step_moves h <;> exact Function.update_of_ne other ..

structure Timed (data : ThreadDecryptData) (s : State Ctx) : Prop where
  past : ∀ e ∈ s.work, e.time < s.now
  recording : ∀ t, s.threads t = .recording → s.threadsCompleted = data.totalThreads
  ended : ∀ b, s.decryptEnd = some b →
    s.threadsCompleted = data.totalThreads ∧ ∀ e ∈ s.work, e.time < b
  taken : s.threadsCompleted = data.totalThreads →
    s.decryptEnd.isSome ∨ ∃ t, s.threads t = .testing ∨ s.threads t = .recording

theorem start_timed (mem : Memory Byte) (valid : data.Valid) :
    Timed data (start data mem : State Ctx) where
  past e inside := absurd inside List.not_mem_nil
  recording t here := by
    rw [start] at here
    dsimp only at here
    split at here <;> cases here
  ended b here := by cases here
  taken full := absurd full (Nat.ne_of_lt valid.someThread)

theorem step_full (sync : Synced data s) (full : s.threadsCompleted = data.totalThreads)
    (h : step eal data s t = some s') :
    s'.threadsCompleted = data.totalThreads ∧ s'.work = s.work := by
  constructor
  · rcases step_threadsCompleted h with same | ⟨here, -⟩
    · exact same.trans full
    · exact absurd full (sync.not_full here (sync.fits_at here) rfl)
  · rcases step_work h with same | ⟨i, ctx, ok, busy, -⟩
    · exact same
    · exact absurd full (sync.not_full busy (sync.fits_at busy).1 rfl)

theorem step_timed (sync : Synced data s) (inv : Timed data s) (h : step eal data s t = some s') :
    Timed data s' := by
  constructor
  case past =>
    intro e inside
    rw [step_now h]
    rcases step_work h with same | ⟨i, ctx, ok, -, -, grown⟩
    · rw [same] at inside
      exact Nat.lt_succ_of_lt (inv.past e inside)
    · rw [grown] at inside
      rcases List.mem_cons.mp inside with rfl | earlier
      · exact Nat.lt_succ_self _
      · exact Nat.lt_succ_of_lt (inv.past e earlier)
  case recording =>
    intro u here
    by_cases own : u = t
    · subst own
      cases step_moves h with
      | full _ all => exact all
      | _ =>
        rw [State.goto] at here
        dsimp only at here
        rw [Function.update_self] at here
        cases here
    · rw [step_others h own] at here
      exact (step_full sync (inv.recording u here) h).1
  case ended =>
    intro b here
    rcases step_decryptEnd h with same | ⟨recording, taken⟩
    · rw [same] at here
      obtain ⟨full, last⟩ := inv.ended b here
      obtain ⟨still, work⟩ := step_full sync full h
      exact ⟨still, work ▸ last⟩
    · rw [taken] at here
      cases here
      obtain ⟨still, work⟩ := step_full sync (inv.recording t recording) h
      exact ⟨still, work ▸ inv.past⟩
  case taken =>
    intro full
    rcases step_threadsCompleted h with same | ⟨-, next, -⟩
    · rw [same] at full
      rcases inv.taken full with ended | ⟨u, who⟩
      · rcases step_decryptEnd h with same | ⟨-, taken⟩
        · exact Or.inl (same ▸ ended)
        · exact Or.inl (by rw [taken]; rfl)
      · by_cases own : u = t
        · subst own
          rcases who with testing | recording
          · rw [step, testing] at h
            cases h
            refine Or.inr ⟨u, Or.inr ?_⟩
            rw [if_pos full]
            exact Function.update_self ..
          · rw [step, recording] at h
            cases h
            exact Or.inl rfl
        · rw [← step_others h own] at who
          exact Or.inr ⟨u, who⟩
    · exact Or.inr ⟨t, Or.inl next⟩

/-- The end time is taken, after every iteration. -/
def EndsLast (s : State Ctx) : Prop := ∃ b, s.decryptEnd = some b ∧ ∀ e ∈ s.work, e.time < b

theorem Timed.endsLast (inv : Timed data s) (sync : Synced data s) (finished : Finished data s) :
    EndsLast s := by
  have full : s.threadsCompleted = data.totalThreads := by
    rw [sync.completed, total_eq_iff _ _ fun _ phase => Phase.completed_le phase]
    intro t created
    rw [finished t created]
    rfl
  rcases inv.taken full with ended | ⟨u, busy⟩
  · obtain ⟨b, here⟩ := Option.isSome_iff_exists.mp ended
    exact ⟨b, here, (inv.ended b here).2⟩
  · have active : s.threads u ≠ .exited := fun here => by
      rw [here] at busy
      rcases busy with here | here <;> cases here
    exact absurd (finished u ((sync.fits u).lt active)) active

/-! ## The start time -/

def Phase.Opened (decryptStart : Option Nat) : Phase Ctx → Prop
  | .atBarrier | .waiting | .released => decryptStart = none
  | .newCtx | .atBlock _ _ | .counting | .testing | .recording | .exited => decryptStart.isSome

structure Opened (s : State Ctx) : Prop where
  phase : (s.threads 0).Opened s.decryptStart
  past : ∀ a, s.decryptStart = some a → a < s.now
  work : ∀ e ∈ s.work, ∃ a, s.decryptStart = some a ∧ a < e.time

theorem start_opened (mem : Memory Byte) (valid : data.Valid) :
    Opened (start data mem : State Ctx) where
  phase := by
    rw [start_created mem valid.someThread]
    rfl
  past a here := by cases here
  work e inside := absurd inside List.not_mem_nil

theorem opened_goto {old phase : Phase Ctx} (inv : (s.threads 0).Opened s.decryptStart)
    (here : s.threads 0 = old) (threads : s'.threads = Function.update s.threads 0 phase)
    (own : old.Opened s.decryptStart → phase.Opened s'.decryptStart) :
    (s'.threads 0).Opened s'.decryptStart := by
  rw [threads, Function.update_self]
  exact own (here ▸ inv)

theorem step_phase_opened (inv : (s.threads 0).Opened s.decryptStart)
    (h : step eal data s t = some s') : (s'.threads 0).Opened s'.decryptStart := by
  by_cases first : t = 0
  · subst first
    cases step_moves h with
    | pass here => exact opened_goto inv here rfl fun _ => rfl
    | arrive here | release here | noContext here | context here | block here | leave here
    | count here | full here | notFull here | record here =>
      exact opened_goto inv here rfl fun before => before
  · rw [step_others h (Ne.symm first)]
    rcases step_decryptStart h with same | ⟨eq, -⟩
    · rwa [same]
    · exact absurd eq first

theorem step_opened (single : data.totalThreads = 1 ∨ data.cipherLen / 16 ≤ 1)
    (sync : Synced data s) (inv : Opened s) (h : step eal data s t = some s') : Opened s' where
  phase := step_phase_opened inv.phase h
  past a here := by
    rw [step_now h]
    rcases step_decryptStart h with same | ⟨-, -, taken⟩
    · rw [same] at here
      exact Nat.lt_succ_of_lt (inv.past a here)
    · rw [taken] at here
      cases here
      exact Nat.lt_succ_self _
  work e inside := by
    have phase := inv.phase
    rcases step_work h with same | ⟨i, ctx, ok, here, more, grown⟩
    · rw [same] at inside
      obtain ⟨a, started, earlier⟩ := inv.work e inside
      rcases step_decryptStart h with kept | ⟨-, released, -⟩
      · exact ⟨a, kept.trans started, earlier⟩
      · rw [released] at phase
        exact absurd (started.symm.trans phase) nofun
    · obtain ⟨created, residue⟩ := sync.fits_at here
      have first : t = 0 := by
        rcases single with one | few
        · omega
        · have zero : i = 0 := by omega
          rw [← residue, zero, Nat.zero_mod]
      subst first
      rw [here] at phase
      obtain ⟨a, started⟩ := Option.isSome_iff_exists.mp phase
      have kept : s'.decryptStart = some a := by
        rcases step_decryptStart h with same | ⟨-, released, -⟩
        · exact same.trans started
        · rw [here] at released
          cases released
      refine ⟨a, kept, ?_⟩
      rw [grown] at inside
      rcases List.mem_cons.mp inside with rfl | earlier
      · exact inv.past a started
      · obtain ⟨a', started', lt⟩ := inv.work e earlier
        rw [started] at started'
        cases started'
        exact lt

structure Early (e : BlockStep) (s : State Ctx) : Prop where
  inside : e ∈ s.work
  past : e.time < s.now
  before : ∀ a, s.decryptStart = some a → e.time < a

theorem step_early {e : BlockStep} (inv : Early e s) (h : step eal data s t = some s') :
    Early e s' where
  inside := by
    rcases step_work h with same | ⟨i, ctx, ok, -, -, grown⟩
    · exact same ▸ inv.inside
    · rw [grown]
      exact List.mem_cons_of_mem _ inv.inside
  past := by
    rw [step_now h]
    exact Nat.lt_succ_of_lt inv.past
  before a here := by
    rcases step_decryptStart h with same | ⟨-, -, taken⟩
    · exact inv.before a (same ▸ here)
    · rw [taken] at here
      cases here
      exact inv.past

/-! ## A thread that is ahead of the first one -/

theorem goto_self (s : State Ctx) (t : Nat) (phase : Phase Ctx) :
    (s.goto t phase).threads t = phase :=
  Function.update_self ..

variable (eal) in
/-- All threads may arrive at the barrier before one of them leaves it. -/
theorem run_arrivals (mem : Memory Byte) {m : Nat} (le : m ≤ data.totalThreads) :
    ∃ s, run (step eal data) (start data mem) (List.range m) = some s ∧
      (∀ t < data.totalThreads, s.threads t = if t < m then .waiting else .atBarrier) ∧
      s.arrived = m ∧ s.decryptStart = none := by
  induction m with
  | zero =>
    refine ⟨start data mem, rfl, fun t created => ?_, rfl, rfl⟩
    rw [if_neg (Nat.not_lt_zero t)]
    exact start_created mem created
  | succ m ih =>
    obtain ⟨s, h, threads, arrived, unset⟩ := ih (Nat.le_of_succ_le le)
    have here : s.threads m = .atBarrier := (threads m le).trans (if_neg (Nat.lt_irrefl m))
    refine ⟨{ s with arrived := s.arrived + 1 }.goto m .waiting, ?_, fun t created => ?_, ?_, unset⟩
    · rw [List.range_succ]
      exact run_snoc h (by rw [step, here])
    · rw [State.goto]
      dsimp only
      by_cases own : t = m
      · rw [own, Function.update_self, if_pos (Nat.lt_succ_self m)]
      · rw [Function.update_of_ne own, threads t created]
        refine if_congr ?_ rfl rfl
        omega
    · rw [State.goto]
      dsimp only
      rw [arrived]

/-- With two threads and two blocks, the second thread may pass the barrier and decrypt a block
before the first one takes the start time. -/
theorem exists_early (obtains : ∀ t < data.totalThreads, (eal.cipherNewCtx t).isSome)
    (mem : Memory Byte) (threads : 1 < data.totalThreads) (blocks : 1 < data.cipherLen / 16) :
    ∃ schedule e s, run (step eal data) (start data mem) schedule = some s ∧ Early e s := by
  obtain ⟨s, h, waiting, arrived, unset⟩ := run_arrivals eal mem (Nat.le_refl data.totalThreads)
  have here := (waiting 1 threads).trans (if_pos threads)
  obtain ⟨ctx, new⟩ := Option.isSome_iff_exists.mp (obtains 1 threads)
  obtain ⟨s₁, h₁, here₁, unset₁⟩ : ∃ s₁, step eal data s 1 = some s₁ ∧ s₁.threads 1 = .released ∧
      s₁.decryptStart = none :=
    ⟨s.goto 1 .released, by rw [step, here]; exact if_pos arrived, goto_self .., unset⟩
  obtain ⟨s₂, h₂, here₂, unset₂⟩ : ∃ s₂, step eal data s₁ 1 = some s₂ ∧ s₂.threads 1 = .newCtx ∧
      s₂.decryptStart = none :=
    ⟨{ s₁ with decryptStart := if (1 : Nat) = 0 then some s₁.now else s₁.decryptStart }.goto 1
      .newCtx,
      by rw [step, here₁], goto_self .., unset₁⟩
  obtain ⟨s₃, h₃, here₃, unset₃⟩ : ∃ s₃, step eal data s₂ 1 = some s₃ ∧
      s₃.threads 1 = .atBlock 1 (eal.cipherSetPadding ctx) ∧ s₃.decryptStart = none :=
    ⟨s₂.goto 1 (.atBlock 1 (eal.cipherSetPadding ctx)), by rw [step, here₂]; dsimp only; rw [new],
      goto_self .., unset₂⟩
  have h₄ : step eal data s₃ 1 = some ({ s₃ with
      mem := (decryptBlock eal data 1 (eal.cipherSetPadding ctx) s₃.mem).2.2
      work := ⟨1, 1, s₃.now, (decryptBlock eal data 1 (eal.cipherSetPadding ctx) s₃.mem).2.1⟩ ::
        s₃.work }.goto 1
      (.atBlock ((1 + data.totalThreads) % 2 ^ 32)
        (decryptBlock eal data 1 (eal.cipherSetPadding ctx) s₃.mem).1)) := by
    rw [step, here₃]
    exact if_pos blocks
  refine ⟨_, _, _, run_snoc (run_snoc (run_snoc (run_snoc h h₁) h₂) h₃) h₄,
    List.mem_cons_self, ?_, ?_⟩
  · exact Nat.lt_succ_self _
  · intro a set
    exact absurd (unset₃.symm.trans set) nofun

end Clock

/-- The reported interval has every iteration inside. -/
def Window (s : State Ctx) : Prop :=
  ∃ a b, s.decryptStart = some a ∧ s.decryptEnd = some b ∧ ∀ e ∈ s.work, a < e.time ∧ e.time < b

/-- The end time is always taken after the last block; the start time is taken before the first
block under every schedule exactly if there is only one thread, or no block for a second one. -/
theorem threadDecrypt_window_iff (eal : Eal Ctx) (data : ThreadDecryptData) (mem : Memory Byte)
    (obtains : ∀ t < data.totalThreads, (eal.cipherNewCtx t).isSome) (valid : data.Valid) :
    (∀ schedule s, run (step eal data) (start data mem) schedule = some s →
      Finished data s → EndsLast s) ∧
      ((∀ schedule s, run (step eal data) (start data mem) schedule = some s →
        Finished data s → Window s) ↔
        data.totalThreads = 1 ∨ data.cipherLen / 16 ≤ 1) := by
  have synced (s : State Ctx) (t : Nat) (s' : State Ctx) (inv : Synced data s)
    (h : step eal data s t = some s') :
      Synced data s' := step_synced valid obtains inv h
  have ends (schedule : List Nat) (s : State Ctx)
    (h : run (step eal data) (start data mem) schedule = some s)
      (finished : Finished data s) : EndsLast s := by
    have inv := run_inv (motive := fun s => Synced data s ∧ Timed data s)
      (fun s t s' inv h => ⟨synced s t s' inv.1 h, step_timed inv.1 inv.2 h⟩)
      ⟨start_synced mem, start_timed mem valid⟩ h
    exact inv.2.endsLast inv.1 finished
  refine ⟨ends, ?_, ?_⟩
  · intro window
    by_contra several
    rw [not_or] at several
    have someThread := valid.someThread
    obtain ⟨first, e, s, h, early⟩ := exists_early obtains mem (by omega) (by omega)
    have sync := run_inv synced (start_synced mem) h
    obtain ⟨later, s', h', finished⟩ :=
      exists_run_done synced (fun s t s' inv h => step_cost valid inv h)
      (fun s inv (unfinished : ¬ Finished data s) => exists_step inv unfinished) sync
    have kept := run_inv (fun s t s' => step_early (e := e)) early h'
    obtain ⟨a, b, started, -, inside⟩ := window _ _ (run_trans h h') finished
    have before := kept.before a started
    have after := (inside e kept.inside).1
    omega
  · intro single schedule s h finished
    obtain ⟨b, ended, last⟩ := ends schedule s h finished
    have inv := run_inv (motive := fun s => Synced data s ∧ Opened s)
      (fun s t s' inv h => ⟨synced s t s' inv.1 h, step_opened single inv.1 inv.2 h⟩)
      ⟨start_synced mem, start_opened mem valid⟩ h
    have phase := inv.2.phase
    rw [finished 0 valid.someThread] at phase
    obtain ⟨a, started⟩ := Option.isSome_iff_exists.mp phase
    refine ⟨a, b, started, ended, fun e inside => ⟨?_, last e inside⟩⟩
    obtain ⟨a', started', lt⟩ := inv.2.work e inside
    rw [started] at started'
    cases started'
    exact lt

theorem threadDecrypt_window_one_thread :
    ∃ s, run (step portableEal (zeroData 1 32)) (start (zeroData 1 32) fun a => BitVec.ofNat 8 a)
        (List.replicate 10 0) = some s ∧ Window s := by
  have window := (threadDecrypt_window_iff portableEal (zeroData 1 32) (fun a => BitVec.ofNat 8 a)
    (fun _ _ => rfl) ⟨by decide, by decide, by decide⟩).2.mpr (Or.inl rfl)
  have possible :
    (run (step portableEal (zeroData 1 32)) (start (zeroData 1 32) fun a => BitVec.ofNat 8 a)
    (List.replicate 10 0)).isSome = true := rfl
  refine ⟨_, (Option.some_get possible).symm,
    window _ _ (Option.some_get possible).symm fun t created => ?_⟩
  obtain rfl : t = 0 := Nat.lt_one_iff.mp created
  rfl

def secondAhead : List Nat :=
  List.range 8 ++ List.replicate 7 1 ++ List.replicate 7 0 ++
    [2, 3, 4, 5, 6].flatMap (List.replicate 6) ++
    List.replicate 7 7

theorem threadDecrypt_second_thread_ahead :
    ∃ s, run (step portableEal (zeroData 8 32))
      (start (zeroData 8 32) fun a => BitVec.ofNat 8 a) secondAhead = some s ∧
      Finished (zeroData 8 32) s ∧ ⟨1, 1, 11, true⟩ ∈ s.work ∧ s.decryptStart = some 16 ∧
        ¬ Window s := by
  have possible :
    (run (step portableEal (zeroData 8 32)) (start (zeroData 8 32) fun a => BitVec.ofNat 8 a)
    secondAhead).isSome = true := rfl
  obtain ⟨s, here, finished, early, started⟩ : ∃ s, run (step portableEal (zeroData 8 32))
      (start (zeroData 8 32) fun a => BitVec.ofNat 8 a) secondAhead = some s ∧
        Finished (zeroData 8 32) s ∧
      ⟨1, 1, 11, true⟩ ∈ s.work ∧ s.decryptStart = some 16 := by
    refine ⟨_, (Option.some_get possible).symm, fun t created => ?_, .tail _ (.head _), rfl⟩
    have lt : t < 8 := created
    interval_cases t <;> rfl
  refine ⟨s, here, finished, early, started, ?_⟩
  rintro ⟨a, b, first, -, inside⟩
  have before := (inside _ early).1
  rw [started] at first
  cases first
  exact absurd before (by decide)

end SystemsLab.ThreadDecrypt
