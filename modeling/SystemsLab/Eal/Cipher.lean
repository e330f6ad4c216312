import SystemsLab.General.StreamMachine
import SystemsLab.Sm4.OpenHitls

/-! The cipher interface of openHiTLS (`eal_cipher.c`). A context runs through the states new, init,
update and final, and its calls go to the methods of a mode, which are parameters here.
Whether a call is let through depends on what the calls before it returned, and on
nothing else. -/

namespace SystemsLab.EalCipher
open ByteWord Buffer StreamMachine Sm4OpenHitls

inductive CryptCipherCtrl
  | setIv | getIv | getBlocksize | setCount | setAad | getTag | setTaglen | setMsglen
  | setFeedbacksize | getFeedbacksize | desNokeycheck | setPadding | getPadding | reinitStatus
  deriving DecidableEq

def cryptEalErrState : Int := 0x0104000C
def cryptEalCipherCtrlError : Int := 0x0104000F
def cryptEalErrPartOverlap : Int := 0x01040015
def cryptPaddingMaxCount : Int := 6

/-- What a call leaves: `outLen` is the value behind the pointer of that name. -/
structure UpdateResult (σ : Type) where
  ret : Int
  ctx : σ
  mem : Memory Byte
  outLen : Nat

structure CtrlResult (σ : Type) where
  ret : Int
  ctx : σ
  mem : Memory Byte

/-- `EAL_CipherUnitaryMethod`, on the contexts of a mode. -/
structure EalCipherMethod (σ : Type) where
  initCtx : σ → Memory Byte → Option Nat → Nat → Option Nat → Nat → Bool → Int × σ
  deinitCtx : σ → σ
  update : σ → Memory Byte → Nat → Nat → Nat → Nat → UpdateResult σ
  final : σ → Memory Byte → Nat → Nat → UpdateResult σ
  ctrl : σ → Memory Byte → CryptCipherCtrl → Option Nat → Nat → CtrlResult σ

inductive EalCipherState
  | new | init | update | final
  deriving DecidableEq

/-- `CRYPT_EAL_CipherCtx`, without its table of methods. -/
structure CryptEalCipherCtx (σ : Type) where
  states : EalCipherState
  ctx : σ

section Calls

variable {σ : Type} (method : EalCipherMethod σ)

def cryptEalCipherDeinit (ctx : CryptEalCipherCtx σ) : CryptEalCipherCtx σ :=
  ⟨.new, method.deinitCtx ctx.ctx⟩

def cryptEalCipherInit (ctx : CryptEalCipherCtx σ) (mem : Memory Byte) (key : Option Nat)
    (keyLen : Nat) (iv : Option Nat) (ivLen : Nat) (enc : Bool) : Int × CryptEalCipherCtx σ :=
  let ctx := cryptEalCipherDeinit method ctx
  let r := method.initCtx ctx.ctx mem key keyLen iv ivLen enc
  if r.1 ≠ cryptSuccess then (r.1, { ctx with ctx := r.2 })
  else (cryptSuccess, ⟨.init, r.2⟩)

def cryptEalCipherReinit (ctx : CryptEalCipherCtx σ) (mem : Memory Byte) (iv : Option Nat)
    (ivLen : Nat) : CtrlResult (CryptEalCipherCtx σ) :=
  if ctx.states = .new then ⟨cryptEalErrState, ctx, mem⟩
  else
    let r := method.ctrl ctx.ctx mem .reinitStatus iv ivLen
    if r.ret ≠ cryptSuccess then ⟨r.ret, { ctx with ctx := r.ctx }, r.mem⟩
    else ⟨cryptSuccess, ⟨.init, r.ctx⟩, r.mem⟩

def isPartialOverLap (out inp len : Nat) : Bool := inp < out && out - inp < len

def checkUpdateParam (ctx : CryptEalCipherCtx σ) (inp : Option Nat) (inLen : Nat)
    (out outLen : Option Nat) : Int :=
  if out = none ∨ outLen = none ∨ (inp = none ∧ inLen ≠ 0) then cryptNullInput
  else if inp ≠ none ∧ inLen ≠ 0 ∧ isPartialOverLap (out.getD 0) (inp.getD 0) inLen then
    cryptEalErrPartOverlap
  else if ¬ (ctx.states = .init ∨ ctx.states = .update) then cryptEalErrState
  else cryptSuccess

def cryptEalCipherUpdate (ctx : CryptEalCipherCtx σ) (mem : Memory Byte) (inp : Option Nat)
    (inLen : Nat) (out outLen : Option Nat) : UpdateResult (CryptEalCipherCtx σ) :=
  let ret := checkUpdateParam ctx inp inLen out outLen
  if ret ≠ cryptSuccess then ⟨ret, ctx, mem, outLen.getD 0⟩
  else
    let r := method.update ctx.ctx mem (inp.getD 0) inLen (out.getD 0) (outLen.getD 0)
    if r.ret ≠ cryptSuccess then ⟨r.ret, { ctx with ctx := r.ctx }, r.mem, r.outLen⟩
    else ⟨cryptSuccess, ⟨.update, r.ctx⟩, r.mem, r.outLen⟩

def checkFinalParam (ctx : CryptEalCipherCtx σ) (out outLen : Option Nat) : Int :=
  if out = none ∨ outLen = none then cryptNullInput
  else if ¬ (ctx.states = .update ∨ ctx.states = .init) then cryptEalErrState
  else cryptSuccess

def cryptEalCipherFinal (ctx : CryptEalCipherCtx σ) (mem : Memory Byte) (out outLen : Option Nat) :
    UpdateResult (CryptEalCipherCtx σ) :=
  let ret := checkFinalParam ctx out outLen
  if ret ≠ cryptSuccess then ⟨ret, ctx, mem, outLen.getD 0⟩
  else
    let r := method.final ctx.ctx mem (out.getD 0) (outLen.getD 0)
    if r.ret ≠ cryptSuccess then ⟨r.ret, { ctx with ctx := r.ctx }, r.mem, r.outLen⟩
    else ⟨cryptSuccess, ⟨.final, r.ctx⟩, r.mem, r.outLen⟩

def cipherCtrlIsCanSet (ctx : CryptEalCipherCtx σ) (type : CryptCipherCtrl) : Bool :=
  if ctx.states = .new then false
  else if ctx.states = .final then false
  else if ctx.states = .update ∧ (type = .setCount ∨ type = .setTaglen ∨ type = .setMsglen ∨
    type = .setAad) then false
  else true

def cryptEalCipherCtrl (ctx : CryptEalCipherCtx σ) (mem : Memory Byte) (type : CryptCipherCtrl)
    (data : Option Nat) (len : Nat) : CtrlResult (CryptEalCipherCtx σ) :=
  if type = .setIv ∨ type = .reinitStatus then ⟨cryptEalCipherCtrlError, ctx, mem⟩
  else if ¬ cipherCtrlIsCanSet ctx type then ⟨cryptEalErrState, ctx, mem⟩
  else
    let states := if type = .setAad then .update else if type = .getTag then .final else ctx.states
    let r := method.ctrl ctx.ctx mem type data len
    ⟨r.ret, ⟨states, r.ctx⟩, r.mem⟩

/-- An `int32_t` in memory, in the byte order of the machines that the code is built for. -/
def int32At (mem : Memory Byte) (p : Nat) : Int :=
  (ofBytes (mem (p + 3)) (mem (p + 2)) (mem (p + 1)) (mem p)).toInt

def int32Bytes (x : Int) : List Byte :=
  let w : Word := BitVec.ofInt 32 x
  [byteOf w 0, byteOf w 8, byteOf w 16, byteOf w 24]

theorem int32At_store (mem : Memory Byte) (p : Nat) (x : Int) :
    int32At (store mem p (int32Bytes x)) p = (BitVec.ofInt 32 x).toInt := by
  have entry (i : Nat) (h : i < 4) : store mem p (int32Bytes x) (p + i) =
      (int32Bytes x).get ⟨i, h⟩ := store_of_mem mem p i (int32Bytes x) h
  have first := entry 0 (by decide)
  rw [Nat.add_zero] at first
  rw [int32At, first, entry 1 (by decide), entry 2 (by decide), entry 3 (by decide)]
  exact congrArg BitVec.toInt (ofBytes_byteOf _)

/-- The local variable of the source is a memory of its own. -/
def cryptEalCipherSetPadding (ctx : CryptEalCipherCtx σ) (type : Int) :
    Int × CryptEalCipherCtx σ :=
  let r := method.ctrl ctx.ctx (store (fun _ => 0) 0 (int32Bytes type)) .setPadding (some 0) 4
  (r.ret, { ctx with ctx := r.ctx })

def cryptEalCipherGetPadding (ctx : CryptEalCipherCtx σ) : Int × CryptEalCipherCtx σ :=
  let r := method.ctrl ctx.ctx (fun _ => 0) .getPadding (some 0) 4
  (if r.ret ≠ cryptSuccess then cryptPaddingMaxCount else int32At r.mem 0,
    { ctx with ctx := r.ctx })

/-! ## Runs of calls -/

inductive Call
  | init (key : Option Nat) (keyLen : Nat) (iv : Option Nat) (ivLen : Nat) (enc : Bool)
  | deinit
  | reinit (iv : Option Nat) (ivLen : Nat)
  | update (inp : Option Nat) (inLen : Nat) (out outLen : Option Nat)
  | final (out outLen : Option Nat)
  | ctrl (type : CryptCipherCtrl) (data : Option Nat) (len : Nat)
  | setPadding (type : Int)
  | getPadding

def Call.perform (ctx : CryptEalCipherCtx σ) (mem : Memory Byte) :
    Call → UpdateResult (CryptEalCipherCtx σ)
  | .init key keyLen iv ivLen enc =>
    let r := cryptEalCipherInit method ctx mem key keyLen iv ivLen enc
    ⟨r.1, r.2, mem, 0⟩
  | .deinit => ⟨cryptSuccess, cryptEalCipherDeinit method ctx, mem, 0⟩
  | .reinit iv ivLen =>
    let r := cryptEalCipherReinit method ctx mem iv ivLen
    ⟨r.ret, r.ctx, r.mem, 0⟩
  | .update inp inLen out outLen => cryptEalCipherUpdate method ctx mem inp inLen out outLen
  | .final out outLen => cryptEalCipherFinal method ctx mem out outLen
  | .ctrl type data len =>
    let r := cryptEalCipherCtrl method ctx mem type data len
    ⟨r.ret, r.ctx, r.mem, 0⟩
  | .setPadding type =>
    let r := cryptEalCipherSetPadding method ctx type
    ⟨r.1, r.2, mem, 0⟩
  | .getPadding =>
    let r := cryptEalCipherGetPadding method ctx
    ⟨r.1, r.2, mem, 0⟩

/-- The context after some calls; between them the caller may change its memory. -/
def after (ctx : CryptEalCipherCtx σ) : List (Memory Byte × Call) → CryptEalCipherCtx σ
  | [] => ctx
  | (mem, call) :: rest => after (call.perform method ctx mem).ctx rest

def history (ctx : CryptEalCipherCtx σ) : List (Memory Byte × Call) → List (Call × Int)
  | [] => []
  | (mem, call) :: rest =>
    let r := call.perform method ctx mem
    (call, r.ret) :: history r.ctx rest

/-- Whether data may come next, by what the calls so far returned: an initialization opens a
message or leaves nothing open, and asking for the tag closes it also where it fails. -/
def opened (before : Bool) : Call × Int → Bool
  | (.init .., ret) => ret = cryptSuccess
  | (.deinit, _) => false
  | (.reinit .., ret) => before || ret = cryptSuccess
  | (.final .., ret) => before && ret ≠ cryptSuccess
  | (.ctrl type .., _) => before && type ≠ .getTag
  | (.update .., _) | (.setPadding _, _) | (.getPadding, _) => before

def EalCipherState.isOpen (states : EalCipherState) : Bool := states = .init || states = .update

theorem EalCipherState.isOpen_iff (states : EalCipherState) :
    states.isOpen = true ↔ states = .init ∨ states = .update := by
  cases states <;> simp [isOpen]

theorem checkUpdateParam_eq (ctx : CryptEalCipherCtx σ) {inp inLen out : Nat} (outLen : Nat)
    (apart : isPartialOverLap out inp inLen = false) :
    checkUpdateParam ctx (some inp) inLen (some out) (some outLen) =
      if ctx.states.isOpen then cryptSuccess else cryptEalErrState := by
  rw [checkUpdateParam, if_neg (by simp), if_neg (by simp [apart]), ite_not]
  exact if_congr ctx.states.isOpen_iff.symm rfl rfl

theorem checkFinalParam_eq (ctx : CryptEalCipherCtx σ) (out outLen : Nat) :
    checkFinalParam ctx (some out) (some outLen) =
      if ctx.states.isOpen then cryptSuccess else cryptEalErrState := by
  rw [checkFinalParam, if_neg (by simp), ite_not]
  exact if_congr (Or.comm.trans ctx.states.isOpen_iff.symm) rfl rfl

theorem isOpen_of_checkUpdateParam {ctx : CryptEalCipherCtx σ} {inp : Option Nat} {inLen : Nat}
    {out outLen : Option Nat} (ok : checkUpdateParam ctx inp inLen out outLen = cryptSuccess) :
    ctx.states.isOpen = true := by
  by_contra closed
  rw [ctx.states.isOpen_iff] at closed
  rw [checkUpdateParam, if_pos closed] at ok
  split_ifs at ok <;> exact absurd ok (by decide)

theorem isOpen_of_checkFinalParam {ctx : CryptEalCipherCtx σ} {out outLen : Option Nat}
    (ok : checkFinalParam ctx out outLen = cryptSuccess) : ctx.states.isOpen = true := by
  by_contra closed
  rw [ctx.states.isOpen_iff, or_comm] at closed
  rw [checkFinalParam, if_pos closed] at ok
  split_ifs at ok <;> exact absurd ok (by decide)

theorem Call.perform_opened (ctx : CryptEalCipherCtx σ) (mem : Memory Byte) (call : Call) :
    (call.perform method ctx mem).ctx.states.isOpen =
      opened ctx.states.isOpen (call, (call.perform method ctx mem).ret) := by
  obtain ⟨states, inner⟩ := ctx
  cases call with
  | init key keyLen iv ivLen enc =>
    simp only [perform, cryptEalCipherInit, opened]
    split_ifs with failed
    · exact (decide_eq_false failed).symm
    · rfl
  | deinit => rfl
  | reinit iv ivLen =>
    simp only [perform, cryptEalCipherReinit, opened]
    split_ifs with fresh failed
    · rw [fresh]
      rfl
    · simp [failed]
    · simp [EalCipherState.isOpen]
  | update inp inLen out outLen =>
    simp only [perform, cryptEalCipherUpdate, opened]
    split_ifs with refused failed
    · rfl
    · rfl
    · exact (isOpen_of_checkUpdateParam (not_not.mp refused)).symm
  | final out outLen =>
    simp only [perform, cryptEalCipherFinal, opened]
    split_ifs with refused failed
    · simp [refused]
    · simp [failed]
    · simp [EalCipherState.isOpen]
  | ctrl type data len =>
    by_cases tag : type = .getTag
    · subst tag
      cases states <;> rfl
    · by_cases aad : type = .setAad
      · subst aad
        cases states <;> rfl
      · simp only [perform, cryptEalCipherCtrl, opened, tag, aad, if_false, ne_eq,
          not_false_eq_true, decide_true, Bool.and_true]
        split_ifs <;> rfl
  | setPadding type => rfl
  | getPadding => rfl

theorem after_opened (ctx : CryptEalCipherCtx σ) (calls : List (Memory Byte × Call)) :
    (after method ctx calls).states.isOpen =
      (history method ctx calls).foldl opened ctx.states.isOpen := by
  induction calls generalizing ctx with
  | nil => rfl
  | cons first rest ih =>
    obtain ⟨mem, call⟩ := first
    rw [after, history, List.foldl_cons, ih, Call.perform_opened]

/-! ## Whole messages -/

structure UpdateCall where
  mem : Memory Byte
  inp : Nat
  inLen : Nat
  out : Nat
  outLen : Nat

def UpdateCall.piece (c : UpdateCall) : List Byte := load c.mem c.inp c.inLen

def UpdateCall.perform (ctx : CryptEalCipherCtx σ) (c : UpdateCall) :
    UpdateResult (CryptEalCipherCtx σ) :=
  cryptEalCipherUpdate method ctx c.mem (some c.inp) c.inLen (some c.out) (some c.outLen)

def updateAll (ctx : CryptEalCipherCtx σ) :
    List UpdateCall → Option (List Byte × CryptEalCipherCtx σ)
  | [] => some ([], ctx)
  | c :: rest =>
    let r := c.perform method ctx
    if r.ret ≠ cryptSuccess then none
    else (updateAll r.ctx rest).map fun later => (load r.mem c.out r.outLen ++ later.1, later.2)

/-- The arguments of the calls for one message, as a caller makes them in turn. -/
structure Message where
  mem : Memory Byte
  key : Option Nat
  keyLen : Nat
  iv : Nat
  ivLen : Nat
  padding : Option Int
  updates : List UpdateCall
  finalMem : Memory Byte
  finalOut : Nat
  finalOutLen : Nat

def Message.text (msg : Message) : List Byte := (msg.updates.map UpdateCall.piece).flatten

def Message.setPadding (ctx : CryptEalCipherCtx σ) (msg : Message) : Int × CryptEalCipherCtx σ :=
  match msg.padding with
  | none => (cryptSuccess, ctx)
  | some type => cryptEalCipherSetPadding method ctx type

def Message.proceed (ctx : CryptEalCipherCtx σ) (msg : Message) : Option (List Byte) :=
  let set := msg.setPadding method ctx
  if set.1 ≠ cryptSuccess then none
  else (updateAll method set.2 msg.updates).bind fun done =>
    let r := cryptEalCipherFinal method done.2 msg.finalMem (some msg.finalOut)
      (some msg.finalOutLen)
    if r.ret ≠ cryptSuccess then none else some (done.1 ++ load r.mem msg.finalOut r.outLen)

def Message.process (ctx : CryptEalCipherCtx σ) (enc : Bool) (msg : Message) : Option (List Byte) :=
  let init := cryptEalCipherInit method ctx msg.mem msg.key msg.keyLen (some msg.iv) msg.ivLen enc
  if init.1 ≠ cryptSuccess then none else msg.proceed method init.2

def Message.processAgain (ctx : CryptEalCipherCtx σ) (msg : Message) : Option (List Byte) :=
  let r := cryptEalCipherReinit method ctx msg.mem (some msg.iv) msg.ivLen
  if r.ret ≠ cryptSuccess then none else msg.proceed method r.ctx

end Calls

end SystemsLab.EalCipher
