import SystemsLab.Eal.Sm4Blocks

/-! Calls in any order. Which of them reach the mode follows from what the calls before them
returned, and no call but an initialization changes the key, so that a reinitialized
context serves a message as one with the same key that is initialized anew. -/

namespace SystemsLab.EalCallOrder
open ByteWord Textbook Buffer StreamMachine BlockStream Sm4Portable Sm4OpenHitls Sm4SetKey
open EalCipher ModesPadding ModesBlockCrypt ModesCipherUpdate ModesBlockModes EalBlockMessages
open EalSm4Blocks

/-! ## Calls that are let through -/

section Guards

variable {σ : Type} (method : EalCipherMethod σ)

/-- What the caller of an update or a final call sees of it. -/
def SameAs (r : UpdateResult (CryptEalCipherCtx σ)) (q : UpdateResult σ) : Prop :=
  r.ret = q.ret ∧ r.ctx.ctx = q.ctx ∧ r.mem = q.mem ∧ r.outLen = q.outLen

/-- After any calls on a new context, an update or a final call with sound pointers reaches the mode
exactly if the values that the calls returned leave a message open. Otherwise it is refused, and
changes nothing. -/
theorem calls_guarded {ctx : CryptEalCipherCtx σ} (new : ctx.states = .new)
    (calls : List (Memory Byte × Call)) (mem : Memory Byte) {inp inLen out : Nat} (outLen : Nat)
    (apart : isPartialOverLap out inp inLen = false) :
    let now := after method ctx calls
    let r := cryptEalCipherUpdate method now mem (some inp) inLen (some out) (some outLen)
    let f := cryptEalCipherFinal method now mem (some out) (some outLen)
    if (history method ctx calls).foldl opened false then
      SameAs r (method.update now.ctx mem inp inLen out outLen) ∧
        SameAs f (method.final now.ctx mem out outLen)
    else r = ⟨cryptEalErrState, now, mem, outLen⟩ ∧ f = ⟨cryptEalErrState, now, mem, outLen⟩ := by
  intro now r f
  have isOpen : now.states.isOpen = (history method ctx calls).foldl opened false := by
    rw [after_opened, new]
    rfl
  rw [← isOpen]
  have hr : r = cryptEalCipherUpdate method now mem (some inp) inLen (some out) (some outLen) := rfl
  have hf : f = cryptEalCipherFinal method now mem (some out) (some outLen) := rfl
  rw [cryptEalCipherUpdate, checkUpdateParam_eq now outLen apart] at hr
  rw [cryptEalCipherFinal, checkFinalParam_eq now out outLen] at hf
  split_ifs with ready
  · rw [if_pos ready] at hr hf
    simp only [ne_eq, not_true_eq_false, if_false, Option.getD_some] at hr hf
    have same (q : UpdateResult σ) (states : EalCipherState) :
        SameAs (if ¬ q.ret = cryptSuccess then ⟨q.ret, { now with ctx := q.ctx }, q.mem, q.outLen⟩
          else ⟨cryptSuccess, ⟨states, q.ctx⟩, q.mem, q.outLen⟩) q := by
      split_ifs with ok
      · exact ⟨ok.symm, rfl, rfl, rfl⟩
      · exact ⟨rfl, rfl, rfl, rfl⟩
    rw [hr, hf]
    exact ⟨same _ _, same _ _⟩
  · rw [if_neg ready] at hr hf
    rw [if_pos (by decide)] at hr hf
    exact ⟨hr, hf⟩

theorem calls_guarded_final :
    let method := BlockMode.cbc.method sm4Method
    let ctx : CryptEalCipherCtx (ModesCipherCtx CryptSm4Ctx) :=
      { sampleCtx .cbc with states := .new }
    let calls := [(sampleMem, Call.init (some 0) 16 (some 16) 16 true),
      (sampleMem, .final (some 64) (some 16))]
    let now := after method ctx calls
    let r := cryptEalCipherUpdate method now sampleMem (some 32) 16 (some 64) (some 16)
    let f := cryptEalCipherFinal method now sampleMem (some 64) (some 16)
    if (history method ctx calls).foldl opened false then
      SameAs r (method.update now.ctx sampleMem 32 16 64 16) ∧
        SameAs f (method.final now.ctx sampleMem 64 16)
    else r = ⟨cryptEalErrState, now, sampleMem, 16⟩ ∧ f = ⟨cryptEalErrState, now, sampleMem, 16⟩ :=
  calls_guarded _ rfl _ sampleMem 16 (by decide)

end Guards

/-! ## Calls that keep the key -/

variable {κ : Type} (m : EalSymMethod κ) (mode : BlockMode)

/-- Two contexts with the same key. In ECB mode nothing ever sets the chaining value. -/
structure SameKey (a b : ModesCipherCtx κ) : Prop where
  ciphCtx : a.commonCtx.ciphCtx = b.commonCtx.ciphCtx
  iv : mode = .ecb → a.commonCtx.iv = b.commonCtx.iv
  algId : a.algId = b.algId
  dataAt : a.dataAt = b.dataAt
  enc : a.enc = b.enc

variable {mode}

theorem SameKey.refl (ctx : ModesCipherCtx κ) : SameKey mode ctx ctx :=
  ⟨rfl, fun _ => rfl, rfl, rfl, rfl⟩

theorem SameKey.trans {a b c : ModesCipherCtx κ} (h : SameKey mode a b) (h' : SameKey mode b c) :
    SameKey mode a c :=
  ⟨h.ciphCtx.trans h'.ciphCtx, fun ecb => (h.iv ecb).trans (h'.iv ecb), h.algId.trans h'.algId,
    h.dataAt.trans h'.dataAt, h.enc.trans h'.enc⟩

variable (mode)

theorem blockUpdate_keeps (enc : Bool) (ctx : ModesCipherCommonCtx κ) (mem : Memory Byte) (p : Ptr)
    (out len : Nat) :
    let r := mode.blockUpdate m enc ctx mem p out len
    r.ctx.ciphCtx = ctx.ciphCtx ∧ (mode = .ecb → r.ctx.iv = ctx.iv) := by
  have crypt (enc : Bool) : (modesEcbCrypt m ctx mem p out len enc).ctx = ctx := by
    rw [modesEcbCrypt]
    split_ifs <;> rfl
  cases mode with
  | ecb => cases enc with
    | false => exact ⟨congrArg (·.ciphCtx) (crypt false), fun _ => congrArg (·.iv) (crypt false)⟩
    | true => exact ⟨congrArg (·.ciphCtx) (crypt true), fun _ => congrArg (·.iv) (crypt true)⟩
  | cbc => cases enc with
    | false =>
      refine ⟨?_, by rintro ⟨⟩⟩
      show (modesCbcDecrypt m ctx mem p out len).ctx.ciphCtx = ctx.ciphCtx
      rw [modesCbcDecrypt]
      split_ifs <;> rfl
    | true =>
      refine ⟨?_, by rintro ⟨⟩⟩
      show (modesCbcEncrypt m ctx mem p out len).ctx.ciphCtx = ctx.ciphCtx
      rw [modesCbcEncrypt]
      split_ifs <;> rfl

theorem processCache_keeps (enc : Bool) (ctx : ModesCipherCtx κ) (mem : Memory Byte)
    (inp inLen out outLen : Nat) :
    SameKey mode (processCache (mode.blockUpdate m enc) ctx mem inp inLen out outLen).ctx ctx := by
  have call := blockUpdate_keeps m mode enc ctx.commonCtx mem (.own ctx.data ctx.dataAt) out 16
  rw [processCache]
  split_ifs
  · exact SameKey.refl ctx
  · exact SameKey.refl ctx
  · simp only
    split_ifs <;> exact ⟨call.1, call.2, rfl, rfl, rfl⟩

theorem modesCipherUpdateRest_keeps (enc : Bool) (c : CacheResult κ) :
    SameKey mode (modesCipherUpdateRest (mode.blockUpdate m enc) c).ctx c.ctx := by
  have call (len : Nat) (r : BlockResult κ) (h : (if 0 < len then
      mode.blockUpdate m enc c.ctx.commonCtx c.mem (.shared c.inp) c.out len
      else ⟨cryptSuccess, c.ctx.commonCtx, c.mem⟩) = r) :
      r.ctx.ciphCtx = c.ctx.commonCtx.ciphCtx ∧ (mode = .ecb → r.ctx.iv = c.ctx.commonCtx.iv) := by
    rw [← h]
    split_ifs
    · exact blockUpdate_keeps m mode enc c.ctx.commonCtx c.mem (.shared c.inp) c.out len
    · exact ⟨rfl, fun _ => rfl⟩
  rw [modesCipherUpdateRest]
  by_cases none : c.inLen = 0
  · rw [if_pos none]
    exact SameKey.refl c.ctx
  · rw [if_neg none]
    dsimp only
    generalize hr : (if 0 < _ then mode.blockUpdate m enc c.ctx.commonCtx c.mem (.shared c.inp)
      c.out _ else _) = r
    obtain ⟨ciphCtx, iv⟩ := call _ r hr
    by_cases failed : r.ret ≠ cryptSuccess
    · rw [if_pos failed]
      exact ⟨ciphCtx, iv, rfl, rfl, rfl⟩
    · rw [if_neg failed]
      dsimp only
      split_ifs <;> exact ⟨ciphCtx, iv, rfl, rfl, rfl⟩

theorem modesCipherUpdate_keeps (enc : Bool) (ctx : ModesCipherCtx κ) (mem : Memory Byte)
    (inp inLen out outLen : Nat) :
    SameKey mode (modesCipherUpdate (mode.blockUpdate m enc) ctx mem inp inLen out outLen).ctx
      ctx := by
  have filled : SameKey mode (if cachePadding ctx inLen ≠ 0
      then fillCache ctx mem inp (cachePadding ctx inLen) else ctx) ctx := by
    split_ifs <;> exact ⟨rfl, fun _ => rfl, rfl, rfl, rfl⟩
  obtain ⟨c, hc⟩ : ∃ c, c =
    modesCipherUpdateCache (mode.blockUpdate m enc) ctx mem inp inLen out 0 := ⟨_, rfl⟩
  have cached : SameKey mode c.ctx ctx := by
    rw [hc]
    exact (processCache_keeps m mode enc _ mem _ _ out 0).trans filled
  simp only [modesCipherUpdate, ← hc]
  split_ifs
  · exact SameKey.refl ctx
  · exact cached
  · exact (modesCipherUpdateRest_keeps m mode enc c).trans cached

theorem modesCipherFinal_keeps (enc : Bool) (ctx : ModesCipherCtx κ) (mem : Memory Byte)
    (out outLen : Nat) :
    SameKey mode (modesCipherFinal (mode.blockUpdate m enc) ctx mem (some out) (some outLen)).ctx
      ctx := by
  rw [modesCipherFinal]
  split_ifs with short direction
  · exact SameKey.refl ctx
  · generalize modesBlockPadding ctx.algId ctx.pad 16 ctx.data ctx.dataLen = p
    have call := blockUpdate_keeps m mode enc ctx.commonCtx mem (.own p.data ctx.dataAt) out
      p.dataLen
    dsimp only
    split_ifs
    · exact ⟨rfl, fun _ => rfl, rfl, rfl, rfl⟩
    · exact ⟨rfl, fun _ => rfl, rfl, rfl, rfl⟩
    · exact ⟨call.1, call.2, rfl, rfl, rfl⟩
    · exact ⟨call.1, call.2, rfl, rfl, rfl⟩
  · exact SameKey.refl ctx
  · have call := blockUpdate_keeps m mode enc ctx.commonCtx mem (.own ctx.data ctx.dataAt) out
      ctx.dataLen
    dsimp only
    split_ifs
    · exact ⟨call.1, call.2, rfl, rfl, rfl⟩
    · split <;> exact ⟨call.1, call.2, rfl, rfl, rfl⟩

theorem modesSetIv_ciphCtx (ctx : ModesCipherCommonCtx κ) (mem : Memory Byte) (val : Option Nat)
    (len : Nat) : (modesSetIv ctx mem val len).2.ciphCtx = ctx.ciphCtx := by
  cases val with
  | none => rfl
  | some val =>
    rw [modesSetIv]
    split_ifs <;> rfl

theorem ctrl_keeps (ctx : ModesCipherCtx κ) (mem : Memory Byte) (type : CryptCipherCtrl)
    (data : Option Nat) (len : Nat) :
    SameKey mode ((mode.method m).ctrl ctx mem type data len).ctx ctx := by
  have same (ctx' : ModesCipherCtx κ) (common : ctx'.commonCtx = ctx.commonCtx)
      (algId : ctx'.algId = ctx.algId) (dataAt : ctx'.dataAt = ctx.dataAt)
      (enc : ctx'.enc = ctx.enc) : SameKey mode ctx' ctx :=
    ⟨congrArg (·.ciphCtx) common, fun _ => congrArg (·.iv) common, algId, dataAt, enc⟩
  have padding : SameKey mode (setPadding ctx mem data).ctx ctx := by
    rw [setPadding]
    split <;> exact same _ rfl rfl rfl rfl
  have size (refused : Int) : SameKey mode (getBlockSize refused ctx mem data len).ctx ctx := by
    cases data with
    | none => exact same _ rfl rfl rfl rfl
    | some p =>
      rw [getBlockSize]
      split_ifs <;> exact same _ rfl rfl rfl rfl
  have again : SameKey .cbc (modesCipherCtrl ctx mem .reinitStatus data len).ctx ctx :=
    ⟨modesSetIv_ciphCtx _ mem data len, by rintro ⟨⟩, rfl, rfl, rfl⟩
  cases mode <;> cases type
  case ecb.setPadding | cbc.setPadding => exact padding
  case ecb.getBlocksize | cbc.getBlocksize => exact size _
  case cbc.reinitStatus => exact again
  all_goals exact same _ rfl rfl rfl rfl

def KeepsKey : Call → Prop
  | .init .. | .deinit => False
  | _ => True

theorem perform_keeps (ctx : CryptEalCipherCtx (ModesCipherCtx κ)) (mem : Memory Byte) {call : Call}
    (keeps : KeepsKey call) :
    let r := call.perform (mode.method m) ctx mem
    SameKey mode r.ctx.ctx ctx.ctx ∧ (r.ctx.states = .new ↔ ctx.states = .new) := by
  cases call with
  | init | deinit => exact keeps.elim
  | reinit iv ivLen =>
    have same := ctrl_keeps m mode ctx.ctx mem .reinitStatus iv ivLen
    simp only [Call.perform, cryptEalCipherReinit]
    split_ifs with fresh
    · exact ⟨SameKey.refl _, Iff.rfl⟩
    · exact ⟨same, Iff.rfl⟩
    · exact ⟨same, iff_of_false (by rintro ⟨⟩) fresh⟩
  | update inp inLen out outLen =>
    have same := modesCipherUpdate_keeps m mode ctx.ctx.enc ctx.ctx mem (inp.getD 0) inLen
      (out.getD 0) (outLen.getD 0)
    rw [← mode.method_update] at same
    simp only [Call.perform, cryptEalCipherUpdate]
    split_ifs with refused
    · exact ⟨SameKey.refl _, Iff.rfl⟩
    · exact ⟨same, Iff.rfl⟩
    · refine ⟨same, iff_of_false (by rintro ⟨⟩) fun fresh => ?_⟩
      have ready := isOpen_of_checkUpdateParam (not_not.mp refused)
      rw [fresh] at ready
      cases ready
  | final out outLen =>
    have same := modesCipherFinal_keeps m mode ctx.ctx.enc ctx.ctx mem (out.getD 0) (outLen.getD 0)
    rw [← mode.method_final] at same
    simp only [Call.perform, cryptEalCipherFinal]
    split_ifs with refused
    · exact ⟨SameKey.refl _, Iff.rfl⟩
    · exact ⟨same, Iff.rfl⟩
    · refine ⟨same, iff_of_false (by rintro ⟨⟩) fun fresh => ?_⟩
      have ready := isOpen_of_checkFinalParam (not_not.mp refused)
      rw [fresh] at ready
      cases ready
  | ctrl type data len =>
    have same := ctrl_keeps m mode ctx.ctx mem type data len
    have used (allowed : cipherCtrlIsCanSet ctx type = true) : ctx.states ≠ .new := by
      intro fresh
      rw [cipherCtrlIsCanSet, if_pos fresh] at allowed
      cases allowed
    simp only [Call.perform, cryptEalCipherCtrl]
    split_ifs with internal allowed aad tag
    · exact ⟨SameKey.refl _, Iff.rfl⟩
    · exact ⟨same, iff_of_false (by rintro ⟨⟩) (used allowed)⟩
    · exact ⟨same, iff_of_false (by rintro ⟨⟩) (used allowed)⟩
    · exact ⟨same, Iff.rfl⟩
    · exact ⟨SameKey.refl _, Iff.rfl⟩
  | setPadding type => exact ⟨ctrl_keeps m mode ctx.ctx _ .setPadding (some 0) 4, Iff.rfl⟩
  | getPadding => exact ⟨ctrl_keeps m mode ctx.ctx _ .getPadding (some 0) 4, Iff.rfl⟩

theorem after_keeps (ctx : CryptEalCipherCtx (ModesCipherCtx κ)) {calls : List (Memory Byte × Call)}
    (keeps : ∀ a ∈ calls, KeepsKey a.2) :
    SameKey mode (after (mode.method m) ctx calls).ctx ctx.ctx ∧
      ((after (mode.method m) ctx calls).states = .new ↔ ctx.states = .new) := by
  induction calls generalizing ctx with
  | nil => exact ⟨SameKey.refl _, Iff.rfl⟩
  | cons first rest ih =>
    obtain ⟨mem, call⟩ := first
    have one := perform_keeps m mode ctx mem (keeps _ List.mem_cons_self)
    have more := ih (call.perform (mode.method m) ctx mem).ctx
      fun a mem => keeps a (List.mem_cons_of_mem _ mem)
    exact ⟨more.1.trans one.1, more.2.trans one.2⟩

/-! ## Messages with the same key -/

variable {mode} {enc : Bool} {padding : CryptPaddingType} {k : κ}

theorem ctrl_reinit {ctx : ModesCipherCtx κ}
    (start : mode = .ecb → ctx.commonCtx.iv = Vector.replicate 16 0) (mem : Memory Byte)
    (iv : Nat) :
    (mode.method m).ctrl ctx mem .reinitStatus (some iv) 16 =
      ⟨cryptSuccess, { clearData ctx with
        commonCtx := { ctx.commonCtx with iv := mode.start (read 16 mem iv) } }, mem⟩ := by
  cases mode with
  | ecb =>
    rw [BlockMode.start, ← start rfl]
    rfl
  | cbc => rfl

theorem reinit_running {ctx : CryptEalCipherCtx (ModesCipherCtx κ)} (used : ctx.states ≠ .new)
    (kind : ifXts ctx.ctx.algId = false) (start : mode = .ecb →
      ctx.ctx.commonCtx.iv = Vector.replicate 16 0) (mem : Memory Byte) (iv : Nat)
    {ivLen : Nat} (length : ivLen = 16) :
    let r := cryptEalCipherReinit (mode.method m) ctx mem (some iv) ivLen
    r.ret = cryptSuccess ∧ Running r.ctx ctx.ctx.enc .none ctx.ctx.commonCtx.ciphCtx
      ctx.ctx.dataAt ⟨mode.start (read 16 mem iv), []⟩ := by
  simp only [cryptEalCipherReinit, if_neg used, length, ctrl_reinit m start, ne_eq,
    not_true_eq_false, if_false]
  exact ⟨trivial, rfl, rfl, rfl, rfl, rfl, rfl, kind, settled_nil _ _⟩

/-- After an initialization for another chaining value and any calls that set no key, failed ones
included, a reinitialized context puts out for a message what any context does that is
initialized for it. -/
theorem processAgain_eq {key iv : Block} {text : List Byte}
    {ctx ctx' : CryptEalCipherCtx (ModesCipherCtx CryptSm4Ctx)} {msg msg' : Message}
    (h : Carries mode enc padding key iv text ctx msg)
    (h' : Carries mode enc padding key iv text ctx' msg') {mem₀ : Memory Byte} {key₀ : Nat}
    (given : read 16 mem₀ key₀ = key) (iv₀ : Nat) {calls : List (Memory Byte × Call)}
    (keeps : ∀ a ∈ calls, KeepsKey a.2) :
    let method := mode.method sm4Method
    let begun := cryptEalCipherInit method ctx mem₀ (some key₀) 16 (some iv₀) 16 enc
    msg.processAgain method (after method begun.2 calls) = msg'.process method ctx' enc := by
  intro method begun
  have kind : ifXts ctx.ctx.algId = false := by
    rw [h.algId]
    cases mode <;> rfl
  have keyed := setKey_eq enc ctx.ctx.commonCtx.ciphCtx mem₀ key₀
  rw [given] at keyed
  obtain ⟨ret, running⟩ := init_running sm4Method mode kind keyed iv₀ (rfl : 16 = 16)
  obtain ⟨same, used⟩ := after_keeps sm4Method mode begun.2 keeps
  have open' : begun.2.states ≠ .new := by
    intro fresh
    have states := running.states
    rw [show _ = EalCipherState.new from fresh] at states
    cases states
  have start : mode = .ecb →
      (after method begun.2 calls).ctx.commonCtx.iv = Vector.replicate 16 0 := by
    rintro rfl
    exact (same.iv rfl).trans (congrArg Waiting.state running.waiting)
  obtain ⟨ret', again⟩ := reinit_running sm4Method (fun new => open' (used.mp new))
    (by rw [same.algId]; exact running.kind) start msg.mem msg.iv h.fits.ivLen
  rw [show _ = enc from same.enc.trans running.direction,
    show _ = keyCtx key from same.ciphCtx.trans running.key,
    show _ = ctx.ctx.dataAt from same.dataAt.trans running.dataAt] at again
  rw [h'.process_eq, ← h.process_eq, process_eq sm4Method mode kind h.keyed h.fits,
    Message.processAgain, if_neg (not_not.mpr ret')]
  exact again.proceed sm4Method mode h.fits

/-- The first initialization is with zeros for the chaining value. A failed final call, a change of
the padding and a message without end come between. -/
theorem processAgain_eq_after_failure :
    let method := BlockMode.cbc.method sm4Method
    let msg := sample .pkcs7 sampleMem [5, 15]
    let first : Memory Byte := fun a => if a < 16 then sampleMem a else 0
    let begun := cryptEalCipherInit method (sampleCtx .cbc) first (some 0) 16 (some 16) 16 true
    msg.processAgain method (after method begun.2 [
        (sampleMem, .update (some 32) 3 (some 64) (some 16)),
        (sampleMem, .final none none), (sampleMem, .setPadding 9), (sampleMem, .getPadding),
        (sampleMem, .ctrl .getTag none 0), (sampleMem, .reinit none 16),
        (sampleMem, .update (some 32) 16 (some 64) (some 16))]) =
      (sample .pkcs7 sampleMem [16, 0, 4]).process method (sampleCtx .cbc) true := by
  intro method msg first begun
  have given : read 16 first 0 = read 16 sampleMem 0 := by decide
  have whole := sample_carries .cbc true .pkcs7 sampleMem (by decide : [16, 0, 4].sum ≤ 48)
  rw [show [16, 0, 4].sum = [5, 15].sum from rfl] at whole
  refine processAgain_eq (sample_carries .cbc true .pkcs7 sampleMem (by decide : [5, 15].sum ≤ 48))
    whole given 16 ?_
  simp [KeepsKey]

end SystemsLab.EalCallOrder
