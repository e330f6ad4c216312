import SystemsLab.Modes.StreamModes

/-! Messages in the CTR, OFB and CFB modes through the cipher interface. An update either feeds its
piece to the machine of the mode or changes nothing at all, so that a caller may try again
with other buffers. -/

namespace SystemsLab.EalStreamMessages
open ByteWord Textbook Buffer StreamMachine WindowStream Sm4OpenHitls EalCipher ModesBlockCrypt
open ModesStreamCrypt ModesCfbBits ModesStreamModes

variable {κ : Type}

/-! ## Calls -/

/-- An update that is served: it has the room, and its output does not run ahead into its input. -/
def Fits (c : UpdateCall) : Prop := ¬ (c.inp < c.out ∧ c.out < c.inp + c.inLen) ∧ c.inLen ≤ c.outLen

instance : DecidablePred Fits := fun _ => inferInstanceAs (Decidable (_ ∧ _))

theorem Fits.clear {c : UpdateCall} (fits : Fits c) : Clear c.inp c.out c.inLen := by
  have apart := fits.1
  unfold Clear
  omega

/-- `CRYPT_CTRL_SET_FEEDBACKSIZE`; the local variable of the caller is a memory of its own. -/
def setFeedback (method : EalCipherMethod (StreamModeCtx κ))
    (ctx : CryptEalCipherCtx (StreamModeCtx κ)) (feedback : Option Nat) :
    Int × CryptEalCipherCtx (StreamModeCtx κ) :=
  match feedback with
  | none => (cryptSuccess, ctx)
  | some bits =>
    let r := cryptEalCipherCtrl method ctx (store (fun _ => 0) 0 (int32Bytes bits))
      .setFeedbacksize (some 0) 4
    (r.ret, r.ctx)

def process (method : EalCipherMethod (StreamModeCtx κ)) (ctx : CryptEalCipherCtx (StreamModeCtx κ))
    (enc : Bool) (feedback : Option Nat) (msg : Message) : Option (List Byte) :=
  let init := cryptEalCipherInit method ctx msg.mem msg.key msg.keyLen (some msg.iv) msg.ivLen enc
  if init.1 ≠ cryptSuccess then none
  else
    let set := setFeedback method init.2 feedback
    if set.1 ≠ cryptSuccess then none else msg.proceed method set.2

/-- Updates in a row, some of which may be refused; what the others put out. -/
def attemptAll (method : EalCipherMethod (StreamModeCtx κ))
    (ctx : CryptEalCipherCtx (StreamModeCtx κ)) :
    List UpdateCall → List Byte × CryptEalCipherCtx (StreamModeCtx κ)
  | [] => ([], ctx)
  | c :: rest =>
    let r := c.perform method ctx
    let later := attemptAll method r.ctx rest
    (if r.ret ≠ cryptSuccess then later.1 else load r.mem c.out r.outLen ++ later.1, later.2)

/-! ## A context in the middle of a message -/

structure Running (mode : StreamMode) (ctx : CryptEalCipherCtx (StreamModeCtx κ)) (enc : Bool)
    (s : StreamCore κ × Nat) : Prop where
  states : ctx.states.isOpen = true
  view : ctx.ctx.commonCtx.view = s
  direction : ctx.ctx.enc = enc
  set : mode.Set ctx.ctx

section Messages

variable (m : EalSymMethod κ) (mode : StreamMode)
  {ctx : CryptEalCipherCtx (StreamModeCtx κ)} {enc : Bool} {s : StreamCore κ × Nat}

theorem Running.update (h : Running mode ctx enc s) {c : UpdateCall} (fits : Fits c) :
    let r := c.perform (mode.method m) ctx
    let u := (mode.machine m enc).feed s (load c.mem c.inp (mode.reach c.inLen))
    r.ret = cryptSuccess ∧ r.outLen = c.inLen ∧ r.mem = store c.mem c.out u.1 ∧
      Running mode r.ctx enc u.2 := by
  intro r u
  obtain ⟨states, here, rfl, set⟩ := h
  have apart : isPartialOverLap c.out c.inp c.inLen = false := by
    have behind := fits.1
    simp only [isPartialOverLap, Bool.and_eq_false_iff, decide_eq_false_iff_not]
    omega
  have check : checkUpdateParam ctx (some c.inp) c.inLen (some c.out) (some c.outLen) =
      cryptSuccess := by
    rw [checkUpdateParam_eq ctx c.outLen apart, if_pos states]
  obtain ⟨common, view, call⟩ := mode.update_eq m set c.mem fits.clear fits.2
  rw [here] at view call
  have result : r = ⟨cryptSuccess, ⟨.update, { ctx.ctx with commonCtx := common }⟩,
      store c.mem c.out u.1, c.inLen⟩ := by
    show cryptEalCipherUpdate _ _ _ _ _ _ _ = _
    simp only [cryptEalCipherUpdate, check, call, ne_eq, not_true_eq_false, if_false,
      Option.getD_some]
    rfl
  rw [result]
  exact ⟨rfl, rfl, rfl, rfl, view, rfl, set⟩

theorem Running.update_whole (h : Running mode ctx enc s) {c : UpdateCall}
    (short : mode.reach c.inLen = c.inLen) (fits : Fits c) :
    let r := c.perform (mode.method m) ctx
    let u := (mode.machine m enc).feed s c.piece
    r.ret = cryptSuccess ∧ load r.mem c.out r.outLen = u.1 ∧ Running mode r.ctx enc u.2 := by
  intro r u
  obtain ⟨ret, outLen, mem, running⟩ := h.update m mode fits
  rw [short] at mem running
  have length : u.1.length = c.inLen :=
    (Transducer.length_feed _ _ _ (Nat.one_dvd _)).trans (length_load _ _ _)
  refine ⟨ret, ?_, running⟩
  rw [outLen, mem]
  exact load_store _ _ _ length

theorem Running.refused (h : Running mode ctx enc s) {c : UpdateCall} (not : ¬ Fits c) :
    let r := c.perform (mode.method m) ctx
    r.ret ≠ cryptSuccess ∧ r.mem = c.mem ∧ r.ctx = ctx := by
  intro r
  have call : r = cryptEalCipherUpdate (mode.method m) ctx c.mem (some c.inp) c.inLen
    (some c.out) (some c.outLen) := rfl
  rw [cryptEalCipherUpdate] at call
  by_cases apart : isPartialOverLap c.out c.inp c.inLen = false
  · have behind : ¬ (c.inp < c.out ∧ c.out < c.inp + c.inLen) := by
      simp only [isPartialOverLap, Bool.and_eq_false_iff, decide_eq_false_iff_not] at apart
      omega
    have short : c.outLen < c.inLen := Nat.not_le.mp fun room => not ⟨behind, room⟩
    have check : checkUpdateParam ctx (some c.inp) c.inLen (some c.out) (some c.outLen) =
        cryptSuccess := by
      rw [checkUpdateParam_eq ctx c.outLen apart, if_pos h.states]
    simp only [check, ne_eq, not_true_eq_false, if_false, Option.getD_some,
      mode.update_short m h.set c.mem c.inp c.out short] at call
    rw [if_pos (by decide)] at call
    rw [call]
    exact ⟨(by decide : cryptModeBuffLenNotEnough ≠ cryptSuccess), rfl, rfl⟩
  · have ahead : isPartialOverLap c.out c.inp c.inLen = true := by simpa using apart
    have nonempty : c.inLen ≠ 0 := by
      simp only [isPartialOverLap, Bool.and_eq_true, decide_eq_true_eq] at ahead
      omega
    have check : checkUpdateParam ctx (some c.inp) c.inLen (some c.out) (some c.outLen) =
        cryptEalErrPartOverlap := by
      rw [checkUpdateParam, if_neg (by simp), if_pos ⟨by simp, nonempty, ahead⟩]
    rw [check, if_pos (by decide)] at call
    rw [call]
    exact ⟨(by decide : cryptEalErrPartOverlap ≠ cryptSuccess), rfl, rfl⟩

/-- What the served updates put out is the machine on their pieces, whatever is refused between. -/
theorem Running.attempts (h : Running mode ctx enc s) {calls : List UpdateCall}
    (short : ∀ c ∈ calls, mode.reach c.inLen = c.inLen) :
    let r := attemptAll (mode.method m) ctx calls
    let u := (mode.machine m enc).feed s ((calls.filter Fits).map UpdateCall.piece).flatten
    r.1 = u.1 ∧ Running mode r.2 enc u.2 := by
  induction calls generalizing ctx s with
  | nil =>
    have nothing : (([] : List UpdateCall).map UpdateCall.piece).flatten = [] := rfl
    rw [List.filter_nil, nothing, Transducer.feed_nil]
    exact ⟨rfl, h⟩
  | cons c rest ih =>
    have later : ∀ c ∈ rest, mode.reach c.inLen = c.inLen :=
      fun d mem => short d (List.mem_cons_of_mem c mem)
    by_cases fits : Fits c
    · obtain ⟨ret, put, running⟩ := h.update_whole m mode (short c List.mem_cons_self) fits
      obtain ⟨out, last⟩ := ih running later
      have kept : ((c :: rest).filter Fits) = c :: rest.filter Fits :=
        List.filter_cons_of_pos (by simpa using fits)
      rw [kept, List.map_cons, List.flatten_cons, Transducer.feed_append _ _ _ _ (Nat.one_dvd _)]
      simp only [attemptAll, if_neg (not_not.mpr ret), put, out]
      exact ⟨trivial, last⟩
    · obtain ⟨ret, -, same⟩ := h.refused m mode fits
      have dropped : ((c :: rest).filter Fits) = rest.filter Fits :=
        List.filter_cons_of_neg (by simpa using fits)
      rw [dropped]
      simp only [attemptAll, if_pos ret, same]
      exact ih h later

theorem Running.updates (h : Running mode ctx enc s) {calls : List UpdateCall}
    (short : ∀ c ∈ calls, mode.reach c.inLen = c.inLen) :
    let u := (mode.machine m enc).feed s (calls.map UpdateCall.piece).flatten
    if ∀ c ∈ calls, Fits c then
      ∃ ctx', updateAll (mode.method m) ctx calls = some (u.1, ctx') ∧ Running mode ctx' enc u.2
    else updateAll (mode.method m) ctx calls = none := by
  induction calls generalizing ctx s with
  | nil =>
    have nothing : (([] : List UpdateCall).map UpdateCall.piece).flatten = [] := rfl
    rw [if_pos (by simp), nothing, Transducer.feed_nil]
    exact ⟨ctx, rfl, h⟩
  | cons c rest ih =>
    have later : ∀ c ∈ rest, mode.reach c.inLen = c.inLen :=
      fun d mem => short d (List.mem_cons_of_mem c mem)
    simp only [List.forall_mem_cons]
    by_cases fits : Fits c
    · obtain ⟨ret, put, running⟩ := h.update_whole m mode (short c List.mem_cons_self) fits
      have next := ih running later
      rw [List.map_cons, List.flatten_cons, Transducer.feed_append _ _ _ _ (Nat.one_dvd _)]
      simp only [fits, true_and, updateAll, if_neg (not_not.mpr ret), put]
      split_ifs at next ⊢ with all
      · obtain ⟨ctx', done, last⟩ := next
        exact ⟨ctx', by rw [done]; rfl, last⟩
      · rw [next]
        rfl
    · obtain ⟨ret, -, -⟩ := h.refused m mode fits
      rw [if_neg (fun all => fits all.1), updateAll, if_pos ret]

theorem Running.proceed (h : Running mode ctx enc s) {msg : Message} (bare : msg.padding = none)
    (short : ∀ c ∈ msg.updates, mode.reach c.inLen = c.inLen) :
    msg.proceed (mode.method m) ctx =
      if ∀ c ∈ msg.updates, Fits c then some ((mode.machine m enc).feed s msg.text).1
      else none := by
  have run := h.updates m mode short
  have set : msg.setPadding (mode.method m) ctx = (cryptSuccess, ctx) := by
    rw [Message.setPadding, bare]
  rw [Message.proceed, set]
  simp only [ne_eq, not_true_eq_false, if_false]
  split_ifs at run ⊢ with all
  · obtain ⟨ctx', done, last⟩ := run
    have check :
        checkFinalParam ctx' (some msg.finalOut) (some msg.finalOutLen) = cryptSuccess := by
      rw [checkFinalParam_eq, if_pos last.states]
    have nothing : load msg.finalMem msg.finalOut 0 = [] := rfl
    rw [done, Option.bind_some, cryptEalCipherFinal, check]
    simp only [ne_eq, not_true_eq_false, if_false, Option.getD_some, mode.method_final, nothing,
      List.append_nil]
    rfl
  · rw [run]
    rfl

/-! ## Initialization -/

/-- The mode is chosen by a control call, or was chosen already in an earlier message. -/
def Chosen (ctx : CryptEalCipherCtx (StreamModeCtx κ)) (feedback : Option Nat) : Prop :=
  feedback = mode.feedbackBits ∨ (feedback = none ∧ mode.Set ctx.ctx)

def Keyed (ctx : CryptEalCipherCtx (StreamModeCtx κ)) (msg : Message) (k : κ) : Prop :=
  m.setEncryptKey (m.cipherDeInitCtx ctx.ctx.commonCtx.ciphCtx) msg.mem msg.key msg.keyLen =
    (cryptSuccess, k)

def start (k : κ) (iv : Block) : StreamCore κ × Nat := (⟨k, iv, Vector.replicate 16 0⟩, 0)

theorem uint32At_store {bits : Nat} (small : bits < 2 ^ 31) :
    uint32At (store (fun _ => 0) 0 (int32Bytes bits)) 0 = bits := by
  have entry (i : Nat) (h : i < 4) : store (fun _ => 0) 0 (int32Bytes bits) (0 + i) =
      (int32Bytes bits).get ⟨i, h⟩ := store_of_mem _ 0 i (int32Bytes bits) h
  rw [uint32At, entry 0 (by decide), entry 1 (by decide), entry 2 (by decide), entry 3 (by decide)]
  refine (congrArg BitVec.toNat (ofBytes_byteOf _)).trans ?_
  rw [BitVec.ofInt_natCast, BitVec.toNat_ofNat]
  omega

theorem setFeedback_cfb {ctx : CryptEalCipherCtx (StreamModeCtx κ)} (states : ctx.states = .init)
    {bits : Nat} (known : bits = 1 ∨ bits = 8 ∨ bits = 64 ∨ bits = 128) :
    setFeedback (cfbMethod m) ctx (some bits) =
      (cryptSuccess, ⟨ctx.states, { ctx.ctx with feedbackBits := bits }⟩) := by
  have can : cipherCtrlIsCanSet ctx .setFeedbacksize = true := by
    simp [cipherCtrlIsCanSet, states]
  obtain ⟨mem, hm⟩ : ∃ mem, mem = store (fun _ => 0) 0 (int32Bytes bits) := ⟨_, rfl⟩
  have value : uint32At mem 0 = bits := hm ▸ uint32At_store (by omega)
  have call : setFeedbackSize ctx.ctx mem (some 0) 4 =
      ⟨cryptSuccess, { ctx.ctx with feedbackBits := bits }, mem⟩ := by
    have byte : bits % 2 ^ 8 = bits := Nat.mod_eq_of_lt (by omega)
    simp only [setFeedbackSize, value, byte, ne_eq, not_true_eq_false, if_false]
    rw [if_neg (by omega), if_neg (by omega)]
  simp only [setFeedback, ← hm, cryptEalCipherCtrl, can, cfbMethod, modesCfbCtrl, call,
    reduceCtorEq, or_self, not_true_eq_false, if_false]

theorem setFeedback_eq {ctx : CryptEalCipherCtx (StreamModeCtx κ)} (states : ctx.states = .init)
    {feedback : Option Nat} (chosen : Chosen mode ctx feedback) :
    ∃ bits, setFeedback (mode.method m) ctx feedback =
        (cryptSuccess, ⟨ctx.states, { ctx.ctx with feedbackBits := bits }⟩) ∧
      mode.Set { ctx.ctx with feedbackBits := bits } := by
  have kept (none : feedback = none) (set : mode.Set ctx.ctx) :
      ∃ bits, setFeedback (mode.method m) ctx feedback =
          (cryptSuccess, ⟨ctx.states, { ctx.ctx with feedbackBits := bits }⟩) ∧
        mode.Set { ctx.ctx with feedbackBits := bits } :=
    ⟨ctx.ctx.feedbackBits, by rw [none]; rfl, set⟩
  have set_ (bits : Nat) (size : mode.feedbackBits = some bits) :
      mode.Set { ctx.ctx with feedbackBits := bits } := by
    intro other same
    exact Option.some.inj (size.symm.trans same)
  rcases chosen with rfl | ⟨none, set⟩
  · cases mode with
    | ctr => exact kept rfl (by rintro _ ⟨⟩)
    | ofb => exact kept rfl (by rintro _ ⟨⟩)
    | cfb1 => exact ⟨1, setFeedback_cfb m states (by decide), set_ 1 rfl⟩
    | cfb8 => exact ⟨8, setFeedback_cfb m states (by decide), set_ 8 rfl⟩
    | cfb64 => exact ⟨64, setFeedback_cfb m states (by decide), set_ 64 rfl⟩
    | cfb128 => exact ⟨128, setFeedback_cfb m states (by decide), set_ 128 rfl⟩
  · exact kept none set

theorem init_running {ctx : CryptEalCipherCtx (StreamModeCtx κ)} {mem : Memory Byte}
    {key : Option Nat} {keyLen ivLen : Nat} {k : κ} {feedback : Option Nat} (enc : Bool)
    (keyed : m.setEncryptKey (m.cipherDeInitCtx ctx.ctx.commonCtx.ciphCtx) mem key keyLen =
      (cryptSuccess, k)) (iv : Nat) (length : ivLen = 16) (chosen : Chosen mode ctx feedback) :
    let r := cryptEalCipherInit (mode.method m) ctx mem key keyLen (some iv) ivLen enc
    let set := setFeedback (mode.method m) r.2 feedback
    r.1 = cryptSuccess ∧ set.1 = cryptSuccess ∧
      Running mode set.2 enc (start k (read 16 mem iv)) := by
  obtain ⟨wiped, hw⟩ : ∃ wiped, wiped = modesCipherDeInitCtx m ctx.ctx := ⟨_, rfl⟩
  have made : (mode.method m).initCtx wiped mem key keyLen (some iv) 16 enc = _ :=
    mode.method_initCtx m enc (by rw [hw]; exact keyed)
  simp only [length, cryptEalCipherInit, cryptEalCipherDeinit, mode.method_deinitCtx, ← hw, made,
    ne_eq, not_true_eq_false, if_false, true_and]
  obtain ⟨opened, ho⟩ : ∃ opened : CryptEalCipherCtx (StreamModeCtx κ), opened =
    ⟨.init, { wiped with
      commonCtx := { wiped.commonCtx with ciphCtx := k, iv := read 16 mem iv, offset := 0 }
      enc := enc }⟩ := ⟨_, rfl⟩
  have same : Chosen mode opened feedback := by
    rw [ho, hw]
    exact chosen
  obtain ⟨bits, set, fixed⟩ := setFeedback_eq m mode (by rw [ho]) same
  rw [← ho, set]
  refine ⟨rfl, by rw [ho]; rfl, ?_, by rw [ho], fixed⟩
  rw [ho, hw]
  rfl

/-- The calls for a message put out what the machine makes of the text, in whatever pieces it
comes, if all updates are served. -/
theorem process_eq {ctx : CryptEalCipherCtx (StreamModeCtx κ)} {msg : Message} {k : κ}
    {feedback : Option Nat} (enc : Bool) (keyed : Keyed m ctx msg k) (ivLen : msg.ivLen = 16)
    (chosen : Chosen mode ctx feedback) (bare : msg.padding = none)
    (short : ∀ c ∈ msg.updates, mode.reach c.inLen = c.inLen) :
    process (mode.method m) ctx enc feedback msg =
      if ∀ c ∈ msg.updates, Fits c then
        some ((mode.machine m enc).feed (start k (read 16 msg.mem msg.iv)) msg.text).1
      else none := by
  obtain ⟨ret, set, running⟩ := init_running m mode enc keyed msg.iv ivLen chosen
  rw [process]
  simp only [ret, set, ne_eq, not_true_eq_false, if_false]
  exact running.proceed m mode bare short

end Messages

end SystemsLab.EalStreamMessages
