import SystemsLab.Modes.BlockModes

/-! Messages in the ECB and CBC modes through the cipher interface. The calls for a message put out
what the block stream makes of it, for any way to cut it into updates, as long as each
update has buffers that it can serve. -/

namespace SystemsLab.EalBlockMessages
open ByteWord Textbook Buffer StreamMachine BlockStream Sm4OpenHitls EalCipher ModesPadding
open ModesBlockCrypt ModesCipherUpdate ModesBlockModes

variable {κ : Type}

/-! ## Buffers -/

/-- An update that finds `waiting` bytes in the context: lengths that do not wrap, room for the
output, and an output that does not run ahead into the input by what is waiting. -/
structure UpdateFits (serves : Nat → Nat → Nat → Prop) (dataAt waiting : Nat) (c : UpdateCall) :
    Prop where
  total : c.inLen + waiting < 2 ^ 32
  room : (c.inLen + waiting) / 16 * 16 ≤ c.outLen
  serves : serves c.inp (c.out + waiting) c.inLen
  behind : c.out + waiting ≤ c.inp ∨ c.inp + c.inLen ≤ c.out
  apart : dataAt ≠ c.out

def AllFit (serves : Nat → Nat → Nat → Prop) (dataAt : Nat) (hold : Bool) (waiting : Nat) :
    List UpdateCall → Prop
  | [] => True
  | c :: rest => UpdateFits serves dataAt waiting c ∧
      AllFit serves dataAt hold (kept 16 hold (waiting + c.inLen)) rest

structure Running (ctx : CryptEalCipherCtx (ModesCipherCtx κ)) (enc : Bool)
    (padding : CryptPaddingType) (k : κ) (dataAt : Nat) (w : Waiting Block Byte) : Prop where
  states : ctx.states.isOpen = true
  waiting : waiting ctx.ctx = w
  direction : ctx.ctx.enc = enc
  pad : ctx.ctx.pad = padding
  key : ctx.ctx.commonCtx.ciphCtx = k
  dataAt : ctx.ctx.dataAt = dataAt
  kind : ifXts ctx.ctx.algId = false
  settled : Settled 16 (!enc && padding ≠ .none) w

theorem Running.dataLen {ctx : CryptEalCipherCtx (ModesCipherCtx κ)} {enc : Bool}
    {padding : CryptPaddingType} {k : κ} {dataAt : Nat} {w : Waiting Block Byte}
    (h : Running ctx enc padding k dataAt w) : ctx.ctx.dataLen = w.cache.length := by
  rw [← h.waiting, ModesCipherUpdate.waiting, length_load]

section Messages

variable (m : EalSymMethod κ) (mode : BlockMode)
  {ctx : CryptEalCipherCtx (ModesCipherCtx κ)} {enc : Bool} {padding : CryptPaddingType} {k : κ}
  {dataAt : Nat} {w : Waiting Block Byte}

theorem Running.holds_eq (h : Running ctx enc padding k dataAt w) :
    holds ctx.ctx = (!enc && padding ≠ .none) := by
  rw [holds, h.direction, h.pad]

theorem Running.update (h : Running ctx enc padding k dataAt w) {c : UpdateCall}
    (fits : UpdateFits (mode.serves enc) dataAt w.cache.length c) :
    let r := c.perform (mode.method m) ctx
    let u := BlockStream.update (mode.machine m enc k) (!enc && padding ≠ .none) w c.piece
    r.ret = cryptSuccess ∧ r.mem = store c.mem c.out u.1 ∧ r.outLen = u.1.length ∧
      Running r.ctx enc padding k dataAt u.2 := by
  intro r u
  have length := h.dataLen
  have small : ctx.ctx.dataLen ≤ 16 := by
    have le := kept_le_unit (by decide : 0 < 16) (!enc && padding ≠ .none) w.cache.length
    have settled := h.settled
    unfold Settled at settled
    omega
  have good : ModesCipherUpdate.Fits (mode.serves enc) ctx.ctx c.inp c.inLen c.out c.outLen :=
    ⟨by rw [length]; exact fits.total, by rw [length]; exact fits.room,
      by rw [length]; exact fits.serves, by rw [length]; exact fits.behind,
      by rw [h.dataAt]; exact fits.apart⟩
  have step := modesCipherUpdate_spec (mode.runs m enc) c.mem small good
  rw [h.key, h.holds_eq, h.waiting] at step
  have clear : isPartialOverLap c.out c.inp c.inLen = false := by
    have behind := fits.behind
    simp only [isPartialOverLap, Bool.and_eq_false_iff, decide_eq_false_iff_not]
    omega
  have check : checkUpdateParam ctx (some c.inp) c.inLen (some c.out) (some c.outLen) =
      cryptSuccess := by
    rw [checkUpdateParam_eq ctx c.outLen clear, if_pos h.states]
  obtain ⟨q, hq⟩ : ∃ q, q = modesCipherUpdate (mode.blockUpdate m enc) ctx.ctx c.mem c.inp c.inLen
    c.out c.outLen := ⟨_, rfl⟩
  rw [← hq] at step
  have result : r = ⟨cryptSuccess, ⟨.update, q.ctx⟩, q.mem, q.outLen⟩ := by
    show cryptEalCipherUpdate _ _ _ _ _ _ _ = _
    rw [cryptEalCipherUpdate, check]
    simp only [ne_eq, not_true_eq_false, if_false, Option.getD_some, mode.method_update,
      h.direction, ← hq, step.ret]
  rw [result]
  have kind : ifXts q.ctx.algId = false := by
    rw [step.same.algId]
    exact h.kind
  exact ⟨rfl, step.mem, step.outLen.trans (Nat.zero_add _), ⟨rfl, step.waiting,
    step.same.enc.trans h.direction, step.same.pad.trans h.pad, step.same.ciphCtx.trans h.key,
    step.same.dataAt.trans h.dataAt, kind, update_settled _ _ (by decide : 0 < 16) _ _⟩⟩

theorem Running.updates (h : Running ctx enc padding k dataAt w) {calls : List UpdateCall}
    (fit : AllFit (mode.serves enc) dataAt (!enc && padding ≠ .none) w.cache.length calls) :
    let u := BlockStream.updates (mode.machine m enc k) (!enc && padding ≠ .none) w
      (calls.map UpdateCall.piece)
    ∃ ctx', updateAll (mode.method m) ctx calls = some (u.1, ctx') ∧
      Running ctx' enc padding k dataAt u.2 := by
  induction calls generalizing ctx w with
  | nil => exact ⟨ctx, rfl, h⟩
  | cons c rest ih =>
    obtain ⟨first, later⟩ := fit
    obtain ⟨ret, mem, outLen, running⟩ := h.update m mode first
    have put := load_store c.mem c.out _ outLen.symm
    rw [← mem] at put
    have length : (BlockStream.update (mode.machine m enc k) (!enc && padding ≠ .none) w
        c.piece).2.cache.length = kept 16 (!enc && padding ≠ .none) (w.cache.length + c.inLen) := by
      rw [length_update_cache, List.length_append, UpdateCall.piece, length_load]
    obtain ⟨ctx', done, final⟩ := ih running (by rw [length]; exact later)
    refine ⟨ctx', ?_, final⟩
    rw [updateAll, if_neg (not_not.mpr ret), put, done]
    rfl

def ending (padding : CryptPaddingType) (T : Transducer Block Byte 16) (w : Waiting Block Byte) :
    Bool → Option (List Byte)
  | true => (padded padding w.cache).map fun b => (T.feed w.state b).1
  | false => if 16 ∣ w.cache.length then unpadded padding (T.feed w.state w.cache).1 else none

theorem Running.final (h : Running ctx enc padding k dataAt w) (mem : Memory Byte)
    {out outLen : Nat} (room : 16 ≤ outLen) (apart : dataAt ≠ out) :
    ∃ code, code ≠ cryptSuccess ∧ Ended mem out code (ending padding (mode.machine m enc k) w enc)
      (cryptEalCipherFinal (mode.method m) ctx mem (some out) (some outLen)) := by
  have check : checkFinalParam ctx (some out) (some outLen) = cryptSuccess := by
    rw [checkFinalParam_eq, if_pos h.states]
  obtain ⟨q, hq⟩ : ∃ q, q = modesCipherFinal (mode.blockUpdate m enc) ctx.ctx mem (some out)
    (some outLen) := ⟨_, rfl⟩
  have length := h.dataLen
  have settled := h.settled
  unfold Settled at settled
  have apart' : ctx.ctx.dataAt ≠ out := by rw [h.dataAt]; exact apart
  obtain ⟨code, ne, ended⟩ : ∃ code, code ≠ cryptSuccess ∧
      Ended mem out code (ending padding (mode.machine m enc k) w enc) q := by
    cases enc with
    | true =>
      have short : ctx.ctx.dataLen < 16 := by
        have lt := Nat.mod_lt w.cache.length (by decide : 16 > 0)
        rw [Bool.not_true, Bool.false_and, kept, if_neg (by simp)] at settled
        omega
      have ended := modesCipherFinal_enc (mode.runs m true) mem h.direction short h.kind room
        apart'
      rw [h.waiting, h.key, h.pad, ← hq] at ended
      exact ⟨_, by decide, ended⟩
    | false =>
      have small : ctx.ctx.dataLen ≤ 16 := by
        have le := kept_le_unit (by decide : 0 < 16) (!false && padding ≠ .none) w.cache.length
        omega
      have ended := modesCipherFinal_dec (mode.runs m false) mem h.direction small room apart'
      rw [h.waiting, h.key, h.pad, ← hq] at ended
      refine ⟨_, ?_, ended⟩
      split_ifs <;> decide
  refine ⟨code, ne, ?_⟩
  rw [cryptEalCipherFinal, check]
  simp only [ne_eq, not_true_eq_false, if_false, Option.getD_some, mode.method_final, h.direction,
    ← hq]
  split_ifs with ok
  · exact ⟨fun none => ok.symm.trans (ended.refused none),
      fun b some => ⟨rfl, (ended.done b some).2⟩, ended.frame⟩
  · exact ⟨ended.refused, ended.done, ended.frame⟩

theorem output_of_ended {r : UpdateResult (CryptEalCipherCtx (ModesCipherCtx κ))}
    {mem : Memory Byte} {out : Nat} {code : Int} {tail : Option (List Byte)}
    (ne : code ≠ cryptSuccess)
    (ended : Ended mem out code tail r) :
    (if r.ret ≠ cryptSuccess then none else some (load r.mem out r.outLen)) = tail := by
  cases tail with
  | none => rw [if_pos (by rw [ended.refused rfl]; exact ne)]
  | some b =>
    obtain ⟨ret, size, bytes⟩ := ended.done b rfl
    rw [if_neg (not_not.mpr ret), size, bytes]

end Messages

/-! ## Messages -/

structure Fits (mode : BlockMode) (enc : Bool) (padding : CryptPaddingType) (dataAt : Nat)
    (msg : Message) : Prop where
  ivLen : msg.ivLen = 16
  set : msg.padding = some (paddingCode padding) ∨ (msg.padding = none ∧ padding = .none)
  updates : AllFit (mode.serves enc) dataAt (!enc && padding ≠ .none) 0 msg.updates
  room : 16 ≤ msg.finalOutLen
  apart : dataAt ≠ msg.finalOut

section Messages

variable (m : EalSymMethod κ) (mode : BlockMode) {enc : Bool} {padding : CryptPaddingType} {k : κ}

/-- The key is taken, on the wiped context of the cipher. -/
def Keyed (enc : Bool) (ctx : CryptEalCipherCtx (ModesCipherCtx κ)) (msg : Message) (k : κ) :
    Prop :=
  (if enc then m.setEncryptKey else m.setDecryptKey)
    (m.cipherDeInitCtx ctx.ctx.commonCtx.ciphCtx) msg.mem msg.key msg.keyLen = (cryptSuccess, k)

def stream (enc : Bool) (padding : CryptPaddingType) (k : κ) (iv : Block)
    (pieces : List (List Byte)) : Option (List Byte) :=
  if enc then encrypt (blockPadding padding) (mode.machine m true k) (mode.start iv) pieces
  else decrypt (blockPadding padding) (mode.machine m false k) (mode.start iv) pieces

theorem stream_eq (enc : Bool) (iv : Block) (pieces : List (List Byte)) :
    stream m mode enc padding k iv pieces =
      let u := updates (mode.machine m enc k) (!enc && padding ≠ .none) ⟨mode.start iv, []⟩ pieces
      (ending padding (mode.machine m enc k) u.2 enc).map fun tail => u.1 ++ tail := by
  cases enc with
  | true =>
    simp only [stream, if_true, encrypt, ending, Option.map_map]
    rfl
  | false =>
    have hold : (blockPadding padding).hold = (!false && padding ≠ .none) := rfl
    simp only [stream, Bool.false_eq_true, if_false, decrypt, ending, hold]
    split_ifs <;> rfl

theorem paddingCode_int32 (padding : CryptPaddingType) :
    (BitVec.ofInt 32 (paddingCode padding)).toInt = paddingCode padding := by
  cases padding <;> rfl

theorem setPadding_eq (ctx : CryptEalCipherCtx (ModesCipherCtx κ)) (padding : CryptPaddingType) :
    cryptEalCipherSetPadding (mode.method m) ctx (paddingCode padding) =
      (cryptSuccess, ⟨ctx.states, { ctx.ctx with pad := padding }⟩) := by
  simp only [cryptEalCipherSetPadding, mode.method_setPadding, setPadding, Option.getD_some,
    int32At_store, paddingCode_int32, paddingOfCode_paddingCode]

theorem Running.setPad {ctx : CryptEalCipherCtx (ModesCipherCtx κ)} {dataAt : Nat} {s : Block}
    (h : Running ctx enc .none k dataAt ⟨s, []⟩) (padding : CryptPaddingType) :
    Running ⟨ctx.states, { ctx.ctx with pad := padding }⟩ enc padding k dataAt ⟨s, []⟩ :=
  ⟨h.states, h.waiting, h.direction, rfl, h.key, h.dataAt, h.kind, settled_nil _ _⟩

theorem Running.proceed {ctx : CryptEalCipherCtx (ModesCipherCtx κ)} {dataAt : Nat} {iv : Block}
    (h : Running ctx enc .none k dataAt ⟨mode.start iv, []⟩) {msg : Message}
    (fits : Fits mode enc padding dataAt msg) :
    msg.proceed (mode.method m) ctx =
      stream m mode enc padding k iv (msg.updates.map UpdateCall.piece) := by
  have set : msg.setPadding (mode.method m) ctx =
      (cryptSuccess, ⟨ctx.states, { ctx.ctx with pad := padding }⟩) := by
    rcases fits.set with given | ⟨none, rfl⟩
    · rw [Message.setPadding, given]
      exact setPadding_eq m mode ctx padding
    · rw [Message.setPadding, none, ← h.pad]
  have running := h.setPad padding
  obtain ⟨ctx', done, later⟩ := running.updates m mode fits.updates
  obtain ⟨code, ne, ended⟩ := later.final m mode msg.finalMem fits.room fits.apart
  have last := output_of_ended ne ended
  rw [Message.proceed]
  simp only [ne_eq, not_true_eq_false, if_false, set, done, Option.bind_some, stream_eq]
  rw [← last]
  simp only [ne_eq]
  split_ifs <;> rfl

theorem init_running {ctx : CryptEalCipherCtx (ModesCipherCtx κ)} {mem : Memory Byte}
    {key : Option Nat} {keyLen ivLen : Nat} (kind : ifXts ctx.ctx.algId = false)
    (keyed : (if enc then m.setEncryptKey else m.setDecryptKey)
      (m.cipherDeInitCtx ctx.ctx.commonCtx.ciphCtx) mem key keyLen = (cryptSuccess, k))
    (iv : Nat) (length : ivLen = 16) :
    let r := cryptEalCipherInit (mode.method m) ctx mem key keyLen (some iv) ivLen enc
    r.1 = cryptSuccess ∧ Running r.2 enc .none k ctx.ctx.dataAt
      ⟨mode.start (read 16 mem iv), []⟩ := by
  obtain ⟨cleared, hc⟩ : ∃ cleared, cleared = modesCipherDeInitCtx m ctx.ctx := ⟨_, rfl⟩
  have made : (mode.method m).initCtx cleared mem key keyLen (some iv) 16 enc = _ :=
    mode.method_initCtx m (by rw [hc]; exact keyed) (by rw [hc]; rfl)
  simp only [length, cryptEalCipherInit, cryptEalCipherDeinit, mode.method_deinitCtx, ← hc, made,
    ne_eq, not_true_eq_false, if_false]
  rw [hc]
  exact ⟨trivial, rfl, rfl, rfl, rfl, rfl, rfl, kind, settled_nil _ _⟩

theorem Running.message {ctx : CryptEalCipherCtx (ModesCipherCtx κ)} {dataAt : Nat} {iv : Block}
    {c : UpdateCall} {whole : List Byte}
    (h : Running ctx enc padding k dataAt ⟨mode.start iv, []⟩)
    (fits : UpdateFits (mode.serves enc) dataAt 0 c) (room : c.inLen / 16 * 16 + 16 ≤ c.outLen)
    (own : dataAt < c.out ∨ c.out + c.outLen ≤ dataAt)
    (made : stream m mode enc padding k iv [c.piece] = some whole) :
    let r := c.perform (mode.method m) ctx
    let last := cryptEalCipherFinal (mode.method m) r.ctx r.mem (some (c.out + r.outLen))
      (some (c.outLen - r.outLen))
    r.ret = cryptSuccess ∧ last.ret = cryptSuccess ∧ r.outLen + last.outLen = whole.length ∧
      load last.mem c.out whole.length = whole ∧ Frame c.out c.outLen c.mem last.mem := by
  intro r last
  obtain ⟨ret, put, size, later⟩ := h.update m mode fits
  obtain ⟨u, hu⟩ : ∃ u, u = BlockStream.update (mode.machine m enc k) (!enc && padding ≠ .none)
    ⟨mode.start iv, []⟩ c.piece := ⟨_, rfl⟩
  rw [stream_eq] at made
  simp only [BlockStream.updates, List.append_nil] at made
  rw [← hu] at put size later made
  have put : r.mem = store c.mem c.out u.1 := put
  have size : r.outLen = u.1.length := size
  have first : u.1.length ≤ c.inLen / 16 * 16 := by
    have mod := kept_mod 16 (!enc && padding ≠ .none) c.inLen
    rw [hu, length_update, List.nil_append, UpdateCall.piece, length_load]
    omega
  have apart : dataAt ≠ c.out + r.outLen := by omega
  have space : 16 ≤ c.outLen - r.outLen := by omega
  obtain ⟨code, ne, ended⟩ := later.final m mode r.mem space apart
  obtain ⟨tail, rest, all⟩ := Option.map_eq_some_iff.mp made
  obtain ⟨ok, length, bytes⟩ := ended.done tail rest
  have total : u.1.length + tail.length = whole.length := by rw [← all, List.length_append]
  have before : load last.mem c.out u.1.length = u.1 := by
    have stays : load last.mem c.out u.1.length = load r.mem c.out u.1.length :=
      load_congr fun i hi => ended.frame _ (Or.inl (by omega))
    rw [stays, put]
    exact load_store c.mem c.out u.1 rfl
  refine ⟨ret, ok, by rw [size, length, total], ?_, ?_⟩
  · rw [← total, load_add, before, ← size, bytes, all]
  · have during : Frame c.out c.outLen c.mem r.mem := by
      rw [put]
      exact (Frame.store c.mem c.out u.1).mono (Nat.le_refl _) (by omega)
    exact during.trans (Frame.mono ended.frame (by omega) (by omega))

/-- Whatever a context was used for before, the calls for a message put out what the block stream
makes of the pieces, and fail where it refuses. -/
theorem process_eq {ctx : CryptEalCipherCtx (ModesCipherCtx κ)} {msg : Message}
    (kind : ifXts ctx.ctx.algId = false) (keyed : Keyed m enc ctx msg k)
    (fits : Fits mode enc padding ctx.ctx.dataAt msg) :
    msg.process (mode.method m) ctx enc =
      stream m mode enc padding k (read 16 msg.mem msg.iv) (msg.updates.map UpdateCall.piece) := by
  obtain ⟨ret, running⟩ := init_running m mode kind keyed msg.iv fits.ivLen
  rw [Message.process]
  simp only [ret, ne_eq, not_true_eq_false, if_false]
  exact running.proceed m mode fits

end Messages

end SystemsLab.EalBlockMessages
