import SystemsLab.Eal.BlockSafety
import SystemsLab.Eal.Sm4Streams

/-! Runs of calls on contexts of the stream modes. Whatever the calls, on whatever buffers, they
write nothing but what they were given room for, and a refused update changes nothing. The
setting of a context outlasts every call that does not set it, so that a reinitialized
context starts a message like a new one. -/

namespace SystemsLab.EalStreamRuns
open ByteWord Textbook Buffer StreamMachine WindowStream Sm4OpenHitls EalCipher ModesPadding
open ModesBlockCrypt ModesStreamCrypt ModesCfbBits ModesStreamModes EalStreamMessages

variable {κ : Type} (m : EalSymMethod κ)

/-! ## What the machines keep -/

theorem window_keeps {W : Window (StreamCore κ) Byte 16}
    (refresh : ∀ s, (W.refresh s).ciphCtx = s.ciphCtx)
    (absorb : ∀ s t c, (W.absorb s t c).ciphCtx = s.ciphCtx) (enc : Bool)
    (s : StreamCore κ × Nat) (a : List Byte) :
    let r := (W.machine enc).feed s a
    r.2.1.ciphCtx = s.1.ciphCtx ∧ (s.2 < 16 → r.2.2 < 16) := by
  have key := runSteps_inv (W.step enc) (fun t => t.1.ciphCtx = s.1.ciphCtx) (by
    intro t x same
    simp only [Window.step, Window.place, Window.wrap, absorb, Window.ready]
    split_ifs
    · exact (refresh t.1).trans same
    · exact same) rfl a
  refine ⟨key, fun start => ?_⟩
  exact runSteps_inv (W.step enc) (fun t => t.2 < 16)
    (fun t x _ => Nat.mod_lt _ (by decide)) start a

theorem cfb1Byte_ciphCtx (enc : Bool) (core : StreamCore κ) (x : Byte) :
    (cfb1Byte m enc core x).2.ciphCtx = core.ciphCtx := by
  have kept := runSteps_inv (cfb1Step m enc) (fun t => t.ciphCtx = core.ciphCtx)
    (fun t bit same => by simp only [cfb1Step, cfb1Crypt, same]) rfl (bitsOf x)
  simpa only [cfb1Byte] using kept

theorem machine_keeps (mode : StreamMode) (enc : Bool) (s : StreamCore κ × Nat) (a : List Byte) :
    let r := (mode.machine m enc).feed s a
    r.2.1.ciphCtx = s.1.ciphCtx ∧ (s.2 < 16 → r.2.2 < 16) := by
  cases mode with
  | ctr =>
    exact window_keeps (fun s => by simp only [ctrWindow]) (fun s t c => by simp only [ctrWindow])
      enc s a
  | ofb =>
    exact window_keeps (fun s => by simp only [ofbWindow]) (fun s t c => by simp only [ofbWindow])
      enc s a
  | cfb8 =>
    exact window_keeps (W := cfbBytesWindow m 1 _)
      (fun s => by simp only [cfbBytesWindow, cfbWindow])
      (fun s t c => by simp only [cfbBytesWindow, cfbWindow]) enc s a
  | cfb64 =>
    exact window_keeps (W := cfbBytesWindow m 8 _)
      (fun s => by simp only [cfbBytesWindow, cfbWindow])
      (fun s t c => by simp only [cfbBytesWindow, cfbWindow]) enc s a
  | cfb128 =>
    exact window_keeps (W := cfb128Window m) (fun s => by simp only [cfb128Window, cfbWindow])
      (fun s t c => by simp only [cfb128Window, cfbWindow]) enc s a
  | cfb1 =>
    have kept : (runSteps _ s a).2.1.ciphCtx = s.1.ciphCtx ∧ (runSteps _ s a).2.2 = s.2 :=
      runSteps_inv (fun (s : StreamCore κ × Nat) x =>
        ((cfb1Byte m enc s.1 x).1, ((cfb1Byte m enc s.1 x).2, s.2)))
        (fun t => t.1.ciphCtx = s.1.ciphCtx ∧ t.2 = s.2)
        (fun t x same => ⟨(cfb1Byte_ciphCtx m enc t.1 x).trans same.1, same.2⟩) ⟨rfl, rfl⟩ a
    simp only [StreamMode.machine, cfb1Machine, ofStep]
    exact ⟨kept.1, fun start => kept.2.trans_lt start⟩

/-! ## Contexts -/

/-- The offset points into the window, and the feedback size is one that the mode has. -/
structure Sound (ctx : StreamModeCtx κ) : Prop where
  offset : ctx.commonCtx.offset < 16
  feedback : ctx.feedbackBits = 1 ∨ ctx.feedbackBits = 8 ∨ ctx.feedbackBits = 64 ∨
    ctx.feedbackBits = 128

structure SameSetting (a b : StreamModeCtx κ) : Prop where
  key : a.commonCtx.ciphCtx = b.commonCtx.ciphCtx
  enc : a.enc = b.enc
  feedback : a.feedbackBits = b.feedbackBits

theorem SameSetting.refl (ctx : StreamModeCtx κ) : SameSetting ctx ctx := ⟨rfl, rfl, rfl⟩

theorem SameSetting.trans {a b c : StreamModeCtx κ} (h : SameSetting a b) (h' : SameSetting b c) :
    SameSetting a c :=
  ⟨h.key.trans h'.key, h.enc.trans h'.enc, h.feedback.trans h'.feedback⟩

theorem SameSetting.set {a b : StreamModeCtx κ} (h : SameSetting a b) {mode : StreamMode}
    (set : mode.Set b) : mode.Set a :=
  fun bits size => h.feedback.trans (set bits size)

theorem exists_set (mode : StreamMode) {ctx : StreamModeCtx κ} (sound : Sound ctx) :
    ∃ mode' : StreamMode, mode'.method m = mode.method m ∧ mode'.Set ctx := by
  have cfb : ∃ mode' : StreamMode, mode'.method m = cfbMethod m ∧ mode'.Set ctx := by
    rcases sound.feedback with size | size | size | size
    · exact ⟨.cfb1, rfl, by rintro _ ⟨⟩; exact size⟩
    · exact ⟨.cfb8, rfl, by rintro _ ⟨⟩; exact size⟩
    · exact ⟨.cfb64, rfl, by rintro _ ⟨⟩; exact size⟩
    · exact ⟨.cfb128, rfl, by rintro _ ⟨⟩; exact size⟩
  cases mode with
  | ctr => exact ⟨.ctr, rfl, by rintro _ ⟨⟩⟩
  | ofb => exact ⟨.ofb, rfl, by rintro _ ⟨⟩⟩
  | _ => exact cfb

variable (mode : StreamMode)

theorem update_sound {ctx : StreamModeCtx κ} (sound : Sound ctx) (mem : Memory Byte)
    {inp inLen out : Nat} (outLen : Nat) (clear : Clear inp out inLen) :
    let r := (mode.method m).update ctx mem inp inLen out outLen
    Sound r.ctx ∧ SameSetting r.ctx ctx ∧ Frame out outLen mem r.mem ∧ r.outLen ≤ outLen ∧
      (r.ret ≠ cryptSuccess → r.ctx = ctx ∧ r.mem = mem) := by
  obtain ⟨mode', method, set⟩ := exists_set m mode sound
  rw [← method]
  rcases Nat.lt_or_ge outLen inLen with short | room
  · rw [mode'.update_short m set mem inp out short]
    exact ⟨sound, SameSetting.refl ctx, Frame.refl _ _ _, Nat.le_refl _, fun _ => ⟨rfl, rfl⟩⟩
  · obtain ⟨common, view, call⟩ := mode'.update_eq m set mem clear room
    obtain ⟨key, offset⟩ := machine_keeps m mode' ctx.enc ctx.commonCtx.view
      (load mem inp (mode'.reach inLen))
    have length := (mode'.machine m ctx.enc).length_feed ctx.commonCtx.view
      (load mem inp (mode'.reach inLen)) (Nat.one_dvd _)
    rw [length_load] at length
    have inside := (mode'.reach_le inLen).trans room
    rw [← view] at key offset
    rw [call]
    refine ⟨⟨offset sound.offset, sound.feedback⟩, ⟨key, rfl, rfl⟩, ?_, room,
      fun failed => absurd rfl failed⟩
    exact (Frame.store mem out _).mono (Nat.le_refl _) (by omega)

theorem modesSetIv_sound {ctx : ModesStreamCtx κ} (offset : ctx.offset < 16) (mem : Memory Byte)
    (val : Option Nat) (len : Nat) :
    let r := modesSetIv ctx mem val len
    r.2.ciphCtx = ctx.ciphCtx ∧ r.2.offset < 16 := by
  cases val with
  | none => exact ⟨rfl, offset⟩
  | some val =>
    simp only [modesSetIv]
    split_ifs
    · exact ⟨rfl, offset⟩
    · exact ⟨rfl, (by decide : 0 < 16)⟩

theorem modesCipherInitCtx_sound {ctx : StreamModeCtx κ} (sound : Sound ctx)
    (setSymKey : κ → Memory Byte → Option Nat → Nat → Int × κ) (mem : Memory Byte)
    (key : Option Nat) (keyLen : Nat) (iv : Option Nat) (ivLen : Nat) (enc : Bool) :
    Sound (modesCipherInitCtx ctx setSymKey mem key keyLen iv ivLen enc).2 := by
  refine ⟨?_, sound.feedback⟩
  simp only [modesCipherInitCtx, modesCipherInitCommonCtx]
  split_ifs
  · exact sound.offset
  · exact sound.offset
  · exact (modesSetIv_sound (by exact sound.offset) mem iv ivLen).2

theorem initCtx_sound {ctx : StreamModeCtx κ} (sound : Sound ctx) (mem : Memory Byte)
    (key : Option Nat) (keyLen : Nat) (iv : Option Nat) (ivLen : Nat) (enc : Bool) :
    Sound ((mode.method m).initCtx ctx mem key keyLen iv ivLen enc).2 := by
  have common := modesCipherInitCtx_sound sound m.setEncryptKey mem key keyLen iv ivLen enc
  have cfb : Sound (modesCfbInitCtx m ctx mem key keyLen iv ivLen enc).2 := by
    rw [modesCfbInitCtx]
    split_ifs
    · exact sound
    · exact common
  cases mode with
  | ctr | ofb => exact common
  | _ => exact cfb

/-! ## Control calls -/

def room : Call → Nat × Nat
  | .ctrl .getFeedbacksize data len => (data.getD 0, len)
  | call => EalBlockSafety.room call

theorem modesCipherCtrl_sound {ctx : StreamModeCtx κ} (sound : Sound ctx) (mem : Memory Byte)
    (type : CryptCipherCtrl) (data : Option Nat) (len : Nat) :
    let r := modesCipherCtrl ctx mem type data len
    Sound r.ctx ∧ SameSetting r.ctx ctx ∧
      Frame (room (.ctrl type data len)).1 (room (.ctrl type data len)).2 mem r.mem := by
  cases type
  case reinitStatus =>
    obtain ⟨key, offset⟩ := modesSetIv_sound sound.offset mem data len
    exact ⟨⟨offset, sound.feedback⟩, ⟨key, rfl, rfl⟩, Frame.refl _ _ _⟩
  case getIv =>
    refine ⟨sound, SameSetting.refl ctx, ?_⟩
    cases data with
    | none => exact Frame.refl _ _ _
    | some p =>
      simp only [modesCipherCtrl, modesGetIv]
      split_ifs with size
      · exact Frame.refl _ _ _
      · rw [not_not.mp size]
        exact Frame.write mem p _
  all_goals exact ⟨sound, SameSetting.refl ctx, Frame.refl _ _ _⟩

theorem getBlockSize_sound {ctx : StreamModeCtx κ} (sound : Sound ctx) (mem : Memory Byte)
    (data : Option Nat) (len : Nat) :
    let r := getBlockSize ctx mem data len
    Sound r.ctx ∧ SameSetting r.ctx ctx ∧ Frame (data.getD 0) len mem r.mem := by
  cases data with
  | none => exact ⟨sound, SameSetting.refl ctx, Frame.refl _ _ _⟩
  | some p =>
    simp only [getBlockSize]
    split_ifs with size
    · exact ⟨sound, SameSetting.refl ctx, Frame.refl _ _ _⟩
    · rw [not_not.mp size]
      exact ⟨sound, SameSetting.refl ctx, Frame.store mem p (int32Bytes 1)⟩

theorem setFeedbackSize_sound {ctx : StreamModeCtx κ} (sound : Sound ctx) (mem : Memory Byte)
    (data : Option Nat) (len : Nat) :
    let r := setFeedbackSize ctx mem data len
    Sound r.ctx ∧ r.mem = mem := by
  cases data with
  | none => exact ⟨sound, rfl⟩
  | some p =>
    simp only [setFeedbackSize]
    split_ifs with _ unknown
    · exact ⟨sound, rfl⟩
    · exact ⟨sound, rfl⟩
    · exact ⟨sound, rfl⟩
    · refine ⟨⟨sound.offset, ?_⟩, rfl⟩
      dsimp only
      omega

theorem getFeedbackSize_sound {ctx : StreamModeCtx κ} (sound : Sound ctx) (mem : Memory Byte)
    (data : Option Nat) (len : Nat) :
    let r := getFeedbackSize ctx mem data len
    Sound r.ctx ∧ SameSetting r.ctx ctx ∧ Frame (data.getD 0) len mem r.mem := by
  cases data with
  | none => exact ⟨sound, SameSetting.refl ctx, Frame.refl _ _ _⟩
  | some p =>
    simp only [getFeedbackSize]
    split_ifs with size
    · exact ⟨sound, SameSetting.refl ctx, Frame.refl _ _ _⟩
    · rw [not_not.mp size]
      exact ⟨sound, SameSetting.refl ctx, Frame.store mem p (int32Bytes ctx.feedbackBits)⟩

theorem ctrl_sound {ctx : StreamModeCtx κ} (sound : Sound ctx) (mem : Memory Byte)
    (type : CryptCipherCtrl) (data : Option Nat) (len : Nat) :
    let r := (mode.method m).ctrl ctx mem type data len
    Sound r.ctx ∧ (type ≠ .setFeedbacksize → SameSetting r.ctx ctx) ∧
      Frame (room (.ctrl type data len)).1 (room (.ctrl type data len)).2 mem r.mem := by
  obtain ⟨keeps, same, frame⟩ := modesCipherCtrl_sound sound mem type data len
  have block := getBlockSize_sound sound mem data len
  have plain : let r := streamCtrl ctx mem type data len
      Sound r.ctx ∧ (type ≠ .setFeedbacksize → SameSetting r.ctx ctx) ∧
        Frame (room (.ctrl type data len)).1 (room (.ctrl type data len)).2 mem r.mem := by
    cases type
    case getBlocksize => exact ⟨block.1, fun _ => block.2.1, block.2.2⟩
    all_goals exact ⟨keeps, fun _ => same, frame⟩
  have cfb : let r := modesCfbCtrl ctx mem type data len
      Sound r.ctx ∧ (type ≠ .setFeedbacksize → SameSetting r.ctx ctx) ∧
        Frame (room (.ctrl type data len)).1 (room (.ctrl type data len)).2 mem r.mem := by
    cases type
    case getBlocksize => exact ⟨block.1, fun _ => block.2.1, block.2.2⟩
    case getFeedbacksize =>
      have size := getFeedbackSize_sound sound mem data len
      exact ⟨size.1, fun _ => size.2.1, size.2.2⟩
    case setFeedbacksize =>
      obtain ⟨size, unwritten⟩ := setFeedbackSize_sound sound mem data len
      refine ⟨size, fun changes => absurd rfl changes, ?_⟩
      show Frame _ _ mem (setFeedbackSize ctx mem data len).mem
      rw [unwritten]
      exact Frame.refl _ _ _
    all_goals exact ⟨keeps, fun _ => same, frame⟩
  cases mode with
  | ctr | ofb => exact plain
  | _ => exact cfb

/-! ## Runs -/

def KeepsSetting : Call → Prop
  | .init .. | .deinit | .ctrl .setFeedbacksize .. => False
  | _ => True

structure Performed (ctx : CryptEalCipherCtx (StreamModeCtx κ)) (mem : Memory Byte) (call : Call)
    (r : UpdateResult (CryptEalCipherCtx (StreamModeCtx κ))) : Prop where
  sound : Sound r.ctx.ctx
  frame : Frame (room call).1 (room call).2 mem r.mem
  outLen : r.outLen ≤ (room call).2
  refused : (∃ inp inLen out outLen, call = .update inp inLen out outLen) →
    r.ret ≠ cryptSuccess → r.ctx = ctx ∧ r.mem = mem
  same : KeepsSetting call → SameSetting r.ctx.ctx ctx.ctx
  used : KeepsSetting call → (r.ctx.states = .new ↔ ctx.states = .new)

theorem performed_still {ctx : CryptEalCipherCtx (StreamModeCtx κ)} (sound : Sound ctx.ctx)
    (mem : Memory Byte) {call : Call} (ret : Int) {outLen : Nat} (le : outLen ≤ (room call).2) :
    Performed ctx mem call ⟨ret, ctx, mem, outLen⟩ :=
  ⟨sound, Frame.refl _ _ _, le, fun _ _ => ⟨rfl, rfl⟩, fun _ => SameSetting.refl _,
    fun _ => Iff.rfl⟩

theorem clear_of_check {ctx : CryptEalCipherCtx (StreamModeCtx κ)} {inp : Option Nat} {inLen : Nat}
    {out outLen : Option Nat}
    (ok : checkUpdateParam ctx inp inLen out outLen = cryptSuccess) :
    Clear (inp.getD 0) (out.getD 0) inLen := by
  rw [checkUpdateParam] at ok
  split_ifs at ok with null overlap
  · exact absurd ok (by decide)
  · exact absurd ok (by decide)
  · unfold Clear
    by_cases empty : inLen = 0
    · omega
    · have given : inp ≠ none := fun none => null (Or.inr (Or.inr ⟨none, empty⟩))
      have apart : isPartialOverLap (out.getD 0) (inp.getD 0) inLen = false := by
        by_contra ahead
        exact overlap ⟨given, empty, by simpa using ahead⟩
      simp only [isPartialOverLap, Bool.and_eq_false_iff, decide_eq_false_iff_not] at apart
      omega
  · exact absurd ok (by decide)

theorem perform_performed {ctx : CryptEalCipherCtx (StreamModeCtx κ)} (sound : Sound ctx.ctx)
    (mem : Memory Byte) (call : Call) :
    Performed ctx mem call (call.perform (mode.method m) ctx mem) := by
  have wiped : Sound ((mode.method m).deinitCtx ctx.ctx) := by
    rw [mode.method_deinitCtx]
    exact ⟨(by decide : 0 < 16), sound.feedback⟩
  cases call with
  | init key keyLen iv ivLen enc =>
    have made := initCtx_sound m mode wiped mem key keyLen iv ivLen enc
    refine ⟨?_, Frame.refl _ _ _, Nat.le_refl _, ?_, fun no => no.elim, fun no => no.elim⟩
    · show Sound (cryptEalCipherInit (mode.method m) ctx mem key keyLen iv ivLen enc).2.ctx
      by_cases failed : ((mode.method m).initCtx ((mode.method m).deinitCtx ctx.ctx) mem key keyLen
        iv ivLen enc).1 = cryptSuccess
      · simp only [cryptEalCipherInit, cryptEalCipherDeinit, failed, ne_eq, not_true_eq_false,
          if_false]
        exact made
      · simp only [cryptEalCipherInit, cryptEalCipherDeinit, failed, ne_eq, not_false_eq_true,
          if_true]
        exact made
    · rintro ⟨_, _, _, _, ⟨⟩⟩
  | deinit =>
    refine ⟨wiped, Frame.refl _ _ _, Nat.le_refl _, ?_, fun no => no.elim, fun no => no.elim⟩
    rintro ⟨_, _, _, _, ⟨⟩⟩
  | reinit iv ivLen =>
    obtain ⟨keeps, same, frame⟩ := ctrl_sound m mode sound mem .reinitStatus iv ivLen
    have same := same (by decide)
    simp only [Call.perform, cryptEalCipherReinit]
    split_ifs with fresh
    · exact performed_still sound mem _ (Nat.zero_le _)
    · refine ⟨keeps, frame, Nat.zero_le _, ?_, fun _ => same, fun _ => Iff.rfl⟩
      rintro ⟨_, _, _, _, ⟨⟩⟩
    · refine ⟨keeps, frame, Nat.zero_le _, ?_, fun _ => same,
        fun _ => iff_of_false (by rintro ⟨⟩) fresh⟩
      rintro ⟨_, _, _, _, ⟨⟩⟩
  | update inp inLen out outLen =>
    simp only [Call.perform, cryptEalCipherUpdate]
    by_cases ok : checkUpdateParam ctx inp inLen out outLen = cryptSuccess
    · obtain ⟨keeps, same, frame, le, refused⟩ := update_sound m mode sound mem (outLen.getD 0)
        (clear_of_check ok)
      rw [if_neg (not_not.mpr ok)]
      split_ifs with failed
      · obtain ⟨ctx', mem'⟩ := refused failed
        rw [ctx', mem']
        exact performed_still sound mem _ le
      · refine ⟨keeps, frame, le, fun _ no => absurd rfl no, fun _ => same, fun _ => ?_⟩
        refine iff_of_false (by rintro ⟨⟩) fun fresh => ?_
        have ready := isOpen_of_checkUpdateParam ok
        rw [fresh] at ready
        cases ready
    · rw [if_pos ok]
      exact performed_still sound mem _ (Nat.le_refl _)
  | final out outLen =>
    simp only [Call.perform, cryptEalCipherFinal, mode.method_final, ne_eq, not_true_eq_false,
      if_false]
    by_cases ok : checkFinalParam ctx out outLen = cryptSuccess
    · rw [if_neg (not_not.mpr ok)]
      refine ⟨sound, Frame.refl _ _ _, Nat.zero_le _, ?_, fun _ => SameSetting.refl _, fun _ => ?_⟩
      · rintro ⟨_, _, _, _, ⟨⟩⟩
      · refine iff_of_false (by rintro ⟨⟩) fun fresh => ?_
        have ready := isOpen_of_checkFinalParam ok
        rw [fresh] at ready
        cases ready
    · rw [if_pos ok]
      exact performed_still sound mem _ (Nat.le_refl _)
  | ctrl type data len =>
    obtain ⟨keeps, same, frame⟩ := ctrl_sound m mode sound mem type data len
    have same (kept : KeepsSetting (.ctrl type data len)) := same (by rintro rfl; exact kept)
    have used (allowed : cipherCtrlIsCanSet ctx type = true) : ctx.states ≠ .new := by
      intro fresh
      rw [cipherCtrlIsCanSet, if_pos fresh] at allowed
      cases allowed
    have quiet : (∃ inp inLen out outLen, Call.ctrl type data len = .update inp inLen out outLen) →
        False := by
      rintro ⟨_, _, _, _, ⟨⟩⟩
    simp only [Call.perform, cryptEalCipherCtrl]
    split_ifs with internal allowed aad tag
    · exact performed_still sound mem _ (Nat.zero_le _)
    · exact ⟨keeps, frame, Nat.zero_le _, fun no => (quiet no).elim, same,
        fun _ => iff_of_false (by rintro ⟨⟩) (used allowed)⟩
    · exact ⟨keeps, frame, Nat.zero_le _, fun no => (quiet no).elim, same,
        fun _ => iff_of_false (by rintro ⟨⟩) (used allowed)⟩
    · exact ⟨keeps, frame, Nat.zero_le _, fun no => (quiet no).elim, same, fun _ => Iff.rfl⟩
    · exact performed_still sound mem _ (Nat.zero_le _)
  | setPadding type =>
    obtain ⟨keeps, same, -⟩ := ctrl_sound m mode sound (store (fun _ => 0) 0 (int32Bytes type))
      .setPadding (some 0) 4
    refine ⟨keeps, Frame.refl _ _ _, Nat.zero_le _, ?_, fun _ => same (by decide), fun _ => Iff.rfl⟩
    rintro ⟨_, _, _, _, ⟨⟩⟩
  | getPadding =>
    obtain ⟨keeps, same, -⟩ := ctrl_sound m mode sound (fun _ => 0) .getPadding (some 0) 4
    refine ⟨keeps, Frame.refl _ _ _, Nat.zero_le _, ?_, fun _ => same (by decide), fun _ => Iff.rfl⟩
    rintro ⟨_, _, _, _, ⟨⟩⟩

theorem after_sound {ctx : CryptEalCipherCtx (StreamModeCtx κ)} (sound : Sound ctx.ctx)
    (calls : List (Memory Byte × Call)) : Sound (after (mode.method m) ctx calls).ctx := by
  induction calls generalizing ctx with
  | nil => exact sound
  | cons first rest ih =>
    obtain ⟨mem, call⟩ := first
    exact ih (perform_performed m mode sound mem call).sound

theorem after_same {ctx : CryptEalCipherCtx (StreamModeCtx κ)} (sound : Sound ctx.ctx)
    {calls : List (Memory Byte × Call)} (keeps : ∀ a ∈ calls, KeepsSetting a.2) :
    SameSetting (after (mode.method m) ctx calls).ctx ctx.ctx ∧
      ((after (mode.method m) ctx calls).states = .new ↔ ctx.states = .new) := by
  induction calls generalizing ctx with
  | nil => exact ⟨SameSetting.refl _, Iff.rfl⟩
  | cons first rest ih =>
    obtain ⟨mem, call⟩ := first
    have one := perform_performed m mode sound mem call
    have kept := keeps _ List.mem_cons_self
    have more := ih one.sound fun a member => keeps a (List.mem_cons_of_mem _ member)
    exact ⟨more.1.trans (one.same kept), more.2.trans (one.used kept)⟩

/-- After any calls, each further call writes only where it was given room and says no more than
that, and an update that is refused leaves no trace; the offset stays inside of the window. -/
theorem stream_calls_confined {ctx : CryptEalCipherCtx (StreamModeCtx κ)} (sound : Sound ctx.ctx)
    (calls : List (Memory Byte × Call)) (mem : Memory Byte) (call : Call) :
    let now := after (mode.method m) ctx calls
    let r := call.perform (mode.method m) now mem
    Frame (room call).1 (room call).2 mem r.mem ∧ r.outLen ≤ (room call).2 ∧
      r.ctx.ctx.commonCtx.offset < 16 ∧
      ((∃ inp inLen out outLen, call = .update inp inLen out outLen) → r.ret ≠ cryptSuccess →
        r.ctx = now ∧ r.mem = mem) := by
  intro now r
  have done : Performed now mem call r :=
    perform_performed m mode (after_sound m mode sound calls) mem call
  exact ⟨done.frame, done.outLen, done.sound.offset, done.refused⟩

def newCtx : CryptEalCipherCtx (StreamModeCtx CryptSm4Ctx) :=
  ⟨.new, modesCipherNewCtx ⟨Vector.replicate 16 0, Vector.replicate 32 0⟩ 0 0⟩

/-- An update in CFB mode, after another one and a change of the feedback size. -/
theorem stream_calls_confined_new :
    let method := StreamMode.cfb128.method Sm4SetKey.sm4Method
    let call := Call.update (some 52) 12 (some 1020) (some 12)
    let now := after method newCtx [
      (EalSm4Blocks.sampleMem, .init (some 0) 16 (some 16) 16 true),
      (EalSm4Blocks.sampleMem, .update (some 32) 20 (some 1000) (some 32)),
      (fun _ => 8, .ctrl .setFeedbacksize (some 0) 4)]
    let r := call.perform method now EalSm4Blocks.sampleMem
    Frame (room call).1 (room call).2 EalSm4Blocks.sampleMem r.mem ∧ r.outLen ≤ (room call).2 ∧
      r.ctx.ctx.commonCtx.offset < 16 ∧
      ((∃ inp inLen out outLen, call = .update inp inLen out outLen) → r.ret ≠ cryptSuccess →
        r.ctx = now ∧ r.mem = EalSm4Blocks.sampleMem) :=
  stream_calls_confined _ _ ⟨(by decide : 0 < 16), Or.inr (Or.inr (Or.inr rfl))⟩ _ _ _

/-! ## Messages with the same key -/

def SameCore (a b : StreamCore κ) : Prop := a.ciphCtx = b.ciphCtx ∧ a.iv = b.iv

theorem window_congr {W : Window (StreamCore κ) Byte 16}
    (refresh : ∀ a b, SameCore a b → SameCore (W.refresh a) (W.refresh b))
    (key : ∀ a b i, SameCore a b → W.key a i = W.key b i)
    (absorb : ∀ a b i c, SameCore a b → SameCore (W.absorb a i c) (W.absorb b i c)) (enc : Bool)
    {a b : StreamCore κ} (same : SameCore a b) (text : List Byte) :
    ((W.machine enc).feed (a, 0) text).1 = ((W.machine enc).feed (b, 0) text).1 := by
  refine runSteps_congr (fun s t => SameCore s.1 t.1 ∧ s.2 = t.2) ?_ ⟨same, rfl⟩ text
  rintro ⟨a, p⟩ ⟨b, q⟩ x ⟨same, rfl⟩
  have ready : SameCore (W.ready (a, p)).1 (W.ready (b, p)).1 ∧
      (W.ready (a, p)).2 = (W.ready (b, p)).2 := by
    simp only [Window.ready]
    split_ifs
    · exact ⟨refresh a b same, rfl⟩
    · exact ⟨same, rfl⟩
  simp only [Window.step, Window.place, Window.wrap]
  rw [ready.2, key _ _ _ ready.1]
  exact ⟨rfl, absorb _ _ _ _ ready.1, rfl⟩

theorem runSteps_first {σ : Type} {step : σ → Byte → Byte × σ} {s t : σ}
    (same : ∀ x, step s x = step t x) (a : List Byte) :
    (runSteps step s a).1 = (runSteps step t a).1 := by
  cases a with
  | nil => rfl
  | cons x a => rw [runSteps, runSteps, same]

theorem window_first {W : Window (StreamCore κ) Byte 16} {a b : StreamCore κ}
    (same : W.refresh a = W.refresh b) (enc : Bool) (text : List Byte) :
    ((W.machine enc).feed (a, 0) text).1 = ((W.machine enc).feed (b, 0) text).1 :=
  runSteps_first (fun x => by simp only [Window.step, Window.ready, if_true, same]) text

theorem feed_buf (mode : StreamMode) (enc : Bool) (k : κ) (iv buf buf' : Block) (a : List Byte) :
    ((mode.machine m enc).feed (⟨k, iv, buf⟩, 0) a).1 =
      ((mode.machine m enc).feed (⟨k, iv, buf'⟩, 0) a).1 := by
  have core : SameCore (⟨k, iv, buf⟩ : StreamCore κ) ⟨k, iv, buf'⟩ := ⟨rfl, rfl⟩
  cases mode with
  | ctr => exact window_first (W := ctrWindow m) (by simp only [ctrWindow]) enc a
  | ofb =>
    refine window_congr (W := ofbWindow m) ?_ ?_ (fun _ _ _ _ same => same) enc core a
    · rintro a b ⟨key, iv⟩
      simp only [ofbWindow, key, iv]
      exact ⟨rfl, rfl⟩
    · rintro a b i ⟨key, iv⟩
      simp only [ofbWindow, iv]
  | cfb8 =>
    exact window_first (W := cfbBytesWindow m 1 _) (by simp only [cfbBytesWindow, cfbWindow]) enc a
  | cfb64 =>
    exact window_first (W := cfbBytesWindow m 8 _) (by simp only [cfbBytesWindow, cfbWindow]) enc a
  | cfb128 =>
    refine window_congr (W := cfb128Window m) ?_ ?_ ?_ enc core a
    · rintro a b ⟨key, iv⟩
      simp only [cfb128Window, cfbWindow, key, iv]
      exact ⟨rfl, rfl⟩
    · rintro a b i ⟨key, iv⟩
      simp only [cfb128Window, cfbWindow, iv]
    · rintro a b i c ⟨key, iv⟩
      simp only [cfb128Window, cfbWindow, iv]
      exact ⟨key, rfl⟩
  | cfb1 =>
    refine runSteps_first (fun x => ?_) a
    have bit (bit : Bool) : cfb1Step m enc ⟨k, iv, buf⟩ bit = cfb1Step m enc ⟨k, iv, buf'⟩ bit := by
      simp only [cfb1Step, cfb1Crypt]
    have bits : bitsOf x = x.getMsbD 0 :: (bitsOf x).tail := rfl
    have byte : cfb1Byte m enc ⟨k, iv, buf⟩ x = cfb1Byte m enc ⟨k, iv, buf'⟩ x := by
      rw [cfb1Byte, cfb1Byte, bits, runSteps, runSteps, bit]
    rw [byte]

theorem ctrl_reinitStatus (mode : StreamMode) (ctx : StreamModeCtx κ) (mem : Memory Byte)
    (iv : Nat) : (mode.method m).ctrl ctx mem .reinitStatus (some iv) 16 = ⟨cryptSuccess, { ctx with
      commonCtx := { ctx.commonCtx with iv := read 16 mem iv, offset := 0 } }, mem⟩ := by
  cases mode <;> rfl

theorem reinit_running {mode : StreamMode} {ctx : CryptEalCipherCtx (StreamModeCtx κ)}
    (used : ctx.states ≠ .new) (set : mode.Set ctx.ctx) (mem : Memory Byte) (iv : Nat)
    {ivLen : Nat} (length : ivLen = 16) :
    let r := cryptEalCipherReinit (mode.method m) ctx mem (some iv) ivLen
    r.ret = cryptSuccess ∧ Running mode r.ctx ctx.ctx.enc
      (⟨ctx.ctx.commonCtx.ciphCtx, read 16 mem iv, ctx.ctx.commonCtx.buf⟩, 0) := by
  have call : cryptEalCipherReinit (mode.method m) ctx mem (some iv) ivLen =
      ⟨cryptSuccess, ⟨.init, { ctx.ctx with
        commonCtx := { ctx.ctx.commonCtx with iv := read 16 mem iv, offset := 0 } }⟩, mem⟩ := by
    simp only [cryptEalCipherReinit, if_neg used, length, ctrl_reinitStatus, ne_eq,
      not_true_eq_false, if_false]
  rw [call]
  exact ⟨rfl, rfl, rfl, rfl, fun bits size => set bits size⟩

/-- After an initialization and any calls that leave the setting alone, failed ones included, a
reinitialized context puts out for a message what a context does that is initialized for it. -/
theorem reinit_eq {mode : StreamMode} {key iv iv₀ : Block} {text text₀ : List Byte}
    {feedback feedback₀ : Option Nat}
    {ctx ctx₀ : CryptEalCipherCtx (StreamModeCtx CryptSm4Ctx)} {msg msg₀ : Message}
    (sound : Sound ctx₀.ctx) (h₀ : EalSm4Streams.Carries mode key iv₀ text₀ ctx₀ feedback₀ msg₀)
    (h : EalSm4Streams.Carries mode key iv text ctx feedback msg)
    {calls : List (Memory Byte × Call)} (keeps : ∀ a ∈ calls, KeepsSetting a.2) (enc : Bool) :
    let method := mode.method Sm4SetKey.sm4Method
    let begun :=
      cryptEalCipherInit method ctx₀ msg₀.mem msg₀.key msg₀.keyLen (some msg₀.iv) msg₀.ivLen enc
    let set := setFeedback method begun.2 feedback₀
    msg.processAgain method (after method set.2 calls) =
      EalSm4Streams.sm4Process mode enc ctx feedback msg := by
  intro method begun set
  obtain ⟨-, -, running⟩ :=
    init_running Sm4SetKey.sm4Method mode enc h₀.keyed msg₀.iv h₀.ivLen h₀.chosen
  have opened : Sound set.2.ctx := by
    have made : Sound begun.2.ctx := (perform_performed Sm4SetKey.sm4Method mode sound msg₀.mem
      (.init msg₀.key msg₀.keyLen (some msg₀.iv) msg₀.ivLen enc)).sound
    have chosen : set = setFeedback method begun.2 feedback₀ := rfl
    cases feedback₀ with
    | none =>
      rw [chosen]
      exact made
    | some bits =>
      rw [chosen]
      exact (perform_performed Sm4SetKey.sm4Method mode made
        (store (fun _ => 0) 0 (int32Bytes bits)) (.ctrl .setFeedbacksize (some 0) 4)).sound
  obtain ⟨same, used⟩ := after_same Sm4SetKey.sm4Method mode opened keeps
  have open' : set.2.states ≠ .new := by
    intro fresh
    have states := running.states
    rw [show _ = EalCipherState.new from fresh] at states
    cases states
  obtain ⟨ret, again⟩ := reinit_running Sm4SetKey.sm4Method (fun new => open' (used.mp new))
    (same.set running.set) msg.mem msg.iv h.ivLen
  have key' : (after method set.2 calls).ctx.commonCtx.ciphCtx = EalSm4Blocks.keyCtx key :=
    same.key.trans (congrArg (fun s => s.1.ciphCtx) running.view)
  have direction : (after method set.2 calls).ctx.enc = enc := same.enc.trans running.direction
  rw [show _ = enc from direction, h.iv, show _ = EalSm4Blocks.keyCtx key from key'] at again
  rw [h.process_eq, Message.processAgain, if_neg (not_not.mpr ret)]
  have out := again.proceed Sm4SetKey.sm4Method mode h.bare h.short
  rw [h.text, feed_buf _ mode enc _ _ _ (Vector.replicate 16 0)] at out
  exact out

/-- Another message with zeros for the initial register, a refused update and a failed final call
come between. -/
theorem reinit_eq_after_failure :
    let method := StreamMode.ofb.method Sm4SetKey.sm4Method
    let first := EalSm4Streams.sample (fun a => if a < 16 then EalSm4Blocks.sampleMem a else 0) [3]
    let msg := EalSm4Streams.sample EalSm4Blocks.sampleMem [5, 15]
    let ctx := EalSm4Streams.sampleCtx
    let begun := cryptEalCipherInit method ctx first.mem first.key first.keyLen (some first.iv)
      first.ivLen true
    let set := setFeedback method begun.2 none
    msg.processAgain method (after method set.2 [
        (EalSm4Blocks.sampleMem, .update (some 32) 21 (some 1000) (some 64)),
        (EalSm4Blocks.sampleMem, .update (some 32) 9 (some 33) (some 64)),
        (EalSm4Blocks.sampleMem, .final none none), (EalSm4Blocks.sampleMem, .getPadding)]) =
      EalSm4Streams.sm4Process .ofb true ctx none msg := by
  intro method first msg ctx begun set
  have zeros := EalSm4Streams.sample_carries .ofb
    (fun a => if a < 16 then EalSm4Blocks.sampleMem a else 0) (by decide : [3].sum ≤ 64)
  have key : read 16 (fun a => if a < 16 then EalSm4Blocks.sampleMem a else 0) 0 =
      read 16 EalSm4Blocks.sampleMem 0 := by decide
  rw [key] at zeros
  refine reinit_eq ⟨(by decide : 5 < 16), Or.inr (Or.inl rfl)⟩ zeros
    (EalSm4Streams.sample_carries .ofb _ (by decide : [5, 15].sum ≤ 64)) ?_ true
  simp [KeepsSetting]

end SystemsLab.EalStreamRuns
