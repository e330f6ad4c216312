import SystemsLab.Eal.Cipher
import SystemsLab.Modes.CfbBits

/-! The methods of the CTR, OFB and CFB modes of openHiTLS (`modes.c`, `modes_ctr.c`, `modes_ofb.c`,
`modes_cfb.c`) for the cipher interface. An update of any length is one call of the machine
of the mode; CFB keeps its feedback size when everything else is wiped. -/

namespace SystemsLab.ModesStreamModes
open ByteWord Textbook Buffer StreamMachine WindowStream Sm4OpenHitls EalCipher ModesBlockCrypt
open ModesPadding ModesStreamCrypt ModesCfbBits

def cryptModesIvlenError : Int := 0x01100002
def cryptModeBuffLenNotEnough : Int := 0x01100007
def cryptModesCtrlTypeError : Int := 0x01100009
def cryptModesErrFeedbacksize : Int := 0x01100010

/-- `MODES_CipherCtx` without the cache, which stays empty here, or `MODES_CFB_Ctx`, which alone has
the feedback size. -/
structure StreamModeCtx (κ : Type) where
  commonCtx : ModesStreamCtx κ
  feedbackBits : Nat
  enc : Bool

variable {κ : Type}

/-! ## Common functions -/

def modesCipherNewCtx (ciphCtx : κ) (ivAt bufAt : Nat) : StreamModeCtx κ where
  commonCtx := ⟨⟨ciphCtx, Vector.replicate 16 0, Vector.replicate 16 0⟩, ivAt, bufAt, 0⟩
  feedbackBits := 128
  enc := false

def modesSetIv (ctx : ModesStreamCtx κ) (mem : Memory Byte) (val : Option Nat) (len : Nat) :
    Int × ModesStreamCtx κ :=
  match val with
  | none => (cryptNullInput, ctx)
  | some val =>
    if len ≠ 16 then (cryptModesIvlenError, ctx)
    else (cryptSuccess, { ctx with iv := read 16 mem val, offset := 0 })

def modesGetIv (ctx : ModesStreamCtx κ) (mem : Memory Byte) (val : Option Nat) (len : Nat) :
    Int × Memory Byte :=
  match val with
  | none => (cryptNullInput, mem)
  | some val =>
    if len ≠ 16 then (cryptModeErrInputLen, mem) else (cryptSuccess, write mem val ctx.iv)

def modesCipherInitCommonCtx (ctx : ModesStreamCtx κ)
    (setSymKey : κ → Memory Byte → Option Nat → Nat → Int × κ) (mem : Memory Byte)
    (key : Option Nat) (keyLen : Nat) (iv : Option Nat) (ivLen : Nat) : Int × ModesStreamCtx κ :=
  if iv = none ∧ 0 < ivLen then (cryptInvalidArg, ctx)
  else
    let r := setSymKey ctx.ciphCtx mem key keyLen
    let ctx := { ctx with ciphCtx := r.2 }
    if r.1 ≠ cryptSuccess then (r.1, ctx) else modesSetIv ctx mem iv ivLen

def modesClean (m : EalSymMethod κ) (ctx : ModesStreamCtx κ) : ModesStreamCtx κ :=
  { ctx with
    buf := Vector.replicate 16 0
    iv := Vector.replicate 16 0
    ciphCtx := m.cipherDeInitCtx ctx.ciphCtx
    offset := 0 }

def getBlockSize (ctx : StreamModeCtx κ) (mem : Memory Byte) (val : Option Nat) (len : Nat) :
    CtrlResult (StreamModeCtx κ) :=
  match val with
  | none => ⟨cryptInvalidArg, ctx, mem⟩
  | some val =>
    if len ≠ 4 then ⟨cryptInvalidArg, ctx, mem⟩
    else ⟨cryptSuccess, ctx, store mem val (int32Bytes 1)⟩

def modesCipherCtrl (ctx : StreamModeCtx κ) (mem : Memory Byte) (opt : CryptCipherCtrl)
    (val : Option Nat) (len : Nat) : CtrlResult (StreamModeCtx κ) :=
  match opt with
  | .reinitStatus =>
    let r := modesSetIv ctx.commonCtx mem val len
    ⟨r.1, { ctx with commonCtx := r.2 }, mem⟩
  | .getIv =>
    let r := modesGetIv ctx.commonCtx mem val len
    ⟨r.1, ctx, r.2⟩
  | _ => ⟨cryptModesCtrlTypeError, ctx, mem⟩

abbrev StreamProcess (κ : Type) :=
  ModesStreamCtx κ → Memory Byte → Nat → Nat → Nat → StreamResult κ

def modesCipherStreamProcess (process : StreamProcess κ) (ctx : StreamModeCtx κ)
    (mem : Memory Byte) (inp inLen out outLen : Nat) : UpdateResult (StreamModeCtx κ) :=
  if inLen = 0 then ⟨cryptSuccess, ctx, mem, 0⟩
  else if outLen < inLen then ⟨cryptModeBuffLenNotEnough, ctx, mem, outLen⟩
  else
    let r := process ctx.commonCtx mem inp out inLen
    let ctx := { ctx with commonCtx := r.ctx }
    if r.ret ≠ cryptSuccess then ⟨r.ret, ctx, r.mem, outLen⟩
    else ⟨cryptSuccess, ctx, r.mem, inLen⟩

section Methods

variable (m : EalSymMethod κ)

def modesCipherInitCtx (ctx : StreamModeCtx κ)
    (setSymKey : κ → Memory Byte → Option Nat → Nat → Int × κ) (mem : Memory Byte)
    (key : Option Nat) (keyLen : Nat) (iv : Option Nat) (ivLen : Nat) (enc : Bool) :
    Int × StreamModeCtx κ :=
  let r := modesCipherInitCommonCtx ctx.commonCtx setSymKey mem key keyLen iv ivLen
  (r.1, { ctx with commonCtx := r.2, enc := enc })

def modesCipherDeInitCtx (ctx : StreamModeCtx κ) : StreamModeCtx κ :=
  { ctx with commonCtx := modesClean m ctx.commonCtx }

/-- All modes have put everything out before the final call. -/
def streamFinal (ctx : StreamModeCtx κ) (mem : Memory Byte) (_out _outLen : Nat) :
    UpdateResult (StreamModeCtx κ) :=
  ⟨cryptSuccess, ctx, mem, 0⟩

def streamCtrl (ctx : StreamModeCtx κ) (mem : Memory Byte) (cmd : CryptCipherCtrl)
    (val : Option Nat) (valLen : Nat) : CtrlResult (StreamModeCtx κ) :=
  match cmd with
  | .getBlocksize => getBlockSize ctx mem val valLen
  | _ => modesCipherCtrl ctx mem cmd val valLen

/-! ## CTR -/

/-- Both directions use the key schedule of encryption. -/
def modesCtrInitCtx (ctx : StreamModeCtx κ) (mem : Memory Byte) (key : Option Nat) (keyLen : Nat)
    (iv : Option Nat) (ivLen : Nat) (enc : Bool) : Int × StreamModeCtx κ :=
  modesCipherInitCtx ctx m.setEncryptKey mem key keyLen iv ivLen enc

def modesCtrUpdate (ctx : StreamModeCtx κ) (mem : Memory Byte) (inp inLen out outLen : Nat) :
    UpdateResult (StreamModeCtx κ) :=
  modesCipherStreamProcess (modesCtrCrypt m) ctx mem inp inLen out outLen

def ctrMethod : EalCipherMethod (StreamModeCtx κ) where
  initCtx := modesCtrInitCtx m
  deinitCtx := modesCipherDeInitCtx m
  update := modesCtrUpdate m
  final := streamFinal
  ctrl := streamCtrl

/-! ## OFB -/

def modesOfbInitCtx (ctx : StreamModeCtx κ) (mem : Memory Byte) (key : Option Nat) (keyLen : Nat)
    (iv : Option Nat) (ivLen : Nat) (enc : Bool) : Int × StreamModeCtx κ :=
  modesCipherInitCtx ctx m.setEncryptKey mem key keyLen iv ivLen enc

def modesOfbUpdate (ctx : StreamModeCtx κ) (mem : Memory Byte) (inp inLen out outLen : Nat) :
    UpdateResult (StreamModeCtx κ) :=
  modesCipherStreamProcess (modesOfbCrypt m) ctx mem inp inLen out outLen

def ofbMethod : EalCipherMethod (StreamModeCtx κ) where
  initCtx := modesOfbInitCtx m
  deinitCtx := modesCipherDeInitCtx m
  update := modesOfbUpdate m
  final := streamFinal
  ctrl := streamCtrl

/-! ## CFB -/

def finished (r : Memory Byte × ModesStreamCtx κ) : StreamResult κ := ⟨cryptSuccess, r.2, r.1⟩

/-- `MODES_CFB_Encrypt` and `MODES_CFB_Decrypt`. The number of bits of the text is a `uint32_t`. -/
def modesCfbCrypt (feedbackBits : Nat) (enc : Bool) (ctx : ModesStreamCtx κ) (mem : Memory Byte)
    (inp out len : Nat) : StreamResult κ :=
  if len = 0 then ⟨cryptNullInput, ctx, mem⟩
  else match feedbackBits with
    | 1 => finished (modesCfbBitCrypt m enc inp out (len * 8 % 2 ^ 32) (mem, ctx))
    | 8 | 64 => finished ((cfbLoops m enc (feedbackBits >>> 3)).run inp out len (mem, ctx))
    | 128 => finished ((cfb128Loops m enc).run inp out len (mem, ctx))
    | _ => ⟨cryptModesErrFeedbacksize, ctx, mem⟩

def modesCfbEncrypt (feedbackBits : Nat) : StreamProcess κ := modesCfbCrypt m feedbackBits true

def modesCfbDecrypt (feedbackBits : Nat) : StreamProcess κ := modesCfbCrypt m feedbackBits false

def modesCfbUpdate (ctx : StreamModeCtx κ) (mem : Memory Byte) (inp inLen out outLen : Nat) :
    UpdateResult (StreamModeCtx κ) :=
  modesCipherStreamProcess (if ctx.enc then modesCfbEncrypt m ctx.feedbackBits
    else modesCfbDecrypt m ctx.feedbackBits) ctx mem inp inLen out outLen

/-- The length of the chaining value is checked before the key is taken. -/
def modesCfbInitCtx (ctx : StreamModeCtx κ) (mem : Memory Byte) (key : Option Nat) (keyLen : Nat)
    (iv : Option Nat) (ivLen : Nat) (enc : Bool) : Int × StreamModeCtx κ :=
  if ivLen ≠ 16 then (cryptModesIvlenError, ctx)
  else modesCipherInitCtx ctx m.setEncryptKey mem key keyLen iv ivLen enc

def uint32At (mem : Memory Byte) (p : Nat) : Nat :=
  (ofBytes (mem (p + 3)) (mem (p + 2)) (mem (p + 1)) (mem p)).toNat

def setFeedbackSize (ctx : StreamModeCtx κ) (mem : Memory Byte) (val : Option Nat) (len : Nat) :
    CtrlResult (StreamModeCtx κ) :=
  match val with
  | none => ⟨cryptNullInput, ctx, mem⟩
  | some val =>
    if len ≠ 4 then ⟨cryptModeErrInputLen, ctx, mem⟩
    else
      let bits := uint32At mem val
      if bits ≠ 1 ∧ bits ≠ 8 ∧ bits ≠ 64 ∧ bits ≠ 128 then ⟨cryptModesErrFeedbacksize, ctx, mem⟩
      else if 16 * 8 < bits then ⟨cryptModesErrFeedbacksize, ctx, mem⟩
      else ⟨cryptSuccess, { ctx with feedbackBits := bits % 2 ^ 8 }, mem⟩

def getFeedbackSize (ctx : StreamModeCtx κ) (mem : Memory Byte) (val : Option Nat) (len : Nat) :
    CtrlResult (StreamModeCtx κ) :=
  match val with
  | none => ⟨cryptNullInput, ctx, mem⟩
  | some val =>
    if len ≠ 4 then ⟨cryptModeErrInputLen, ctx, mem⟩
    else ⟨cryptSuccess, ctx, store mem val (int32Bytes ctx.feedbackBits)⟩

def modesCfbCtrl (ctx : StreamModeCtx κ) (mem : Memory Byte) (opt : CryptCipherCtrl)
    (val : Option Nat) (len : Nat) : CtrlResult (StreamModeCtx κ) :=
  match opt with
  | .setFeedbacksize => setFeedbackSize ctx mem val len
  | .getFeedbacksize => getFeedbackSize ctx mem val len
  | .getBlocksize => getBlockSize ctx mem val len
  | _ => modesCipherCtrl ctx mem opt val len

def cfbMethod : EalCipherMethod (StreamModeCtx κ) where
  initCtx := modesCfbInitCtx m
  deinitCtx := modesCipherDeInitCtx m
  update := modesCfbUpdate m
  final := streamFinal
  ctrl := modesCfbCtrl

end Methods

/-! ## The modes as one family -/

inductive StreamMode
  | ctr | ofb | cfb1 | cfb8 | cfb64 | cfb128
  deriving DecidableEq

namespace StreamMode

def feedbackBits : StreamMode → Option Nat
  | ctr | ofb => none
  | cfb1 => some 1
  | cfb8 => some 8
  | cfb64 => some 64
  | cfb128 => some 128

def Set (mode : StreamMode) (ctx : StreamModeCtx κ) : Prop :=
  ∀ bits, mode.feedbackBits = some bits → ctx.feedbackBits = bits

/-- How much of a text is processed: with a feedback of one bit, the number of bits wraps. -/
def reach : StreamMode → Nat → Nat
  | cfb1, len => len % 2 ^ 29
  | _, len => len

theorem reach_le (mode : StreamMode) (len : Nat) : mode.reach len ≤ len := by
  cases mode with
  | cfb1 => exact Nat.mod_le _ _
  | _ => exact Nat.le_refl len

variable (m : EalSymMethod κ)

def method : StreamMode → EalCipherMethod (StreamModeCtx κ)
  | ctr => ctrMethod m
  | ofb => ofbMethod m
  | _ => cfbMethod m

def process (enc : Bool) : StreamMode → StreamProcess κ
  | ctr => modesCtrCrypt m
  | ofb => modesOfbCrypt m
  | cfb1 => modesCfbCrypt m 1 enc
  | cfb8 => modesCfbCrypt m 8 enc
  | cfb64 => modesCfbCrypt m 64 enc
  | cfb128 => modesCfbCrypt m 128 enc

theorem eight_pos : 0 < 8 := by decide

def machine (enc : Bool) : StreamMode → Transducer (StreamCore κ × Nat) Byte 1
  | ctr => (ctrWindow m).machine enc
  | ofb => (ofbWindow m).machine enc
  | cfb1 => cfb1Machine m enc
  | cfb8 => (cfbBytesWindow m 1 Nat.one_pos).machine enc
  | cfb64 => (cfbBytesWindow m 8 eight_pos).machine enc
  | cfb128 => (cfb128Window m).machine enc

theorem machine_inverse (mode : StreamMode) :
    (mode.machine m true).Inverse (mode.machine m false) := by
  cases mode with
  | ctr => exact Window.machine_inverse _
  | ofb => exact Window.machine_inverse _
  | cfb1 => exact cfb1Machine_inverse m
  | cfb8 => exact Window.machine_inverse _
  | cfb64 => exact Window.machine_inverse _
  | cfb128 => exact Window.machine_inverse _

theorem process_eq (mode : StreamMode) (enc : Bool) (ctx : ModesStreamCtx κ) (mem : Memory Byte)
    {inp out len : Nat} (some : len ≠ 0) (clear : Clear inp out len) :
    let r := mode.process m enc ctx mem inp out len
    r.ret = cryptSuccess ∧
      (r.mem, r.ctx.view) = (mode.machine m enc).call inp out (mode.reach len) (mem, ctx.view) := by
  cases mode with
  | ctr => exact ⟨rfl, (ctrLoops_feeds m enc).run clear (mem, ctx)⟩
  | ofb => exact ⟨rfl, (ofbLoops_feeds m enc).run clear (mem, ctx)⟩
  | cfb1 =>
    have bits : len * 8 % 2 ^ 32 = 8 * (len % 2 ^ 29) := by
      rw [Nat.mul_comm]
      exact Nat.mul_mod_mul_left 8 len (2 ^ 29)
    have inside : Clear inp out (len % 2 ^ 29) := by
      have le := Nat.mod_le len (2 ^ 29)
      unfold Clear at clear ⊢
      omega
    simp only [process, modesCfbCrypt, if_neg some, bits]
    exact ⟨rfl, modesCfbBitCrypt_eq m enc inside (mem, ctx)⟩
  | cfb8 =>
    simp only [process, modesCfbCrypt, if_neg some]
    exact ⟨rfl, (cfbLoops_feeds m enc (by decide) (by decide)).run clear (mem, ctx)⟩
  | cfb64 =>
    simp only [process, modesCfbCrypt, if_neg some]
    exact ⟨rfl, (cfbLoops_feeds m enc (by decide) (by decide)).run clear (mem, ctx)⟩
  | cfb128 =>
    simp only [process, modesCfbCrypt, if_neg some]
    exact ⟨rfl, (cfb128Loops_feeds m enc).run clear (mem, ctx)⟩

theorem method_update (mode : StreamMode) {ctx : StreamModeCtx κ} (set : mode.Set ctx)
    (mem : Memory Byte) (inp inLen out outLen : Nat) :
    (mode.method m).update ctx mem inp inLen out outLen =
      modesCipherStreamProcess (mode.process m ctx.enc) ctx mem inp inLen out outLen := by
  have cfb (bits : Nat) (same : ctx.feedbackBits = bits) :
      modesCfbUpdate m ctx mem inp inLen out outLen =
        modesCipherStreamProcess (modesCfbCrypt m bits ctx.enc) ctx mem inp inLen out outLen := by
    rw [modesCfbUpdate, same]
    cases ctx.enc <;> rfl
  cases mode with
  | ctr => rfl
  | ofb => rfl
  | cfb1 => exact cfb 1 (set 1 rfl)
  | cfb8 => exact cfb 8 (set 8 rfl)
  | cfb64 => exact cfb 64 (set 64 rfl)
  | cfb128 => exact cfb 128 (set 128 rfl)

theorem update_eq (mode : StreamMode) {ctx : StreamModeCtx κ} (set : mode.Set ctx)
    (mem : Memory Byte) {inp inLen out outLen : Nat} (clear : Clear inp out inLen)
    (room : inLen ≤ outLen) :
    let u := (mode.machine m ctx.enc).feed ctx.commonCtx.view (load mem inp (mode.reach inLen))
    ∃ common : ModesStreamCtx κ, common.view = u.2 ∧
      (mode.method m).update ctx mem inp inLen out outLen =
        ⟨cryptSuccess, { ctx with commonCtx := common }, store mem out u.1, inLen⟩ := by
  intro u
  rw [mode.method_update m set, modesCipherStreamProcess]
  by_cases empty : inLen = 0
  · have zero : mode.reach inLen = 0 := Nat.le_zero.mp ((mode.reach_le inLen).trans_eq empty)
    have nothing : u = ([], ctx.commonCtx.view) := by
      have text : load mem inp (mode.reach inLen) = [] := by
        rw [zero]
        rfl
      show (mode.machine m ctx.enc).feed _ _ = _
      rw [text, Transducer.feed_nil]
    rw [if_pos empty, nothing, store_nil, empty]
    exact ⟨ctx.commonCtx, rfl, rfl⟩
  · obtain ⟨done, same⟩ := mode.process_eq m ctx.enc ctx.commonCtx mem empty clear
    obtain ⟨r, hr⟩ : ∃ r, r = mode.process m ctx.enc ctx.commonCtx mem inp out inLen := ⟨_, rfl⟩
    rw [← hr] at done same
    obtain ⟨put, view⟩ := Prod.mk.inj same
    rw [if_neg empty, if_neg (Nat.not_lt.mpr room), ← hr]
    simp only [done, ne_eq, not_true_eq_false, if_false, put]
    exact ⟨r.ctx, view, rfl⟩

theorem update_short (mode : StreamMode) {ctx : StreamModeCtx κ} (set : mode.Set ctx)
    (mem : Memory Byte) (inp out : Nat) {inLen outLen : Nat} (short : outLen < inLen) :
    (mode.method m).update ctx mem inp inLen out outLen =
      ⟨cryptModeBuffLenNotEnough, ctx, mem, outLen⟩ := by
  rw [mode.method_update m set, modesCipherStreamProcess, if_neg (by omega), if_pos short]

theorem method_final (mode : StreamMode) (ctx : StreamModeCtx κ) (mem : Memory Byte)
    (out outLen : Nat) :
    (mode.method m).final ctx mem out outLen = ⟨cryptSuccess, ctx, mem, 0⟩ := by
  cases mode <;> rfl

theorem method_deinitCtx (mode : StreamMode) (ctx : StreamModeCtx κ) :
    (mode.method m).deinitCtx ctx = modesCipherDeInitCtx m ctx := by
  cases mode <;> rfl

theorem method_initCtx (mode : StreamMode) {ctx : StreamModeCtx κ} {mem : Memory Byte}
    {key : Option Nat} {keyLen iv : Nat} (enc : Bool) {k : κ}
    (keyed : m.setEncryptKey ctx.commonCtx.ciphCtx mem key keyLen = (cryptSuccess, k)) :
    (mode.method m).initCtx ctx mem key keyLen (some iv) 16 enc =
      (cryptSuccess, { ctx with
        commonCtx := { ctx.commonCtx with ciphCtx := k, iv := read 16 mem iv, offset := 0 }
        enc := enc }) := by
  have common : modesCipherInitCtx ctx m.setEncryptKey mem key keyLen (some iv) 16 enc =
      (cryptSuccess, { ctx with
        commonCtx := { ctx.commonCtx with ciphCtx := k, iv := read 16 mem iv, offset := 0 }
        enc := enc }) := by
    simp only [modesCipherInitCtx, modesCipherInitCommonCtx, keyed, reduceCtorEq, false_and,
      if_false, ne_eq, not_true_eq_false, modesSetIv]
  have cfb : modesCfbInitCtx m ctx mem key keyLen (some iv) 16 enc = _ :=
    (if_neg (by decide)).trans common
  cases mode with
  | ctr => exact common
  | ofb => exact common
  | cfb1 => exact cfb
  | cfb8 => exact cfb
  | cfb64 => exact cfb
  | cfb128 => exact cfb

end StreamMode

end SystemsLab.ModesStreamModes
