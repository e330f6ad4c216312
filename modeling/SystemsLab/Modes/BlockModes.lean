import SystemsLab.Modes.CipherUpdate

/-! The methods of the ECB and CBC modes of openHiTLS (`modes.c`, `modes_ecb.c`, `modes_cbc.c`) for
the cipher interface: contexts, initialization, control calls, updates and final calls. -/

namespace SystemsLab.ModesBlockModes
open ByteWord Textbook Buffer StreamMachine BlockStream Sm4OpenHitls EalCipher ModesPadding
open ModesBlockCrypt ModesCipherUpdate

def cryptModesIvlenError : Int := 0x01100002
def cryptModesCtrlTypeError : Int := 0x01100009
def cryptModesPaddingNotSupport : Int := 0x01100013

def paddingCode : CryptPaddingType → Int
  | .none => 0
  | .zeros => 1
  | .iso7816 => 2
  | .x923 => 3
  | .pkcs5 => 4
  | .pkcs7 => 5

def paddingOfCode (code : Int) : Option CryptPaddingType :=
  [CryptPaddingType.none, .zeros, .iso7816, .x923, .pkcs5, .pkcs7].find? (paddingCode · = code)

theorem paddingOfCode_paddingCode (padding : CryptPaddingType) :
    paddingOfCode (paddingCode padding) = some padding := by
  cases padding <;> rfl

variable {κ : Type}

/-! ## Common functions -/

/-- A new context, with its arrays at the given addresses; allocation does not fail. -/
def modesCipherNewCtx (algId : CryptCipherAlgId) (ciphCtx : κ) (ivAt bufAt dataAt : Nat) :
    ModesCipherCtx κ where
  commonCtx := ⟨ciphCtx, Vector.replicate 16 0, ivAt, bufAt⟩
  algId := algId
  data := fun _ => 0
  dataAt := dataAt
  dataLen := 0
  pad := .none
  enc := false

def modesSetIv (ctx : ModesCipherCommonCtx κ) (mem : Memory Byte) (val : Option Nat) (len : Nat) :
    Int × ModesCipherCommonCtx κ :=
  match val with
  | none => (cryptNullInput, ctx)
  | some val =>
    if len ≠ 16 then (cryptModesIvlenError, ctx)
    else (cryptSuccess, { ctx with iv := read 16 mem val })

def modesGetIv (ctx : ModesCipherCommonCtx κ) (mem : Memory Byte) (val : Option Nat) (len : Nat) :
    Int × Memory Byte :=
  match val with
  | none => (cryptNullInput, mem)
  | some val =>
    if len ≠ 16 then (cryptModeErrInputLen, mem) else (cryptSuccess, write mem val ctx.iv)

def modesCipherInitCommonCtx (ctx : ModesCipherCommonCtx κ)
    (setSymKey : κ → Memory Byte → Option Nat → Nat → Int × κ) (mem : Memory Byte)
    (key : Option Nat) (keyLen : Nat) (iv : Option Nat) (ivLen : Nat) :
    Int × ModesCipherCommonCtx κ :=
  if iv = none ∧ 0 < ivLen then (cryptInvalidArg, ctx)
  else
    let r := setSymKey ctx.ciphCtx mem key keyLen
    let ctx := { ctx with ciphCtx := r.2 }
    if r.1 ≠ cryptSuccess then (r.1, ctx) else modesSetIv ctx mem iv ivLen

def modesCipherInitCtx (ctx : ModesCipherCtx κ)
    (setSymKey : κ → Memory Byte → Option Nat → Nat → Int × κ) (mem : Memory Byte)
    (key : Option Nat) (keyLen : Nat) (iv : Option Nat) (ivLen : Nat) (enc : Bool) :
    Int × ModesCipherCtx κ :=
  let r := modesCipherInitCommonCtx ctx.commonCtx setSymKey mem key keyLen iv ivLen
  (r.1, { ctx with commonCtx := r.2, enc := enc })

def ealMaxBlockLength : Nat := 32

def clearData (ctx : ModesCipherCtx κ) : ModesCipherCtx κ :=
  { ctx with
    data := store ctx.data 0 (List.replicate ealMaxBlockLength 0)
    dataLen := 0
    pad := .none }

def modesClean (m : EalSymMethod κ) (ctx : ModesCipherCommonCtx κ) : ModesCipherCommonCtx κ :=
  { ctx with iv := Vector.replicate 16 0, ciphCtx := m.cipherDeInitCtx ctx.ciphCtx }

def modesCipherDeInitCtx (m : EalSymMethod κ) (ctx : ModesCipherCtx κ) : ModesCipherCtx κ :=
  let ctx := clearData ctx
  { ctx with commonCtx := modesClean m ctx.commonCtx }

def modesCipherCtrl (ctx : ModesCipherCtx κ) (mem : Memory Byte) (opt : CryptCipherCtrl)
    (val : Option Nat) (len : Nat) : CtrlResult (ModesCipherCtx κ) :=
  match opt with
  | .reinitStatus =>
    let ctx := clearData ctx
    let r := modesSetIv ctx.commonCtx mem val len
    ⟨r.1, { ctx with commonCtx := r.2 }, mem⟩
  | .getIv =>
    let r := modesGetIv ctx.commonCtx mem val len
    ⟨r.1, ctx, r.2⟩
  | _ => ⟨cryptModesCtrlTypeError, ctx, mem⟩

/-- The branch of `CRYPT_CTRL_SET_PADDING`, where the pointer is not checked. -/
def setPadding (ctx : ModesCipherCtx κ) (mem : Memory Byte) (val : Option Nat) :
    CtrlResult (ModesCipherCtx κ) :=
  match paddingOfCode (int32At mem (val.getD 0)) with
  | none => ⟨cryptModesPaddingNotSupport, ctx, mem⟩
  | some pad => ⟨cryptSuccess, { ctx with pad := pad }, mem⟩

def getPadding (ctx : ModesCipherCtx κ) (mem : Memory Byte) (val : Option Nat) :
    CtrlResult (ModesCipherCtx κ) :=
  ⟨cryptSuccess, ctx, store mem (val.getD 0) (int32Bytes (paddingCode ctx.pad))⟩

def getBlockSize (refused : Int) (ctx : ModesCipherCtx κ) (mem : Memory Byte) (val : Option Nat)
    (valLen : Nat) : CtrlResult (ModesCipherCtx κ) :=
  match val with
  | none => ⟨refused, ctx, mem⟩
  | some val =>
    if valLen ≠ 4 then ⟨refused, ctx, mem⟩
    else ⟨cryptSuccess, ctx, store mem val (int32Bytes 16)⟩

/-! ## ECB -/

section Methods

variable (m : EalSymMethod κ)

def modesEcbInitCtx (ctx : ModesCipherCtx κ) (mem : Memory Byte) (key : Option Nat) (keyLen : Nat)
    (_iv : Option Nat) (_ivLen : Nat) (enc : Bool) : Int × ModesCipherCtx κ :=
  let r := if enc then m.setEncryptKey ctx.commonCtx.ciphCtx mem key keyLen
    else m.setDecryptKey ctx.commonCtx.ciphCtx mem key keyLen
  let ctx := { ctx with commonCtx := { ctx.commonCtx with ciphCtx := r.2 } }
  if r.1 ≠ cryptSuccess then (r.1, ctx) else (r.1, { ctx with enc := enc })

def modesEcbUpdate (ctx : ModesCipherCtx κ) (mem : Memory Byte) (inp inLen out outLen : Nat) :
    UpdateResult (ModesCipherCtx κ) :=
  modesCipherUpdate (if ctx.enc then modesEcbEncrypt m else modesEcbDecrypt m) ctx mem inp inLen out
    outLen

def modesEcbFinal (ctx : ModesCipherCtx κ) (mem : Memory Byte) (out outLen : Nat) :
    UpdateResult (ModesCipherCtx κ) :=
  modesCipherFinal (if ctx.enc then modesEcbEncrypt m else modesEcbDecrypt m) ctx mem (some out)
    (some outLen)

def modesEcbCtrl (ctx : ModesCipherCtx κ) (mem : Memory Byte) (cmd : CryptCipherCtrl)
    (val : Option Nat) (valLen : Nat) : CtrlResult (ModesCipherCtx κ) :=
  match cmd with
  | .reinitStatus => ⟨cryptSuccess, clearData ctx, mem⟩
  | .setPadding => setPadding ctx mem val
  | .getPadding => getPadding ctx mem val
  | .getBlocksize => getBlockSize cryptInvalidArg ctx mem val valLen
  | _ => modesCipherCtrl ctx mem cmd val valLen

def ecbMethod : EalCipherMethod (ModesCipherCtx κ) where
  initCtx := modesEcbInitCtx m
  deinitCtx := modesCipherDeInitCtx m
  update := modesEcbUpdate m
  final := modesEcbFinal m
  ctrl := modesEcbCtrl

/-! ## CBC -/

def modesCbcInitCtx (ctx : ModesCipherCtx κ) (mem : Memory Byte) (key : Option Nat) (keyLen : Nat)
    (iv : Option Nat) (ivLen : Nat) (enc : Bool) : Int × ModesCipherCtx κ :=
  modesCipherInitCtx ctx (if enc then m.setEncryptKey else m.setDecryptKey) mem key keyLen iv ivLen
    enc

def modesCbcUpdate (ctx : ModesCipherCtx κ) (mem : Memory Byte) (inp inLen out outLen : Nat) :
    UpdateResult (ModesCipherCtx κ) :=
  modesCipherUpdate (if ctx.enc then modesCbcEncrypt m else modesCbcDecrypt m) ctx mem inp inLen out
    outLen

def modesCbcFinal (ctx : ModesCipherCtx κ) (mem : Memory Byte) (out outLen : Nat) :
    UpdateResult (ModesCipherCtx κ) :=
  modesCipherFinal (if ctx.enc then modesCbcEncrypt m else modesCbcDecrypt m) ctx mem (some out)
    (some outLen)

def modesCbcCtrl (ctx : ModesCipherCtx κ) (mem : Memory Byte) (cmd : CryptCipherCtrl)
    (val : Option Nat) (valLen : Nat) : CtrlResult (ModesCipherCtx κ) :=
  match cmd with
  | .setPadding => setPadding ctx mem val
  | .getPadding => getPadding ctx mem val
  | .getBlocksize => getBlockSize cryptModeErrInputLen ctx mem val valLen
  | _ => modesCipherCtrl ctx mem cmd val valLen

def cbcMethod : EalCipherMethod (ModesCipherCtx κ) where
  initCtx := modesCbcInitCtx m
  deinitCtx := modesCipherDeInitCtx m
  update := modesCbcUpdate m
  final := modesCbcFinal m
  ctrl := modesCbcCtrl

end Methods

/-! ## The two modes as one family -/

inductive BlockMode
  | ecb | cbc
  deriving DecidableEq

namespace BlockMode

variable (m : EalSymMethod κ)

def method : BlockMode → EalCipherMethod (ModesCipherCtx κ)
  | ecb => ecbMethod m
  | cbc => cbcMethod m

def blockUpdate : BlockMode → Bool → BlockUpdate κ
  | ecb, enc => if enc then modesEcbEncrypt m else modesEcbDecrypt m
  | cbc, enc => if enc then modesCbcEncrypt m else modesCbcDecrypt m

def machine : BlockMode → Bool → κ → Transducer Block Byte 16
  | ecb, enc, k => ecbMachine (if enc then m.encryptBlock k else m.decryptBlock k)
  | cbc, true, k => cbcEncMachine (m.encryptBlock k)
  | cbc, false, k => cbcDecMachine (m.decryptBlock k)

def serves : BlockMode → Bool → Nat → Nat → Nat → Prop
  | cbc, false => CbcServes
  | _, _ => Clear

def start (given : Block) : BlockMode → Block
  | ecb => Vector.replicate 16 0
  | cbc => given

theorem runs (mode : BlockMode) (enc : Bool) :
    Runs (mode.blockUpdate m enc) (mode.machine m enc) (mode.serves enc) := by
  cases mode with
  | ecb => cases enc with
    | false => exact modesEcbCrypt_runs m false
    | true => exact modesEcbCrypt_runs m true
  | cbc => cases enc with
    | false => exact modesCbcDecrypt_runs m
    | true => exact modesCbcEncrypt_runs m

theorem machine_inverse (mode : BlockMode) {k k' : κ}
    (inverse : ∀ b, m.decryptBlock k' (m.encryptBlock k b) = b) :
    (mode.machine m true k).Inverse (mode.machine m false k') := by
  cases mode with
  | ecb => exact ecbMachine_inverse inverse
  | cbc => exact cbcMachine_inverse inverse

theorem machine_inverse' (mode : BlockMode) {k k' : κ}
    (inverse : ∀ b, m.encryptBlock k (m.decryptBlock k' b) = b) :
    (mode.machine m false k').Inverse (mode.machine m true k) := by
  cases mode with
  | ecb => exact ecbMachine_inverse inverse
  | cbc => exact cbcMachine_inverse' inverse

theorem method_update (mode : BlockMode) (ctx : ModesCipherCtx κ) (mem : Memory Byte)
    (inp inLen out outLen : Nat) : (mode.method m).update ctx mem inp inLen out outLen =
      modesCipherUpdate (mode.blockUpdate m ctx.enc) ctx mem inp inLen out outLen := by
  cases mode <;> rfl

theorem method_final (mode : BlockMode) (ctx : ModesCipherCtx κ) (mem : Memory Byte)
    (out outLen : Nat) : (mode.method m).final ctx mem out outLen =
      modesCipherFinal (mode.blockUpdate m ctx.enc) ctx mem (some out) (some outLen) := by
  cases mode <;> rfl

theorem method_deinitCtx (mode : BlockMode) (ctx : ModesCipherCtx κ) :
    (mode.method m).deinitCtx ctx = modesCipherDeInitCtx m ctx := by
  cases mode <;> rfl

theorem method_setPadding (mode : BlockMode) (ctx : ModesCipherCtx κ) (mem : Memory Byte)
    (val : Option Nat) (len : Nat) :
    (mode.method m).ctrl ctx mem .setPadding val len = setPadding ctx mem val := by
  cases mode <;> rfl

theorem method_initCtx (mode : BlockMode) {ctx : ModesCipherCtx κ} {mem : Memory Byte}
    {key : Option Nat} {keyLen iv : Nat} {enc : Bool} {k : κ}
    (keyed : (if enc then m.setEncryptKey else m.setDecryptKey) ctx.commonCtx.ciphCtx mem key
      keyLen = (cryptSuccess, k))
    (clean : ctx.commonCtx.iv = Vector.replicate 16 0) :
    (mode.method m).initCtx ctx mem key keyLen (some iv) 16 enc =
      (cryptSuccess, { ctx with
        commonCtx := { ctx.commonCtx with ciphCtx := k, iv := mode.start (read 16 mem iv) }
        enc := enc }) := by
  cases mode with
  | ecb =>
    have set : (if enc then m.setEncryptKey ctx.commonCtx.ciphCtx mem key keyLen
        else m.setDecryptKey ctx.commonCtx.ciphCtx mem key keyLen) = (cryptSuccess, k) := by
      rw [← keyed]
      cases enc <;> rfl
    show modesEcbInitCtx m ctx mem key keyLen (some iv) 16 enc = _
    simp only [modesEcbInitCtx, set, ne_eq, not_true_eq_false, if_false, start, clean]
  | cbc =>
    show modesCbcInitCtx m ctx mem key keyLen (some iv) 16 enc = _
    simp only [modesCbcInitCtx, modesCipherInitCtx, modesCipherInitCommonCtx, keyed, reduceCtorEq,
      false_and, if_false, ne_eq, not_true_eq_false, modesSetIv, start]

end BlockMode

end SystemsLab.ModesBlockModes
