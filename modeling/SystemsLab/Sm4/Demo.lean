import SystemsLab.Sm4.RoundTables

/-! The optimisation schemes of the openHiTLS demo (`testcode/demo`): a default loop, an
unrolled and a re-associated variant, and table variants that build their tables at
the first call. A scheme is a pair of block functions over its own static
variables; whatever was called before, every scheme computes the textbook cipher. -/

namespace SystemsLab.Sm4Demo
open ByteWord ShiftRegister CountedLoop Textbook Sm4Portable Sm4RoundTables

/-! ## Common definitions (`sm4_common.h`) -/

set_option maxRecDepth 4000 in
def sm4SboxRows : Vector (Vector Byte 16) 16 := #v[
  #v[0xD6, 0x90, 0xE9, 0xFE, 0xCC, 0xE1, 0x3D, 0xB7,
    0x16, 0xB6, 0x14, 0xC2, 0x28, 0xFB, 0x2C, 0x05],
  #v[0x2B, 0x67, 0x9A, 0x76, 0x2A, 0xBE, 0x04, 0xC3,
    0xAA, 0x44, 0x13, 0x26, 0x49, 0x86, 0x06, 0x99],
  #v[0x9C, 0x42, 0x50, 0xF4, 0x91, 0xEF, 0x98, 0x7A,
    0x33, 0x54, 0x0B, 0x43, 0xED, 0xCF, 0xAC, 0x62],
  #v[0xE4, 0xB3, 0x1C, 0xA9, 0xC9, 0x08, 0xE8, 0x95,
    0x80, 0xDF, 0x94, 0xFA, 0x75, 0x8F, 0x3F, 0xA6],
  #v[0x47, 0x07, 0xA7, 0xFC, 0xF3, 0x73, 0x17, 0xBA,
    0x83, 0x59, 0x3C, 0x19, 0xE6, 0x85, 0x4F, 0xA8],
  #v[0x68, 0x6B, 0x81, 0xB2, 0x71, 0x64, 0xDA, 0x8B,
    0xF8, 0xEB, 0x0F, 0x4B, 0x70, 0x56, 0x9D, 0x35],
  #v[0x1E, 0x24, 0x0E, 0x5E, 0x63, 0x58, 0xD1, 0xA2,
    0x25, 0x22, 0x7C, 0x3B, 0x01, 0x21, 0x78, 0x87],
  #v[0xD4, 0x00, 0x46, 0x57, 0x9F, 0xD3, 0x27, 0x52,
    0x4C, 0x36, 0x02, 0xE7, 0xA0, 0xC4, 0xC8, 0x9E],
  #v[0xEA, 0xBF, 0x8A, 0xD2, 0x40, 0xC7, 0x38, 0xB5,
    0xA3, 0xF7, 0xF2, 0xCE, 0xF9, 0x61, 0x15, 0xA1],
  #v[0xE0, 0xAE, 0x5D, 0xA4, 0x9B, 0x34, 0x1A, 0x55,
    0xAD, 0x93, 0x32, 0x30, 0xF5, 0x8C, 0xB1, 0xE3],
  #v[0x1D, 0xF6, 0xE2, 0x2E, 0x82, 0x66, 0xCA, 0x60,
    0xC0, 0x29, 0x23, 0xAB, 0x0D, 0x53, 0x4E, 0x6F],
  #v[0xD5, 0xDB, 0x37, 0x45, 0xDE, 0xFD, 0x8E, 0x2F,
    0x03, 0xFF, 0x6A, 0x72, 0x6D, 0x6C, 0x5B, 0x51],
  #v[0x8D, 0x1B, 0xAF, 0x92, 0xBB, 0xDD, 0xBC, 0x7F,
    0x11, 0xD9, 0x5C, 0x41, 0x1F, 0x10, 0x5A, 0xD8],
  #v[0x0A, 0xC1, 0x31, 0x88, 0xA5, 0xCD, 0x7B, 0xBD,
    0x2D, 0x74, 0xD0, 0x12, 0xB8, 0xE5, 0xB4, 0xB0],
  #v[0x89, 0x69, 0x97, 0x4A, 0x0C, 0x96, 0x77, 0x7E,
    0x65, 0xB9, 0xF1, 0x09, 0xC5, 0x6E, 0xC6, 0x84],
  #v[0x18, 0xF0, 0x7D, 0xEC, 0x3A, 0xDC, 0x4D, 0x20,
    0x79, 0xEE, 0x5F, 0x3E, 0xD7, 0xCB, 0x39, 0x48]]

theorem nibble_lt (x : Byte) : (x &&& 0x0F).toNat < 16 := by
  rw [BitVec.toNat_and]
  exact Nat.and_lt_two_pow (n := 4) _ (by decide)

def sm4Sbox (inp : Byte) : Byte :=
  (sm4SboxRows.get ⟨((inp >>> 4) &&& 0x0F).toNat, nibble_lt _⟩).get
    ⟨(inp &&& 0x0F).toNat, nibble_lt _⟩

def sm4S (a : Word) : Word :=
  ((sm4Sbox (((a >>> 24) &&& 0xFF).setWidth 8)).setWidth 32 <<< 24) |||
    ((sm4Sbox (((a >>> 16) &&& 0xFF).setWidth 8)).setWidth 32 <<< 16) |||
    ((sm4Sbox (((a >>> 8) &&& 0xFF).setWidth 8)).setWidth 32 <<< 8) |||
    (sm4Sbox ((a &&& 0xFF).setWidth 8)).setWidth 32

def sm4L (b : Word) : Word :=
  b ^^^ ((b <<< 2) ||| (b >>> 30)) ^^^ ((b <<< 10) ||| (b >>> 22)) ^^^
    ((b <<< 18) ||| (b >>> 14)) ^^^
    ((b <<< 24) ||| (b >>> 8))

def sm4T (a : Word) : Word := sm4L (sm4S a)

def sm4LoadBlock (inp : Block) : Window Word where
  a := (inp[0]!.setWidth 32 <<< 24) ||| (inp[1]!.setWidth 32 <<< 16) |||
    (inp[2]!.setWidth 32 <<< 8) ||| inp[3]!.setWidth 32
  b := (inp[4]!.setWidth 32 <<< 24) ||| (inp[5]!.setWidth 32 <<< 16) |||
    (inp[6]!.setWidth 32 <<< 8) ||| inp[7]!.setWidth 32
  c := (inp[8]!.setWidth 32 <<< 24) ||| (inp[9]!.setWidth 32 <<< 16) |||
    (inp[10]!.setWidth 32 <<< 8) ||| inp[11]!.setWidth 32
  d := (inp[12]!.setWidth 32 <<< 24) ||| (inp[13]!.setWidth 32 <<< 16) |||
    (inp[14]!.setWidth 32 <<< 8) ||| inp[15]!.setWidth 32

def sm4StoreBlock (x : Window Word) : Block := #v[
  ((x.d >>> 24) &&& 0xFF).setWidth 8, ((x.d >>> 16) &&& 0xFF).setWidth 8,
  ((x.d >>> 8) &&& 0xFF).setWidth 8, (x.d &&& 0xFF).setWidth 8,
  ((x.c >>> 24) &&& 0xFF).setWidth 8, ((x.c >>> 16) &&& 0xFF).setWidth 8,
  ((x.c >>> 8) &&& 0xFF).setWidth 8, (x.c &&& 0xFF).setWidth 8,
  ((x.b >>> 24) &&& 0xFF).setWidth 8, ((x.b >>> 16) &&& 0xFF).setWidth 8,
  ((x.b >>> 8) &&& 0xFF).setWidth 8, (x.b &&& 0xFF).setWidth 8,
  ((x.a >>> 24) &&& 0xFF).setWidth 8, ((x.a >>> 16) &&& 0xFF).setWidth 8,
  ((x.a >>> 8) &&& 0xFF).setWidth 8, (x.a &&& 0xFF).setWidth 8]

/-! ## Schemes -/

/-- The block functions of one source file, over its static variables. -/
structure Scheme where
  Statics : Type
  start : Statics
  sm4EncryptBlock : Statics → RoundKeys → Block → Statics × Block
  sm4DecryptBlock : Statics → RoundKeys → Block → Statics × Block

/-- The body that the looped schemes share: 32 rounds, round keys ascending. -/
def encryptLoop (round : Word → Window Word → Window Word) (rk : RoundKeys) (inp : Block) : Block :=
  sm4StoreBlock (Nat.fold 32 (fun i _ x => round rk[i] x) (sm4LoadBlock inp))

def decryptLoop (round : Word → Window Word → Window Word) (rk : RoundKeys) (inp : Block) : Block :=
  sm4StoreBlock (Nat.foldRev 32 (fun i _ x => round rk[i] x) (sm4LoadBlock inp))

def stateless (encrypt decrypt : RoundKeys → Block → Block) : Scheme where
  Statics := Unit
  start := ()
  sm4EncryptBlock st rk inp := (st, encrypt rk inp)
  sm4DecryptBlock st rk inp := (st, decrypt rk inp)

def defaultRound (rk : Word) (x : Window Word) : Window Word :=
  let tmp := x.b ^^^ x.c ^^^ x.d ^^^ rk
  let t := sm4T tmp
  let newX0 := x.a ^^^ t
  ⟨x.b, x.c, x.d, newX0⟩

def defaultLoop : Scheme := stateless (encryptLoop defaultRound) (decryptLoop defaultRound)

/-- `sm4_zbb.c`: the same code, compiled for another instruction set. -/
def zbb : Scheme := stateless (encryptLoop defaultRound) (decryptLoop defaultRound)

def reducedDepRound (rk : Word) (x : Window Word) : Window Word :=
  let tmp1 := x.b ^^^ x.c
  let tmp2 := x.d ^^^ rk
  let tmp := tmp1 ^^^ tmp2
  let t := sm4T tmp
  let newX0 := x.a ^^^ t
  let prevX1 := x.b
  let prevX2 := x.c
  ⟨prevX1, prevX2, x.d, newX0⟩

def reducedDep : Scheme := stateless (encryptLoop reducedDepRound) (decryptLoop reducedDepRound)

/-! ### `sm4_unrolled.c` -/

/-- `SM4_UNROLLED_ROUND`, which the decryption repeats as `SM4_UNROLLED_DEC_ROUND`. -/
def unrolledRound (rk : Word) (x : Window Word) : Window Word :=
  let tmp := x.b ^^^ x.c ^^^ x.d ^^^ rk
  let t := sm4T tmp
  let newX := x.a ^^^ t
  ⟨x.b, x.c, x.d, newX⟩

def unrolledEncryptBlock (rk : RoundKeys) (inp : Block) : Block :=
  let x := sm4LoadBlock inp
  let x := unrolledRound rk[0]! x
  let x := unrolledRound rk[1]! x
  let x := unrolledRound rk[2]! x
  let x := unrolledRound rk[3]! x
  let x := unrolledRound rk[4]! x
  let x := unrolledRound rk[5]! x
  let x := unrolledRound rk[6]! x
  let x := unrolledRound rk[7]! x
  let x := unrolledRound rk[8]! x
  let x := unrolledRound rk[9]! x
  let x := unrolledRound rk[10]! x
  let x := unrolledRound rk[11]! x
  let x := unrolledRound rk[12]! x
  let x := unrolledRound rk[13]! x
  let x := unrolledRound rk[14]! x
  let x := unrolledRound rk[15]! x
  let x := unrolledRound rk[16]! x
  let x := unrolledRound rk[17]! x
  let x := unrolledRound rk[18]! x
  let x := unrolledRound rk[19]! x
  let x := unrolledRound rk[20]! x
  let x := unrolledRound rk[21]! x
  let x := unrolledRound rk[22]! x
  let x := unrolledRound rk[23]! x
  let x := unrolledRound rk[24]! x
  let x := unrolledRound rk[25]! x
  let x := unrolledRound rk[26]! x
  let x := unrolledRound rk[27]! x
  let x := unrolledRound rk[28]! x
  let x := unrolledRound rk[29]! x
  let x := unrolledRound rk[30]! x
  let x := unrolledRound rk[31]! x
  sm4StoreBlock x

def unrolledDecryptBlock (rk : RoundKeys) (inp : Block) : Block :=
  let x := sm4LoadBlock inp
  let x := unrolledRound rk[31]! x
  let x := unrolledRound rk[30]! x
  let x := unrolledRound rk[29]! x
  let x := unrolledRound rk[28]! x
  let x := unrolledRound rk[27]! x
  let x := unrolledRound rk[26]! x
  let x := unrolledRound rk[25]! x
  let x := unrolledRound rk[24]! x
  let x := unrolledRound rk[23]! x
  let x := unrolledRound rk[22]! x
  let x := unrolledRound rk[21]! x
  let x := unrolledRound rk[20]! x
  let x := unrolledRound rk[19]! x
  let x := unrolledRound rk[18]! x
  let x := unrolledRound rk[17]! x
  let x := unrolledRound rk[16]! x
  let x := unrolledRound rk[15]! x
  let x := unrolledRound rk[14]! x
  let x := unrolledRound rk[13]! x
  let x := unrolledRound rk[12]! x
  let x := unrolledRound rk[11]! x
  let x := unrolledRound rk[10]! x
  let x := unrolledRound rk[9]! x
  let x := unrolledRound rk[8]! x
  let x := unrolledRound rk[7]! x
  let x := unrolledRound rk[6]! x
  let x := unrolledRound rk[5]! x
  let x := unrolledRound rk[4]! x
  let x := unrolledRound rk[3]! x
  let x := unrolledRound rk[2]! x
  let x := unrolledRound rk[1]! x
  let x := unrolledRound rk[0]! x
  sm4StoreBlock x

def unrolled : Scheme := stateless unrolledEncryptBlock unrolledDecryptBlock

/-! ### `sm4_xbox.c` -/

def rol (x : Word) (n : Nat) : Word := (x <<< n) ||| (x >>> (32 - n))

structure XboxStatics where
  xbox : Vector Word 256
  initialized : Bool

def initXbox (st : XboxStatics) : XboxStatics :=
  if st.initialized then st
  else ⟨Vector.ofFn fun i : Fin 256 => sm4L ((sm4Sbox (BitVec.ofNat 8 i)).setWidth 32), true⟩

def xboxRound (xbox : Vector Word 256) (rk : Word) (x : Window Word) : Window Word :=
  let t := x.b ^^^ x.c ^^^ x.d ^^^ rk
  let b0 : Byte := ((t >>> 24) &&& 0xFF).setWidth 8
  let b1 : Byte := ((t >>> 16) &&& 0xFF).setWidth 8
  let b2 : Byte := ((t >>> 8) &&& 0xFF).setWidth 8
  let b3 : Byte := (t &&& 0xFF).setWidth 8
  let newX0 :=
    x.a ^^^ rol (lookup xbox b0) 24 ^^^ rol (lookup xbox b1) 16 ^^^ rol (lookup xbox b2) 8 ^^^
    lookup xbox b3
  ⟨x.b, x.c, x.d, newX0⟩

def xbox : Scheme where
  Statics := XboxStatics
  start := ⟨Vector.replicate 256 0, false⟩
  sm4EncryptBlock st rk inp :=
    let st := initXbox st
    (st, encryptLoop (xboxRound st.xbox) rk inp)
  sm4DecryptBlock st rk inp :=
    let st := initXbox st
    (st, decryptLoop (xboxRound st.xbox) rk inp)

/-! ### `sm4_xbox_merged.c` and `sm4_xbox_zbb.c` -/

structure MergedStatics where
  xbox0 : Vector Word 256
  xbox1 : Vector Word 256
  xbox2 : Vector Word 256
  xbox3 : Vector Word 256
  initialized : Bool

/-- `initXboxMerged` and `initXboxZbb`. -/
def initXboxMerged (st : MergedStatics) : MergedStatics :=
  if st.initialized then st
  else
    let xbox0 : Vector Word 256 :=
      Vector.ofFn fun i : Fin 256 => sm4L ((sm4Sbox (BitVec.ofNat 8 i)).setWidth 32)
    ⟨xbox0, Vector.ofFn fun i : Fin 256 => rol xbox0[i] 8,
      Vector.ofFn fun i : Fin 256 => rol xbox0[i] 16,
      Vector.ofFn fun i : Fin 256 => rol xbox0[i] 24, true⟩

def mergedRound (st : MergedStatics) (rk : Word) (x : Window Word) : Window Word :=
  let t := x.b ^^^ x.c ^^^ x.d ^^^ rk
  let newX0 := x.a ^^^ lookup st.xbox3 (((t >>> 24) &&& 0xFF).setWidth 8) ^^^
    lookup st.xbox2 (((t >>> 16) &&& 0xFF).setWidth 8) ^^^
    lookup st.xbox1 (((t >>> 8) &&& 0xFF).setWidth 8) ^^^ lookup st.xbox0 ((t &&& 0xFF).setWidth 8)
  ⟨x.b, x.c, x.d, newX0⟩

/-- Both files hold the same functions over variables of their own. -/
def mergedScheme : Scheme where
  Statics := MergedStatics
  start := ⟨Vector.replicate 256 0, Vector.replicate 256 0, Vector.replicate 256 0,
    Vector.replicate 256 0, false⟩
  sm4EncryptBlock st rk inp :=
    let st := initXboxMerged st
    (st, encryptLoop (mergedRound st) rk inp)
  sm4DecryptBlock st rk inp :=
    let st := initXboxMerged st
    (st, decryptLoop (mergedRound st) rk inp)

def xboxMerged : Scheme := mergedScheme

def xboxZbb : Scheme := mergedScheme

/-! ## Every round is the textbook round -/

theorem sm4Sbox_eq : ∀ b : Byte, sm4Sbox b = sm4SboxByte b := by decide +kernel

theorem sm4T_eq (a : Word) : sm4T a = sm4RoundT a := by
  have last : (a &&& 0xFF).setWidth 8 = byteOf a 0 := setWidth_and_ff a 0
  rw [sm4T, sm4S]
  simp only [setWidth_and_ff, last, sm4Sbox_eq]
  rw [sm4RoundT, sm4SboxWord_eq]
  rfl

theorem boxEntry_eq (b : Byte) : sm4L ((sm4Sbox b).setWidth 32) = boxEntry b := by
  rw [sm4Sbox_eq]
  rfl

theorem sm4StoreBlock_eq (x : Window Word) : sm4StoreBlock x = storeWords x.rev := by
  have byte0 (w : Word) : (w &&& 0xFF).setWidth 8 = byteOf w 0 := setWidth_and_ff w 0
  simp only [sm4StoreBlock, setWidth_and_ff]
  simp only [byte0]
  rfl

def IsRound (round : Word → Window Word → Window Word) : Prop :=
  ∀ rk x, round rk x = shift (· ^^^ ·) (feedback sm4RoundT) rk x

theorem defaultRound_isRound : IsRound defaultRound := fun rk x => by
  rw [defaultRound, sm4T_eq]
  rfl

theorem unrolledRound_isRound : IsRound unrolledRound := fun rk x => by
  rw [unrolledRound, sm4T_eq]
  rfl

theorem reducedDepRound_isRound : IsRound reducedDepRound := fun rk x => by
  rw [reducedDepRound, sm4T_eq, ← BitVec.xor_assoc]
  rfl

theorem encryptLoop_eq {round : Word → Window Word → Window Word} (h : IsRound round)
    (rk : RoundKeys) (inp : Block) : encryptLoop round rk inp = cipher sm4RoundT rk.toList inp := by
  have same : round = shift (· ^^^ ·) (feedback sm4RoundT) := funext fun k => funext fun x => h k x
  rw [encryptLoop, fold_vector rk round, sm4StoreBlock_eq, same]
  rfl

theorem decryptLoop_eq {round : Word → Window Word → Window Word} (h : IsRound round)
    (rk : RoundKeys)
    (inp : Block) : decryptLoop round rk inp = cipher sm4RoundT rk.toList.reverse inp := by
  have same : round = shift (· ^^^ ·) (feedback sm4RoundT) := funext fun k => funext fun x => h k x
  rw [decryptLoop, foldRev_vector rk round, sm4StoreBlock_eq, same]
  rfl

theorem unrolledEncryptBlock_eq (rk : RoundKeys) (inp : Block) :
    unrolledEncryptBlock rk inp = cipher sm4RoundT rk.toList inp := by
  rw [unrolledEncryptBlock, sm4StoreBlock_eq, keys_eq]
  simp only [unrolledRound_isRound _ _]
  rfl

theorem unrolledDecryptBlock_eq (rk : RoundKeys) (inp : Block) :
    unrolledDecryptBlock rk inp = cipher sm4RoundT rk.toList.reverse inp := by
  rw [unrolledDecryptBlock, sm4StoreBlock_eq, keys_eq]
  simp only [unrolledRound_isRound _ _]
  rfl

theorem xboxRound_isRound {table : Vector Word 256} (h : ∀ b, lookup table b = boxEntry b) :
    IsRound (xboxRound table) := fun rk x => by
  have last (t : Word) : (t &&& 0xFF).setWidth 8 = byteOf t 0 := setWidth_and_ff t 0
  simp only [xboxRound, setWidth_and_ff, h]
  rw [last, shift, feedback, sm4RoundT_eq_boxEntry]
  simp only [BitVec.xor_assoc]
  rfl

structure MergedTables (st : MergedStatics) : Prop where
  xbox0 : ∀ b, lookup st.xbox0 b = boxEntry b
  xbox1 : ∀ b, lookup st.xbox1 b = rotl (boxEntry b) 8
  xbox2 : ∀ b, lookup st.xbox2 b = rotl (boxEntry b) 16
  xbox3 : ∀ b, lookup st.xbox3 b = rotl (boxEntry b) 24

theorem mergedRound_isRound {st : MergedStatics} (h : MergedTables st) : IsRound (mergedRound st) :=
  fun rk x => by
    have last (t : Word) : (t &&& 0xFF).setWidth 8 = byteOf t 0 := setWidth_and_ff t 0
    simp only [mergedRound, setWidth_and_ff, h.xbox1, h.xbox2, h.xbox3]
    rw [last, h.xbox0, shift, feedback, sm4RoundT_eq_boxEntry]
    simp only [BitVec.xor_assoc]

theorem initXbox_table {st : XboxStatics}
    (h : st.initialized = true → ∀ b, lookup st.xbox b = boxEntry b) :
    (initXbox st).initialized = true ∧ ∀ b, lookup (initXbox st).xbox b = boxEntry b := by
  rw [initXbox]
  split
  case isTrue built => exact ⟨built, h built⟩
  case isFalse =>
    refine ⟨rfl, fun b => ?_⟩
    rw [lookup_ofFn, BitVec.ofNat_toNat, BitVec.setWidth_eq, boxEntry_eq]

theorem initXboxMerged_tables {st : MergedStatics} (h : st.initialized = true → MergedTables st) :
    (initXboxMerged st).initialized = true ∧ MergedTables (initXboxMerged st) := by
  rw [initXboxMerged]
  split
  case isTrue built => exact ⟨built, h built⟩
  case isFalse =>
    have entry (b : Byte) : sm4L ((sm4Sbox (BitVec.ofNat 8 b.toNat)).setWidth 32) = boxEntry b := by
      rw [BitVec.ofNat_toNat, BitVec.setWidth_eq, boxEntry_eq]
    refine ⟨rfl, ⟨fun b => ?_, fun b => ?_, fun b => ?_, fun b => ?_⟩⟩
    · simp only [lookup_ofFn, entry]
    · simp only [lookup_ofFn, Fin.getElem_fin, Vector.getElem_ofFn, entry]
      rfl
    · simp only [lookup_ofFn, Fin.getElem_fin, Vector.getElem_ofFn, entry]
      rfl
    · simp only [lookup_ofFn, Fin.getElem_fin, Vector.getElem_ofFn, entry]
      rfl

/-! ## Calls in any order -/

inductive Call where
  | encrypt (rk : RoundKeys) (inp : Block)
  | decrypt (rk : RoundKeys) (inp : Block)

def Scheme.after (s : Scheme) (calls : List Call) : s.Statics :=
  calls.foldl (fun st call => match call with
    | .encrypt rk inp => (s.sm4EncryptBlock st rk inp).1
    | .decrypt rk inp => (s.sm4DecryptBlock st rk inp).1) s.start

/-- An invariant of the static variables under which both functions are the textbook cipher. -/
structure Sound (s : Scheme) (Good : s.Statics → Prop) : Prop where
  start : Good s.start
  encrypt : ∀ st rk inp, Good st → Good (s.sm4EncryptBlock st rk inp).1 ∧
    (s.sm4EncryptBlock st rk inp).2 = cipher sm4RoundT rk.toList inp
  decrypt : ∀ st rk inp, Good st → Good (s.sm4DecryptBlock st rk inp).1 ∧
    (s.sm4DecryptBlock st rk inp).2 = cipher sm4RoundT rk.toList.reverse inp

theorem Sound.after {s : Scheme} {Good : s.Statics → Prop} (h : Sound s Good) (calls : List Call) :
    Good (s.after calls) := by
  rw [Scheme.after]
  generalize hst : s.start = st
  have good : Good st := hst ▸ h.start
  clear hst
  induction calls generalizing st with
  | nil => exact good
  | cons call calls ih =>
    cases call with
    | encrypt rk inp => exact ih _ (h.encrypt st rk inp good).1
    | decrypt rk inp => exact ih _ (h.decrypt st rk inp good).1

theorem stateless_sound {encrypt decrypt : RoundKeys → Block → Block}
    (he : ∀ rk inp, encrypt rk inp = cipher sm4RoundT rk.toList inp)
    (hd : ∀ rk inp, decrypt rk inp = cipher sm4RoundT rk.toList.reverse inp) :
    Sound (stateless encrypt decrypt) fun _ => True :=
  ⟨trivial, fun _ rk inp _ => ⟨trivial, he rk inp⟩, fun _ rk inp _ => ⟨trivial, hd rk inp⟩⟩

theorem xbox_sound : Sound xbox fun st => st.initialized = true →
    ∀ b, lookup st.xbox b = boxEntry b where
  start h := absurd h Bool.false_ne_true
  encrypt _ rk inp h :=
    have built := initXbox_table h
    ⟨fun _ => built.2, encryptLoop_eq (xboxRound_isRound built.2) rk inp⟩
  decrypt _ rk inp h :=
    have built := initXbox_table h
    ⟨fun _ => built.2, decryptLoop_eq (xboxRound_isRound built.2) rk inp⟩

theorem merged_sound : Sound mergedScheme fun st => st.initialized = true → MergedTables st where
  start h := absurd h Bool.false_ne_true
  encrypt _ rk inp h :=
    have built := initXboxMerged_tables h
    ⟨fun _ => built.2, encryptLoop_eq (mergedRound_isRound built.2) rk inp⟩
  decrypt _ rk inp h :=
    have built := initXboxMerged_tables h
    ⟨fun _ => built.2, decryptLoop_eq (mergedRound_isRound built.2) rk inp⟩

def schemes : List Scheme := [defaultLoop, unrolled, reducedDep, xbox, xboxMerged, zbb, xboxZbb]

theorem schemes_sound : ∀ s ∈ schemes, ∃ Good, Sound s Good := by
  have loop : ∃ Good, Sound defaultLoop Good :=
    ⟨_, stateless_sound (encryptLoop_eq defaultRound_isRound) (decryptLoop_eq defaultRound_isRound)⟩
  intro s hs
  simp only [schemes, List.mem_cons, List.not_mem_nil, or_false] at hs
  rcases hs with rfl | rfl | rfl | rfl | rfl | rfl | rfl
  · exact loop
  · exact ⟨_, stateless_sound unrolledEncryptBlock_eq unrolledDecryptBlock_eq⟩
  · exact ⟨_, stateless_sound (encryptLoop_eq reducedDepRound_isRound)
      (decryptLoop_eq reducedDepRound_isRound)⟩
  · exact ⟨_, xbox_sound⟩
  · exact ⟨_, merged_sound⟩
  · exact loop
  · exact ⟨_, merged_sound⟩

/-- Whatever calls came before, every scheme encrypts and decrypts like the default loop, and
decryption undoes encryption, also with other calls in between. -/
theorem schemes_agree (s : Scheme) (hs : s ∈ schemes) (earlier later : List Call) (rk : RoundKeys)
    (x : Block) :
    (s.sm4EncryptBlock (s.after earlier) rk x).2 = (defaultLoop.sm4EncryptBlock () rk x).2 ∧
      (s.sm4DecryptBlock (s.after earlier) rk x).2 = (defaultLoop.sm4DecryptBlock () rk x).2 ∧
      (s.sm4DecryptBlock (s.after (earlier ++ .encrypt rk x :: later)) rk
        (s.sm4EncryptBlock (s.after earlier) rk x).2).2 = x := by
  obtain ⟨Good, sound⟩ := schemes_sound s hs
  have encrypted := (sound.encrypt _ rk x (sound.after earlier)).2
  have decrypted (y : Block) (calls : List Call) := (sound.decrypt _ rk y (sound.after calls)).2
  refine ⟨?_, ?_, ?_⟩
  · rw [encrypted]
    exact (encryptLoop_eq defaultRound_isRound rk x).symm
  · rw [decrypted]
    exact (decryptLoop_eq defaultRound_isRound rk x).symm
  · rw [encrypted, decrypted, cipher_reverse]

theorem schemes_agree_xbox :
    let rk : RoundKeys := Vector.replicate 32 7
    let x : Block := Vector.replicate 16 1
    (xbox.sm4DecryptBlock (xbox.after [.decrypt rk x, .encrypt rk x]) rk
      (xbox.sm4EncryptBlock (xbox.after [.decrypt rk x]) rk x).2).2 = x := by
  intro rk x
  exact (schemes_agree xbox (by simp [schemes]) [.decrypt rk x] [] rk x).2.2

end SystemsLab.Sm4Demo
