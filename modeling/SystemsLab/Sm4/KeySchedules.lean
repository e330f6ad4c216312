import SystemsLab.Sm4.Bitslice
import SystemsLab.Sm4.Demo

/-! The four key schedules. The header updates its four words in place; the scalar path of
the bitslice engine, the SIMD engine and the openHiTLS demo slide a window over them and
differ in their tables and in how they apply the S-box to a word. The SIMD engine does it
through a byte pointer, in the byte order of the machine. -/

namespace SystemsLab.Sm4KeySchedules
open ByteWord ShiftRegister CountedLoop Textbook Sm4Portable Sm4Bitslice

/-- The loop that three of the schedules share; `next` computes `rk[i]` from `CK[i]` and the
window. -/
def slidingSchedule (next : Word → Window Word → Word) (ck : Vector Word 32) (k : Window Word)
    (rk : RoundKeys) : RoundKeys :=
  (Nat.fold 32 (fun i _ (st : Window Word × RoundKeys) =>
    let rki := next ck[i] st.1
    (⟨st.1.b, st.1.c, st.1.d, rki⟩, st.2.set i rki)) (k, rk)).2

/-! ## `sm4_multibuffer_bitslice.c` -/

def scalarKeyNext (ck : Word) (k : Window Word) : Word :=
  let t := k.b ^^^ k.c ^^^ k.d ^^^ ck
  let s := scalarSbox t
  k.a ^^^ s ^^^ rotl32 s 13 ^^^ rotl32 s 23

def sm4SetKeyScalar (key : Block) (rk : RoundKeys) : RoundKeys :=
  slidingSchedule scalarKeyNext sm4Ck
    ⟨loadBe32 key 0 ^^^ sm4Fk[0]!, loadBe32 key 4 ^^^ sm4Fk[1]!, loadBe32 key 8 ^^^ sm4Fk[2]!,
      loadBe32 key 12 ^^^ sm4Fk[3]!⟩ rk

/-! ## `sm4_multibuffer_simd.c` -/

def simdFk : Vector Word 4 := ⟨⟨[0xa3b1bac6, 0x56aa3350, 0x677d9197, 0xb27022dc]⟩, rfl⟩

def simdCk : Vector Word 32 := ⟨⟨[
  0x00070e15, 0x1c232a31, 0x383f464d, 0x545b6269,
  0x70777e85, 0x8c939aa1, 0xa8afb6bd, 0xc4cbd2d9,
  0xe0e7eef5, 0xfc030a11, 0x181f262d, 0x343b4249,
  0x50575e65, 0x6c737a81, 0x888f969d, 0xa4abb2b9,
  0xc0c7ced5, 0xdce3eaf1, 0xf8ff060d, 0x141b2229,
  0x30373e45, 0x4c535a61, 0x686f767d, 0x848b9299,
  0xa0a7aeb5, 0xbcc3cad1, 0xd8dfe6ed, 0xf4fb0209,
  0x10171e25, 0x2c333a41, 0x484f565d, 0x646b7279]⟩, rfl⟩

set_option maxRecDepth 4000 in
def simdSBox : Vector Byte 256 := ⟨⟨[
  0xD6, 0x90, 0xE9, 0xFE, 0xCC, 0xE1, 0x3D, 0xB7, 0x16, 0xB6, 0x14, 0xC2, 0x28, 0xFB, 0x2C, 0x05,
  0x2B, 0x67, 0x9A, 0x76, 0x2A, 0xBE, 0x04, 0xC3, 0xAA, 0x44, 0x13, 0x26, 0x49, 0x86, 0x06, 0x99,
  0x9C, 0x42, 0x50, 0xF4, 0x91, 0xEF, 0x98, 0x7A, 0x33, 0x54, 0x0B, 0x43, 0xED, 0xCF, 0xAC, 0x62,
  0xE4, 0xB3, 0x1C, 0xA9, 0xC9, 0x08, 0xE8, 0x95, 0x80, 0xDF, 0x94, 0xFA, 0x75, 0x8F, 0x3F, 0xA6,
  0x47, 0x07, 0xA7, 0xFC, 0xF3, 0x73, 0x17, 0xBA, 0x83, 0x59, 0x3C, 0x19, 0xE6, 0x85, 0x4F, 0xA8,
  0x68, 0x6B, 0x81, 0xB2, 0x71, 0x64, 0xDA, 0x8B, 0xF8, 0xEB, 0x0F, 0x4B, 0x70, 0x56, 0x9D, 0x35,
  0x1E, 0x24, 0x0E, 0x5E, 0x63, 0x58, 0xD1, 0xA2, 0x25, 0x22, 0x7C, 0x3B, 0x01, 0x21, 0x78, 0x87,
  0xD4, 0x00, 0x46, 0x57, 0x9F, 0xD3, 0x27, 0x52, 0x4C, 0x36, 0x02, 0xE7, 0xA0, 0xC4, 0xC8, 0x9E,
  0xEA, 0xBF, 0x8A, 0xD2, 0x40, 0xC7, 0x38, 0xB5, 0xA3, 0xF7, 0xF2, 0xCE, 0xF9, 0x61, 0x15, 0xA1,
  0xE0, 0xAE, 0x5D, 0xA4, 0x9B, 0x34, 0x1A, 0x55, 0xAD, 0x93, 0x32, 0x30, 0xF5, 0x8C, 0xB1, 0xE3,
  0x1D, 0xF6, 0xE2, 0x2E, 0x82, 0x66, 0xCA, 0x60, 0xC0, 0x29, 0x23, 0xAB, 0x0D, 0x53, 0x4E, 0x6F,
  0xD5, 0xDB, 0x37, 0x45, 0xDE, 0xFD, 0x8E, 0x2F, 0x03, 0xFF, 0x6A, 0x72, 0x6D, 0x6C, 0x5B, 0x51,
  0x8D, 0x1B, 0xAF, 0x92, 0xBB, 0xDD, 0xBC, 0x7F, 0x11, 0xD9, 0x5C, 0x41, 0x1F, 0x10, 0x5A, 0xD8,
  0x0A, 0xC1, 0x31, 0x88, 0xA5, 0xCD, 0x7B, 0xBD, 0x2D, 0x74, 0xD0, 0x12, 0xB8, 0xE5, 0xB4, 0xB0,
  0x89, 0x69, 0x97, 0x4A, 0x0C, 0x96, 0x77, 0x7E, 0x65, 0xB9, 0xF1, 0x09, 0xC5, 0x6E, 0xC6, 0x84,
  0x18, 0xF0, 0x7D, 0xEC, 0x3A, 0xDC, 0x4D, 0x20, 0x79, 0xEE, 0x5F, 0x3E, 0xD7, 0xCB, 0x39, 0x48
  ]⟩, rfl⟩

inductive Endian where
  | little
  | big

def toMemory : Endian → Word → Vector Byte 4
  | .little, w => vec4 (byteOf w 0) (byteOf w 8) (byteOf w 16) (byteOf w 24)
  | .big, w => vec4 (byteOf w 24) (byteOf w 16) (byteOf w 8) (byteOf w 0)

def ofMemory : Endian → Vector Byte 4 → Word
  | .little, b => ofBytes b[3]! b[2]! b[1]! b[0]!
  | .big, b => ofBytes b[0]! b[1]! b[2]! b[3]!

/-- The loop over `tmp_ptr8`. -/
def substitute (e : Endian) (tmp : Word) : Word :=
  ofMemory e (Nat.fold 4 (fun j _ tmpPtr8 => tmpPtr8.set j (lookup simdSBox tmpPtr8[j]))
    (toMemory e tmp))

def simdKeyNext (e : Endian) (ck : Word) (k : Window Word) : Word :=
  let tmp := k.b ^^^ k.c ^^^ k.d ^^^ ck
  let tmp := substitute e tmp
  k.a ^^^ tmp ^^^ rotl tmp 13 ^^^ rotl tmp 23

def simdKeyWord (key : Block) (j : Nat) : Word :=
  (key[j + 0]!.setWidth 32 <<< 24) ||| (key[j + 1]!.setWidth 32 <<< 16) |||
    (key[j + 2]!.setWidth 32 <<< 8) ||| key[j + 3]!.setWidth 32

def sm4SimdKeyInit (e : Endian) (key : Block) (rk : RoundKeys) : RoundKeys :=
  slidingSchedule (simdKeyNext e) simdCk
    ⟨simdKeyWord key 0 ^^^ simdFk[0]!, simdKeyWord key 4 ^^^ simdFk[1]!,
      simdKeyWord key 8 ^^^ simdFk[2]!, simdKeyWord key 12 ^^^ simdFk[3]!⟩ rk

/-! ## `sm4_common.h` of the demo -/

def demoFk : Vector Word 4 := ⟨⟨[0xA3B1BAC6, 0x56AA3350, 0x677D9197, 0xB27022DC]⟩, rfl⟩

def demoCk : Vector Word 32 := ⟨⟨[
  0x00070E15, 0x1C232A31, 0x383F464D, 0x545B6269,
  0x70777E85, 0x8C939AA1, 0xA8AFB6BD, 0xC4CBD2D9,
  0xE0E7EEF5, 0xFC030A11, 0x181F262D, 0x343B4249,
  0x50575E65, 0x6C737A81, 0x888F969D, 0xA4ABB2B9,
  0xC0C7CED5, 0xDCE3EAF1, 0xF8FF060D, 0x141B2229,
  0x30373E45, 0x4C535A61, 0x686F767D, 0x848B9299,
  0xA0A7AEB5, 0xBCC3CAD1, 0xD8DFE6ED, 0xF4FB0209,
  0x10171E25, 0x2C333A41, 0x484F565D, 0x646B7279]⟩, rfl⟩

def sm4LPrime (b : Word) : Word :=
  b ^^^ ((b <<< 13) ||| (b >>> 19)) ^^^ ((b <<< 23) ||| (b >>> 9))

def sm4TPrime (a : Word) : Word := sm4LPrime (Sm4Demo.sm4S a)

def demoKeyNext (ck : Word) (k : Window Word) : Word :=
  let tmp := k.b ^^^ k.c ^^^ k.d ^^^ ck
  let t := sm4TPrime tmp
  k.a ^^^ t

def demoKeyWord (key : Block) (i : Nat) : Word :=
  (key[4 * i]!.setWidth 32 <<< 24) ||| (key[4 * i + 1]!.setWidth 32 <<< 16) |||
    (key[4 * i + 2]!.setWidth 32 <<< 8) ||| key[4 * i + 3]!.setWidth 32

def sm4KeyExpand (key : Block) (rk : RoundKeys) : RoundKeys :=
  slidingSchedule demoKeyNext demoCk
    ⟨demoKeyWord key 0 ^^^ demoFk[0]!, demoKeyWord key 1 ^^^ demoFk[1]!,
      demoKeyWord key 2 ^^^ demoFk[2]!, demoKeyWord key 3 ^^^ demoFk[3]!⟩ rk

/-! ## One schedule -/

theorem simdFk_eq : simdFk = sm4Fk := rfl

theorem simdCk_eq : simdCk = sm4Ck := rfl

theorem simdSBox_eq : simdSBox = sm4S := rfl

theorem demoFk_eq : demoFk = sm4Fk := rfl

theorem demoCk_eq : demoCk = sm4Ck := rfl

/-- `next` adds the substituted sum of the other three words and the constant. -/
def IsKeyNext (next : Word → Window Word → Word) : Prop :=
  ∀ ck k, next ck k = k.a ^^^ sm4KeySub (k.b ^^^ k.c ^^^ k.d ^^^ ck)

theorem slidingSchedule_eq {next : Word → Window Word → Word} (h : IsKeyNext next)
    (key : Block) (rk ks : RoundKeys) :
    slidingSchedule next sm4Ck (sm4SetKeyInit key) rk = sm4SetKey key ks := by
  rw [← Vector.toList_inj, sm4SetKey_toList]
  unfold slidingSchedule
  simp only [h _ _]
  exact schedule_fold sm4KeySub sm4Ck rk (sm4SetKeyInit key)

theorem keyLinear_sum (a s : Word) :
    a ^^^ s ^^^ rotl s 13 ^^^ rotl s 23 = a ^^^ sm4KeyLinear s := by
  unfold sm4KeyLinear sm4Rotl rotl
  simp only [BitVec.xor_assoc]

theorem scalarKeyNext_isKeyNext : IsKeyNext scalarKeyNext := fun ck k =>
  keyLinear_sum k.a (sm4SboxWord (k.b ^^^ k.c ^^^ k.d ^^^ ck))

theorem lookup_simdSBox (b : Byte) : lookup simdSBox b = sm4SboxByte b := by
  rw [simdSBox_eq, sm4SboxByte]

theorem substitute_eq (e : Endian) (tmp : Word) : substitute e tmp = sm4SboxWord tmp := by
  rw [sm4SboxWord_eq, substitute]
  simp only [lookup_simdSBox]
  cases e <;> rfl

theorem simdKeyNext_isKeyNext (e : Endian) : IsKeyNext (simdKeyNext e) := fun ck k => by
  rw [simdKeyNext]
  rw [substitute_eq, keyLinear_sum, sm4KeySub]

theorem sm4TPrime_eq (a : Word) : sm4TPrime a = sm4KeySub a := by
  have last : (a &&& 0xFF).setWidth 8 = byteOf a 0 := setWidth_and_ff a 0
  rw [sm4TPrime, Sm4Demo.sm4S]
  simp only [setWidth_and_ff, last, Sm4Demo.sm4Sbox_eq]
  rw [sm4KeySub, sm4SboxWord_eq]
  rfl

theorem demoKeyNext_isKeyNext : IsKeyNext demoKeyNext := fun ck k => by
  rw [demoKeyNext]
  rw [sm4TPrime_eq]

theorem sm4SetKeyScalar_eq (key : Block) (rk ks : RoundKeys) :
    sm4SetKeyScalar key rk = sm4SetKey key ks :=
  slidingSchedule_eq scalarKeyNext_isKeyNext key rk ks

theorem sm4SimdKeyInit_eq (e : Endian) (key : Block) (rk ks : RoundKeys) :
    sm4SimdKeyInit e key rk = sm4SetKey key ks := by
  rw [sm4SimdKeyInit, simdCk_eq, simdFk_eq]
  exact slidingSchedule_eq (simdKeyNext_isKeyNext e) key rk ks

theorem sm4KeyExpand_eq (key : Block) (rk ks : RoundKeys) :
    sm4KeyExpand key rk = sm4SetKey key ks := by
  rw [sm4KeyExpand, demoCk_eq, demoFk_eq]
  exact slidingSchedule_eq demoKeyNext_isKeyNext key rk ks

/-- For every key the four schedules fill their arrays with the same round keys, the SIMD one on
machines of either byte order. -/
theorem key_schedules_agree (key : Block) (ks rk : RoundKeys) :
    sm4SetKeyScalar key rk = sm4SetKey key ks ∧
      (∀ e, sm4SimdKeyInit e key rk = sm4SetKey key ks) ∧
      sm4KeyExpand key rk = sm4SetKey key ks :=
  ⟨sm4SetKeyScalar_eq key rk ks, fun e => sm4SimdKeyInit_eq e key rk ks,
    sm4KeyExpand_eq key rk ks⟩

end SystemsLab.Sm4KeySchedules
