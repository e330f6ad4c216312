import SystemsLab.Sm4.Textbook
import SystemsLab.General.CountedLoop

/-! The portable SM4 header of the third experiment (`sm4_portable.h`): constants, key
schedule and block function. The block function keeps its four words in place
and runs eight times a macro of four rounds; it is the textbook cipher all the same. -/

namespace SystemsLab.Sm4Portable
open ByteWord ShiftRegister CountedLoop Textbook

def sm4Fk : Vector Word 4 := #v[0xa3b1bac6, 0x56aa3350, 0x677d9197, 0xb27022dc]

def sm4Ck : Vector Word 32 := #v[
  0x00070E15, 0x1C232A31, 0x383F464D, 0x545B6269,
  0x70777E85, 0x8C939AA1, 0xA8AFB6BD, 0xC4CBD2D9,
  0xE0E7EEF5, 0xFC030A11, 0x181F262D, 0x343B4249,
  0x50575E65, 0x6C737A81, 0x888F969D, 0xA4ABB2B9,
  0xC0C7CED5, 0xDCE3EAF1, 0xF8FF060D, 0x141B2229,
  0x30373E45, 0x4C535A61, 0x686F767D, 0x848B9299,
  0xA0A7AEB5, 0xBCC3CAD1, 0xD8DFE6ED, 0xF4FB0209,
  0x10171E25, 0x2C333A41, 0x484F565D, 0x646B7279]

set_option maxRecDepth 4000 in
def sm4S : Vector Byte 256 := #v[
  0xD6, 0x90, 0xE9, 0xFE, 0xCC, 0xE1, 0x3D, 0xB7, 0x16, 0xB6, 0x14, 0xC2, 0x28, 0xFB, 0x2C, 0x05,
  0x2B, 0x67, 0x9A, 0x76, 0x2A, 0xBE, 0x04, 0xC3, 0xAA, 0x44, 0x13, 0x26, 0x49, 0x86, 0x06, 0x99,
  0x9C, 0x42, 0x50, 0xF4, 0x91, 0xEF, 0x98, 0x7A, 0x33, 0x54, 0x0B, 0x43, 0xED, 0xCF, 0xAC, 0x62,
  0xE4, 0xB3, 0x1C, 0xA9, 0xC9, 0x08, 0xE8, 0x95, 0x80, 0xDF, 0x94, 0xFA, 0x75, 0x8F, 0x3F, 0xA6,
  0x47, 0x07, 0xA7, 0xFC, 0xF3, 0x73, 0x17, 0xBA, 0x83, 0x59, 0x3C, 0x19, 0xE6, 0x85, 0x4F, 0xA8,
  0x68, 0x6B, 0x81, 0xB2, 0x71, 0x64, 0xDA, 0x8B, 0xF8, 0xEB, 0x0F, 0x4B, 0x70, 0x56, 0x9D, 0x35,
  0x1E, 0x24, 0x0E, 0x5E, 0x63, 0x58, 0xD1, 0xA2, 0x25, 0x22, 0x7C, 0x3B, 0x01, 0x21, 0x78, 0x87,
  0xD4, 0x00, 0x46, 0x57, 0x9F, 0xD3, 0x27, 0x52, 0x4C, 0x36, 0x02, 0xE7, 0xA0, 0xC4, 0xC8, 0x9E,
  0xEA, 0xBF, 0x8A, 0xD2, 0x40, 0xC7, 0x38, 0xB5, 0xA3, 0xF7, 0xF2, 0xCE, 0xF9, 0x61, 0x15, 0xA1,
  0xE0, 0xAE, 0x5D, 0xA4, 0x9B, 0x34, 0x1A, 0x55, 0xAD, 0x93, 0x32, 0x30, 0xF5, 0x8C, 0xB1, 0xE3,
  0x1D, 0xF6, 0xE2, 0x2E, 0x82, 0x66, 0xCA, 0x60, 0xC0, 0x29, 0x23, 0xAB, 0x0D, 0x53, 0x4E, 0x6F,
  0xD5, 0xDB, 0x37, 0x45, 0xDE, 0xFD, 0x8E, 0x2F, 0x03, 0xFF, 0x6A, 0x72, 0x6D, 0x6C, 0x5B, 0x51,
  0x8D, 0x1B, 0xAF, 0x92, 0xBB, 0xDD, 0xBC, 0x7F, 0x11, 0xD9, 0x5C, 0x41, 0x1F, 0x10, 0x5A, 0xD8,
  0x0A, 0xC1, 0x31, 0x88, 0xA5, 0xCD, 0x7B, 0xBD, 0x2D, 0x74, 0xD0, 0x12, 0xB8, 0xE5, 0xB4, 0xB0,
  0x89, 0x69, 0x97, 0x4A, 0x0C, 0x96, 0x77, 0x7E, 0x65, 0xB9, 0xF1, 0x09, 0xC5, 0x6E, 0xC6, 0x84,
  0x18, 0xF0, 0x7D, 0xEC, 0x3A, 0xDC, 0x4D, 0x20, 0x79, 0xEE, 0x5F, 0x3E, 0xD7, 0xCB, 0x39, 0x48]

def sm4Rotl (a : Word) (n : Nat) : Word := (a <<< n) ||| (a >>> (32 - n))

def sm4LoadU32Be (b : Block) (n : Nat) : Word :=
  (b[4 * n]!.setWidth 32 <<< 24) ||| (b[4 * n + 1]!.setWidth 32 <<< 16) |||
    (b[4 * n + 2]!.setWidth 32 <<< 8) ||| b[4 * n + 3]!.setWidth 32

def sm4StoreU32Be (v : Word) : Vector Byte 4 :=
  vec4 ((v >>> 24).setWidth 8) ((v >>> 16).setWidth 8) ((v >>> 8).setWidth 8) (v.setWidth 8)

def sm4SboxByte (x : Byte) : Byte := lookup sm4S x

def sm4SboxWord (x : Word) : Word :=
  ((sm4SboxByte ((x >>> 24).setWidth 8)).setWidth 32 <<< 24) |||
    ((sm4SboxByte ((x >>> 16).setWidth 8)).setWidth 32 <<< 16) |||
    ((sm4SboxByte ((x >>> 8).setWidth 8)).setWidth 32 <<< 8) |||
    (sm4SboxByte (x.setWidth 8)).setWidth 32

def sm4Linear (x : Word) : Word :=
  x ^^^ sm4Rotl x 2 ^^^ sm4Rotl x 10 ^^^ sm4Rotl x 18 ^^^ sm4Rotl x 24

def sm4KeyLinear (x : Word) : Word := x ^^^ sm4Rotl x 13 ^^^ sm4Rotl x 23

def sm4RoundT (x : Word) : Word := sm4Linear (sm4SboxWord x)

def sm4KeySub (x : Word) : Word := sm4KeyLinear (sm4SboxWord x)

/-! ## Key schedule -/

/-- Iteration `j` of the key loop, that is `i = 4 * j`. -/
def sm4SetKeyStep (j : Nat) (hj : j < 8) (st : Window Word × RoundKeys) : Window Word × RoundKeys :=
  let k0 := st.1.a ^^^ sm4KeySub (st.1.b ^^^ st.1.c ^^^ st.1.d ^^^ sm4Ck[4 * j])
  let k1 := st.1.b ^^^ sm4KeySub (st.1.c ^^^ st.1.d ^^^ k0 ^^^ sm4Ck[4 * j + 1])
  let k2 := st.1.c ^^^ sm4KeySub (st.1.d ^^^ k0 ^^^ k1 ^^^ sm4Ck[4 * j + 2])
  let k3 := st.1.d ^^^ sm4KeySub (k0 ^^^ k1 ^^^ k2 ^^^ sm4Ck[4 * j + 3])
  (⟨k0, k1, k2, k3⟩,
    (((st.2.set (4 * j) k0).set (4 * j + 1) k1).set (4 * j + 2) k2).set (4 * j + 3) k3)

def sm4SetKeyInit (key : Block) : Window Word :=
  ⟨sm4LoadU32Be key 0 ^^^ sm4Fk[0]!, sm4LoadU32Be key 1 ^^^ sm4Fk[1]!,
    sm4LoadU32Be key 2 ^^^ sm4Fk[2]!, sm4LoadU32Be key 3 ^^^ sm4Fk[3]!⟩

def sm4SetKey (key : Block) (ks : RoundKeys) : RoundKeys :=
  (Nat.fold 8 sm4SetKeyStep (sm4SetKeyInit key, ks)).2

/-! ## Block function -/

/-- The macro `SM4_RNDS` on the registers `b0 .. b3`. -/
def sm4Rnds (roundT : Word → Word) (k0 k1 k2 k3 : Word) (b : Window Word) : Window Word :=
  let b0 := b.a ^^^ roundT (b.b ^^^ b.c ^^^ b.d ^^^ k0)
  let b1 := b.b ^^^ roundT (b0 ^^^ b.c ^^^ b.d ^^^ k1)
  let b2 := b.c ^^^ roundT (b0 ^^^ b1 ^^^ b.d ^^^ k2)
  let b3 := b.d ^^^ roundT (b0 ^^^ b1 ^^^ b2 ^^^ k3)
  ⟨b0, b1, b2, b3⟩

/-- `sm4_crypt_block` over the round transform that the build selects. -/
def sm4CryptBlockWith (roundT : Word → Word) (inp : Block) (ks : RoundKeys) (decrypt : Int) :
    Block :=
  let b : Window Word := ⟨sm4LoadU32Be inp 0, sm4LoadU32Be inp 1,
    sm4LoadU32Be inp 2, sm4LoadU32Be inp 3⟩
  let rk : RoundKeys := if decrypt ≠ 0 then Vector.ofFn fun i : Fin 32 => ks[31 - i.val]! else ks
  let b := sm4Rnds roundT rk[0]! rk[1]! rk[2]! rk[3]! b
  let b := sm4Rnds roundT rk[4]! rk[5]! rk[6]! rk[7]! b
  let b := sm4Rnds roundT rk[8]! rk[9]! rk[10]! rk[11]! b
  let b := sm4Rnds roundT rk[12]! rk[13]! rk[14]! rk[15]! b
  let b := sm4Rnds roundT rk[16]! rk[17]! rk[18]! rk[19]! b
  let b := sm4Rnds roundT rk[20]! rk[21]! rk[22]! rk[23]! b
  let b := sm4Rnds roundT rk[24]! rk[25]! rk[26]! rk[27]! b
  let b := sm4Rnds roundT rk[28]! rk[29]! rk[30]! rk[31]! b
  concat4 (sm4StoreU32Be b.d) (sm4StoreU32Be b.c) (sm4StoreU32Be b.b) (sm4StoreU32Be b.a)

def sm4CryptBlock (inp : Block) (ks : RoundKeys) (decrypt : Int) : Block :=
  sm4CryptBlockWith sm4RoundT inp ks decrypt

def sm4EncryptBlock (inp : Block) (ks : RoundKeys) : Block := sm4CryptBlock inp ks 0

def sm4DecryptBlock (inp : Block) (ks : RoundKeys) : Block := sm4CryptBlock inp ks 1

/-! ## The header against the textbook -/

theorem sm4LoadU32Be_eq (b : Block) {n : Nat} (h : n < 4) :
    sm4LoadU32Be b n = wordAt b (4 * n) (by omega) := load_eq_wordAt b _

theorem sm4LoadU32Be_words (b : Block) :
    (⟨sm4LoadU32Be b 0, sm4LoadU32Be b 1, sm4LoadU32Be b 2, sm4LoadU32Be b 3⟩ : Window Word) =
      loadWords b := by
  simp only [sm4LoadU32Be_eq b (by decide : 0 < 4), sm4LoadU32Be_eq b (by decide : 1 < 4),
    sm4LoadU32Be_eq b (by decide : 2 < 4), sm4LoadU32Be_eq b (by decide : 3 < 4)]
  rfl

theorem sm4StoreU32Be_eq (v : Word) : sm4StoreU32Be v = bytesOf v := by
  simp [sm4StoreU32Be, bytesOf, byteOf]

theorem sm4SboxWord_eq (x : Word) : sm4SboxWord x =
    ofBytes (sm4SboxByte (byteOf x 24)) (sm4SboxByte (byteOf x 16))
      (sm4SboxByte (byteOf x 8)) (sm4SboxByte (byteOf x 0)) := by
  simp [sm4SboxWord, ofBytes, byteOf]

/-- Four in-place rounds are four steps of the shift register. -/
theorem sm4Rnds_eq (roundT : Word → Word) (k0 k1 k2 k3 : Word) (b : Window Word) :
    sm4Rnds roundT k0 k1 k2 k3 b = rounds roundT [k0, k1, k2, k3] b := by
  have turn (x y z : Word) : x ^^^ y ^^^ z = y ^^^ z ^^^ x := by
    rw [BitVec.xor_assoc, BitVec.xor_comm]
  simp only [sm4Rnds, rounds, run, List.foldl_cons, List.foldl_nil, shift, feedback,
    turn (b.a ^^^ _) b.c b.d]
  have swap (x y z : Word) : x ^^^ y ^^^ z = z ^^^ x ^^^ y := by
    rw [BitVec.xor_comm, BitVec.xor_assoc]
  simp only [swap _ _ b.d]

theorem sm4SetKeyStep_fst (j : Nat) (hj : j < 8) (st : Window Word × RoundKeys) :
    (sm4SetKeyStep j hj st).1 =
      rounds sm4KeySub [sm4Ck[4 * j], sm4Ck[4 * j + 1], sm4Ck[4 * j + 2], sm4Ck[4 * j + 3]] st.1 :=
        rfl

theorem sm4SetKeyStep_snd (j : Nat) (hj : j < 8) (st : Window Word × RoundKeys) :
    (sm4SetKeyStep j hj st).2.toList.take (4 * j + 4) = st.2.toList.take (4 * j) ++
      schedule sm4KeySub [sm4Ck[4 * j], sm4Ck[4 * j + 1], sm4Ck[4 * j + 2],
        sm4Ck[4 * j + 3]] st.1 := by
  simp only [sm4SetKeyStep]
  rw [take_toList_set, take_toList_set, take_toList_set, take_toList_set]
  simp [schedule, outputs, shift, feedback]

theorem sm4SetKey_toList (key : Block) (ks : RoundKeys) :
    (sm4SetKey key ks).toList = schedule sm4KeySub sm4Ck.toList (sm4SetKeyInit key) := by
  have inv := fold_inv (fun j (st : Window Word × RoundKeys) =>
      st.1 = rounds sm4KeySub (sm4Ck.toList.take (4 * j)) (sm4SetKeyInit key) ∧
      st.2.toList.take (4 * j) =
        schedule sm4KeySub (sm4Ck.toList.take (4 * j)) (sm4SetKeyInit key)) 8
    sm4SetKeyStep (sm4SetKeyInit key, ks) ⟨rfl, rfl⟩ (by
      intro j hj st ⟨window, filled⟩
      have four : sm4Ck.toList.take (4 * (j + 1)) = sm4Ck.toList.take (4 * j) ++
          [sm4Ck[4 * j], sm4Ck[4 * j + 1], sm4Ck[4 * j + 2], sm4Ck[4 * j + 3]] := by
        interval_cases j <;> rfl
      rw [four, rounds_append, schedule_append, ← window, ← filled]
      exact ⟨sm4SetKeyStep_fst j hj st, sm4SetKeyStep_snd j hj st⟩)
  have all := inv.2
  rwa [List.take_of_length_le (by simp), List.take_of_length_le (by simp)] at all

theorem sm4CryptBlockWith_eq (roundT : Word → Word) (inp : Block) (ks : RoundKeys) (decrypt : Int) :
    sm4CryptBlockWith roundT inp ks decrypt =
      cipher roundT (if decrypt ≠ 0 then ks.toList.reverse else ks.toList) inp := by
  have keys : (if decrypt ≠ 0 then Vector.ofFn fun i : Fin 32 => ks[31 - i.val]! else ks).toList =
      if decrypt ≠ 0 then ks.toList.reverse else ks.toList := by
    split
    · exact keys_reverse ks
    · rfl
  rw [← keys, keys_eq]
  simp only [cipher, rounds, run_append]
  simp only [sm4CryptBlockWith, sm4Rnds_eq, rounds, sm4LoadU32Be_words, sm4StoreU32Be_eq]
  rfl

theorem sm4EncryptBlock_eq (inp : Block) (ks : RoundKeys) :
    sm4EncryptBlock inp ks = cipher sm4RoundT ks.toList inp :=
  sm4CryptBlockWith_eq sm4RoundT inp ks 0

theorem sm4DecryptBlock_eq (inp : Block) (ks : RoundKeys) :
    sm4DecryptBlock inp ks = cipher sm4RoundT ks.toList.reverse inp :=
  sm4CryptBlockWith_eq sm4RoundT inp ks 1

theorem sm4DecryptBlock_sm4EncryptBlock (inp : Block) (ks : RoundKeys) :
    sm4DecryptBlock (sm4EncryptBlock inp ks) ks = inp := by
  rw [sm4EncryptBlock_eq, sm4DecryptBlock_eq, cipher_reverse]

theorem sm4EncryptBlock_sm4DecryptBlock (inp : Block) (ks : RoundKeys) :
    sm4EncryptBlock (sm4DecryptBlock inp ks) ks = inp := by
  rw [sm4EncryptBlock_eq, sm4DecryptBlock_eq, cipher_of_reverse]

end SystemsLab.Sm4Portable
