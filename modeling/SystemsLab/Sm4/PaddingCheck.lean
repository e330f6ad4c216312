import SystemsLab.General.ByteWord
import SystemsLab.General.CountedLoop

/-! The verdict at the end of the openHiTLS CBC demo (`sm4cbc_origin.c`): the scan of the padding,
the length that is left, and the comparison with the original message. All lengths fit in
`uint32_t`, and no sum or difference of the check leaves that range. -/

namespace SystemsLab.PaddingCheck
open ByteWord CountedLoop

def memcmp (a b : Nat → Byte) (n : Nat) : Int :=
  match (List.range n).find? fun i => a i != b i with
  | none => 0
  | some i => if (a i).toNat < (b i).toNat then -1 else 1

/-- `valid_padding`: the loop over the last `pad` bytes, which breaks at the first other one. -/
def validPadding (plainText : Nat → Byte) (blockNum : Nat) : Bool :=
  let pad := plainText (blockNum * 16 - 1)
  if 0 < pad.toNat ∧ pad.toNat ≤ 16 then
    (List.range pad.toNat).all fun i => plainText (blockNum * 16 - 1 - i) == pad
  else false

/-- `blockNum` after the padding check: a length in bytes, or zero. -/
def unpadded (plainText : Nat → Byte) (blockNum : Nat) : Nat :=
  if validPadding plainText blockNum then
    blockNum * 16 - (plainText (blockNum * 16 - 1)).toNat
  else 0

def finalCheck (plainText data : Nat → Byte) (cipherTextLen dataLen : Nat) : List String :=
  let blockNum := cipherTextLen / 16
  if blockNum = 0 then []
  else
    let warning := if validPadding plainText blockNum then [] else ["Invalid PKCS7 padding!\n"]
    let blockNum := unpadded plainText blockNum
    if memcmp plainText data dataLen ≠ 0 ∧ blockNum = dataLen then
      warning ++ ["plaintext comparison failed\n"]
    else warning ++ ["pass \n"]

/-! ## What a good decryption is -/

structure Padded (plainText : Nat → Byte) (total p : Nat) : Prop where
  pos : 1 ≤ p
  small : p ≤ 16
  bytes : ∀ i < p, plainText (total - 1 - i) = BitVec.ofNat 8 p

def PaddedTo (plainText : Nat → Byte) (total dataLen : Nat) : Prop :=
  ∃ p, Padded plainText total p ∧ total - p = dataLen

def Good (plainText data : Nat → Byte) (total dataLen : Nat) : Prop :=
  PaddedTo plainText total dataLen ∧ ∀ i < dataLen, plainText i = data i

variable {plainText data : Nat → Byte} {blockNum dataLen p : Nat}

theorem memcmp_eq_zero (a b : Nat → Byte) (n : Nat) : memcmp a b n = 0 ↔ ∀ i < n, a i = b i := by
  unfold memcmp
  split
  case h_1 none =>
    rw [List.find?_eq_none] at none
    refine ⟨fun _ i hi => ?_, fun _ => rfl⟩
    simpa using none i (List.mem_range.mpr hi)
  case h_2 i found =>
    have differ : a i ≠ b i := by simpa using List.find?_some found
    have inside : i < n := List.mem_range.mp (List.mem_of_find?_eq_some found)
    constructor
    · intro zero
      split at zero <;> cases zero
    · intro same
      exact absurd (same i inside) differ

theorem Padded.toNat (h : Padded plainText (blockNum * 16) p) :
    (plainText (blockNum * 16 - 1)).toNat = p := by
  have last := h.bytes 0 h.pos
  have small := h.small
  rw [Nat.sub_zero] at last
  rw [last, BitVec.toNat_ofNat]
  exact Nat.mod_eq_of_lt (by omega)

theorem Padded.valid (h : Padded plainText (blockNum * 16) p) :
    validPadding plainText blockNum = true := by
  have pad := h.toNat
  have last := h.bytes 0 h.pos
  rw [Nat.sub_zero] at last
  unfold validPadding
  dsimp only
  rw [pad, if_pos ⟨h.pos, h.small⟩, List.all_eq_true]
  intro i mem
  rw [beq_iff_eq, last]
  exact h.bytes i (List.mem_range.mp mem)

theorem padded_of_valid (h : validPadding plainText blockNum = true) :
    Padded plainText (blockNum * 16) (plainText (blockNum * 16 - 1)).toNat := by
  unfold validPadding at h
  dsimp only at h
  split at h
  case isTrue range =>
    refine ⟨range.1, range.2, fun i hi => ?_⟩
    rw [List.all_eq_true] at h
    rw [BitVec.ofNat_toNat, BitVec.setWidth_eq]
    exact beq_iff_eq.mp (h i (List.mem_range.mpr hi))
  case isFalse => cases h

theorem paddedTo_iff : PaddedTo plainText (blockNum * 16) dataLen ↔
    validPadding plainText blockNum = true ∧ unpadded plainText blockNum = dataLen := by
  constructor
  · rintro ⟨p, padded, rest⟩
    refine ⟨padded.valid, ?_⟩
    rw [unpadded, if_pos padded.valid, padded.toNat, rest]
  · rintro ⟨valid, rest⟩
    rw [unpadded, if_pos valid] at rest
    exact ⟨_, padded_of_valid valid, rest⟩

theorem pass_iff {cipherTextLen : Nat} (long : 16 ≤ cipherTextLen) :
    "pass \n" ∈ finalCheck plainText data cipherTextLen dataLen ↔
      (∀ i < dataLen, plainText i = data i) ∨
        unpadded plainText (cipherTextLen / 16) ≠ dataLen := by
  have some_block : cipherTextLen / 16 ≠ 0 := by omega
  unfold finalCheck
  dsimp only
  rw [if_neg some_block, ← memcmp_eq_zero]
  split
  case isTrue bad =>
    constructor
    · intro mem
      split at mem <;> simp at mem
    · rintro (same | other)
      · exact absurd same bad.1
      · exact absurd bad.2 other
  case isFalse fine =>
    refine ⟨fun _ => ?_, fun _ => List.mem_append_right _ List.mem_cons_self⟩
    by_contra neither
    rw [not_or, not_not] at neither
    exact fine neither

/-- The verdict is the right one exactly for buffers with a valid padding that leaves `dataLen`
bytes; then the bytes alone decide. -/
theorem finalCheck_correct_iff {plainText data : Nat → Byte} {cipherTextLen dataLen : Nat}
    (long : 16 ≤ cipherTextLen) :
    ("pass \n" ∈ finalCheck plainText data cipherTextLen dataLen ↔
        Good plainText data (cipherTextLen / 16 * 16) dataLen) ↔
      PaddedTo plainText (cipherTextLen / 16 * 16) dataLen := by
  rw [pass_iff long, Good]
  constructor
  · intro agree
    by_contra bad
    have rejected : ¬ ((∀ i < dataLen, plainText i = data i) ∨
        unpadded plainText (cipherTextLen / 16) ≠ dataLen) := fun pass => bad (agree.mp pass).1
    rw [not_or, not_not] at rejected
    by_cases valid : validPadding plainText (cipherTextLen / 16) = true
    · exact bad (paddedTo_iff.mpr ⟨valid, rejected.2⟩)
    · have empty : dataLen = 0 := by rw [← rejected.2, unpadded, if_neg valid]
      exact rejected.1 fun i hi => absurd hi (by omega)
  · intro padded
    obtain ⟨-, length⟩ := paddedTo_iff.mp padded
    exact ⟨fun pass => ⟨padded, pass.resolve_right (not_not.mpr length)⟩, fun good => Or.inl good.2⟩

theorem finalCheck_correct_one_block :
    "pass \n" ∈ finalCheck (fun i => if i < 15 then 0x1a else 0x01) (fun _ => 0x1a) 16 15 ↔
      Good (fun i => if i < 15 then 0x1a else 0x01) (fun _ => 0x1a) (16 / 16 * 16) 15 :=
  (finalCheck_correct_iff (by decide)).mpr ⟨1, ⟨by decide, by decide, by decide⟩, by decide⟩

/-- At the sizes of `main`, a decryption to zero bytes passes. -/
theorem finalCheck_passes_zeros :
    "pass \n" ∈ finalCheck (fun _ => 0) (fun _ => 0x1a) 1048592 1048576 ∧
      ¬ Good (fun _ => 0) (fun _ => 0x1a) (1048592 / 16 * 16) 1048576 := by
  have valid : validPadding (fun _ => 0) (1048592 / 16) = false := rfl
  constructor
  · rw [pass_iff (by decide), unpadded, valid]
    exact Or.inr (by decide)
  · rintro ⟨padded, -⟩
    have invalid := (paddedTo_iff.mp padded).1
    rw [valid] at invalid
    cases invalid

end SystemsLab.PaddingCheck
