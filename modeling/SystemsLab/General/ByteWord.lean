import Mathlib.Data.BitVec
import Mathlib.Data.Vector.Basic

/-! Big-endian bytes of 32-bit words, rotations by shifts, and 256-entry tables.
Everything is stated bit by bit (`getLsbD`), so a caller never unfolds a shift. -/

namespace SystemsLab.ByteWord

abbrev Byte := BitVec 8
abbrev Word := BitVec 32

def byteOf (v : Word) (s : Nat) : Byte := (v >>> s).setWidth 8

def ofBytes (a b c d : Byte) : Word :=
  (a.setWidth 32 <<< 24) ||| (b.setWidth 32 <<< 16) ||| (c.setWidth 32 <<< 8) ||| d.setWidth 32

theorem getLsbD_byteOf (v : Word) (s i : Nat) :
    (byteOf v s).getLsbD i = (decide (i < 8) && v.getLsbD (s + i)) := by
  simp only [byteOf, BitVec.getLsbD_setWidth, BitVec.getLsbD_ushiftRight]

theorem getLsbD_ofBytes (a b c d : Byte) (i : Nat) :
    (ofBytes a b c d).getLsbD i =
      if i < 8 then d.getLsbD i else if i < 16 then c.getLsbD (i - 8)
      else if i < 24 then b.getLsbD (i - 16) else if i < 32 then a.getLsbD (i - 24) else false := by
  simp only [ofBytes, BitVec.getLsbD_or, BitVec.getLsbD_shiftLeft, BitVec.getLsbD_setWidth]
  split_ifs <;> grind

theorem byteOf_ofBytes (a b c d : Byte) :
    byteOf (ofBytes a b c d) 24 = a ∧ byteOf (ofBytes a b c d) 16 = b ∧
      byteOf (ofBytes a b c d) 8 = c ∧ byteOf (ofBytes a b c d) 0 = d := by
  refine ⟨?_, ?_, ?_, ?_⟩ <;>
  · apply BitVec.eq_of_getLsbD_eq
    intro i hi
    simp only [getLsbD_byteOf, getLsbD_ofBytes]
    grind

theorem ofBytes_byteOf (v : Word) :
    ofBytes (byteOf v 24) (byteOf v 16) (byteOf v 8) (byteOf v 0) = v := by
  apply BitVec.eq_of_getLsbD_eq
  intro i hi
  simp only [getLsbD_ofBytes, getLsbD_byteOf]
  grind

theorem byteOf_shiftRight (v : Word) (m s : Nat) : byteOf (v >>> m) s = byteOf v (m + s) := by
  rw [byteOf, byteOf, BitVec.shiftRight_add]

theorem setWidth_and_ff (v : Word) (s : Nat) :
    ((v >>> s) &&& 0xFF).setWidth 8 = byteOf v s := by
  apply BitVec.eq_of_getLsbD_eq
  intro i hi
  have mask : (0xFF : Word).getLsbD i = true := by
    revert i
    decide
  simp only [byteOf, BitVec.getLsbD_setWidth, BitVec.getLsbD_and, mask, Bool.and_true]

theorem toNat_and_ff (v : Word) (s : Nat) : ((v >>> s) &&& 0xFF).toNat = (byteOf v s).toNat := by
  rw [← setWidth_and_ff, BitVec.toNat_setWidth, Nat.mod_eq_of_lt]
  rw [BitVec.toNat_and]
  exact Nat.and_lt_two_pow _ (by decide)

/-! ## Rotations -/

/-- A left rotation written with two shifts, as C code writes it. -/
def rotl (x : Word) (n : Nat) : Word := (x <<< n) ||| (x >>> (32 - n))

theorem getLsbD_rotl (x : Word) (n i : Nat) :
    (rotl x n).getLsbD i =
      (decide (i < 32) && if i < n then x.getLsbD (32 - n + i) else x.getLsbD (i - n)) := by
  simp only [rotl, BitVec.getLsbD_or, BitVec.getLsbD_shiftLeft, BitVec.getLsbD_ushiftRight]
  by_cases h : i < n
  · by_cases hi : i < 32
    · simp [h, hi]
    · have out : 32 ≤ 32 - n + i := by omega
      simp [h, hi, BitVec.getLsbD_of_ge _ _ out]
  · have out : 32 ≤ 32 - n + i := by omega
    simp [h, BitVec.getLsbD_of_ge _ _ out]

@[simp] theorem rotl_zero (x : Word) : rotl x 0 = x := by
  apply BitVec.eq_of_getLsbD_eq
  intro i hi
  simp only [getLsbD_rotl, hi, decide_true, Bool.true_and, Nat.not_lt_zero, if_false, Nat.sub_zero]

theorem rotl_xor (x y : Word) (n : Nat) : rotl (x ^^^ y) n = rotl x n ^^^ rotl y n := by
  apply BitVec.eq_of_getLsbD_eq
  intro i hi
  simp only [getLsbD_rotl, BitVec.getLsbD_xor]
  split_ifs <;> simp [hi]

theorem rotl_rotl (x : Word) (m n : Nat) (hm : m ≤ 32) (hn : n ≤ 32) :
    rotl (rotl x m) n = rotl x ((m + n) % 32) := by
  apply BitVec.eq_of_getLsbD_eq
  intro i hi
  simp only [getLsbD_rotl, hi, decide_true, Bool.true_and]
  have sum : (m + n) % 32 = m + n ∨ (m + n) % 32 + 32 = m + n ∨
      ((m + n) % 32 = 0 ∧ m + n = 64) := by omega
  split_ifs <;> grind

theorem rotl_comm (x : Word) (m n : Nat) (hm : m ≤ 32) (hn : n ≤ 32) :
    rotl (rotl x m) n = rotl (rotl x n) m := by
  rw [rotl_rotl x m n hm hn, rotl_rotl x n m hn hm, Nat.add_comm]

theorem shiftLeft_setWidth (b : Byte) (s : Nat) (hs : s ≤ 24) :
    b.setWidth 32 <<< s = rotl (b.setWidth 32) s := by
  apply BitVec.eq_of_getLsbD_eq
  intro i hi
  simp only [getLsbD_rotl, BitVec.getLsbD_shiftLeft, BitVec.getLsbD_setWidth]
  by_cases h : i < s
  · have out : 8 ≤ 32 - s + i := by omega
    simp [h, hi, BitVec.getLsbD_of_ge _ _ out]
  · simp [h, hi]

/-- The four bytes of a word do not overlap, so they may be joined by XOR. -/
theorem ofBytes_eq_xor (a b c d : Byte) :
    ofBytes a b c d = rotl (a.setWidth 32) 24 ^^^ rotl (b.setWidth 32) 16 ^^^
      rotl (c.setWidth 32) 8 ^^^ d.setWidth 32 := by
  rw [← shiftLeft_setWidth a 24 (by decide), ← shiftLeft_setWidth b 16 (by decide),
    ← shiftLeft_setWidth c 8 (by decide)]
  apply BitVec.eq_of_getLsbD_eq
  intro i hi
  simp only [getLsbD_ofBytes, BitVec.getLsbD_xor, BitVec.getLsbD_shiftLeft,
    BitVec.getLsbD_setWidth]
  split_ifs <;> grind

theorem ofBytes_xor (a b c d a' b' c' d' : Byte) :
    ofBytes a b c d ^^^ ofBytes a' b' c' d' =
      ofBytes (a ^^^ a') (b ^^^ b') (c ^^^ c') (d ^^^ d') := by
  apply BitVec.eq_of_getLsbD_eq
  intro i hi
  simp only [BitVec.getLsbD_xor, getLsbD_ofBytes]
  split_ifs <;> rfl

theorem ofBytes_inj (a b c d a' b' c' d' : Byte) :
    ofBytes a b c d = ofBytes a' b' c' d' ↔ a = a' ∧ b = b' ∧ c = c' ∧ d = d' := by
  constructor
  · intro h
    obtain ⟨ha, hb, hc, hd⟩ := byteOf_ofBytes a b c d
    obtain ⟨ha', hb', hc', hd'⟩ := byteOf_ofBytes a' b' c' d'
    rw [h] at ha hb hc hd
    exact ⟨ha.symm.trans ha', hb.symm.trans hb', hc.symm.trans hc', hd.symm.trans hd'⟩
  · rintro ⟨rfl, rfl, rfl, rfl⟩
    rfl

theorem rotl_ofBytes (a b c d : Byte) : rotl (ofBytes a b c d) 8 = ofBytes b c d a := by
  apply BitVec.eq_of_getLsbD_eq
  intro i hi
  simp only [getLsbD_rotl, getLsbD_ofBytes]
  split_ifs <;> grind

/-! ## Linear maps that commute with rotations -/

/-- XOR-linear maps of words that commute with rotations, such as sums of rotations. -/
structure RotationLinear (L : Word → Word) : Prop where
  xor : ∀ x y, L (x ^^^ y) = L x ^^^ L y
  rotl : ∀ x n, n ≤ 32 → L (rotl x n) = rotl (L x) n

theorem RotationLinear.id : RotationLinear fun x => x := ⟨fun _ _ => rfl, fun _ _ _ => rfl⟩

theorem RotationLinear.add {L : Word → Word} (h : RotationLinear L) (n : Nat) (hn : n ≤ 32) :
    RotationLinear fun x => L x ^^^ ByteWord.rotl x n where
  xor x y := by
    simp only [h.xor, rotl_xor, BitVec.xor_assoc]
    rw [← BitVec.xor_assoc (L y), BitVec.xor_comm (L y), BitVec.xor_assoc]
  rotl x m hm := by simp only [h.rotl x m hm, rotl_xor, rotl_comm x m n hm hn]

/-- Such a map is known from its values on single bytes. -/
theorem RotationLinear.ofBytes {L : Word → Word} (h : RotationLinear L) (a b c d : Byte) :
    L (ofBytes a b c d) = ByteWord.rotl (L (a.setWidth 32)) 24 ^^^
      ByteWord.rotl (L (b.setWidth 32)) 16 ^^^ ByteWord.rotl (L (c.setWidth 32)) 8 ^^^
      L (d.setWidth 32) := by
  simp only [ofBytes_eq_xor, h.xor, h.rotl _ _ (by decide : 24 ≤ 32),
    h.rotl _ _ (by decide : 16 ≤ 32), h.rotl _ _ (by decide : 8 ≤ 32)]

/-! ## Tables indexed by a byte -/

theorem get_eq {α : Type*} {n : Nat} (xs : Vector α n) (i : Fin n) : xs.get i = xs[i.val] := rfl

theorem getElemBang_eq {α : Type*} [Inhabited α] {n : Nat} (xs : Vector α n) {i : Nat} (h : i < n) :
    xs[i]! = xs[i] := getElem!_pos xs i h

def lookup {α : Type*} (table : Vector α 256) (b : Byte) : α := table.get ⟨b.toNat, b.isLt⟩

theorem lookup_ofFn {α : Type*} (f : Fin 256 → α) (b : Byte) :
    lookup (Vector.ofFn f) b = f ⟨b.toNat, b.isLt⟩ := by
  have below : b.toNat < 256 := b.isLt
  change (Vector.ofFn f)[b.toNat] = f ⟨b.toNat, below⟩
  rw [Vector.getElem_ofFn]

/-- A table checked entry by entry as a list is known at every byte. -/
theorem lookup_map {α β : Type*} (table : Vector β 256) (source : Vector α 256) (f : α → β)
    (h : table.toList = source.toList.map f) (b : Byte) :
    lookup table b = f (lookup source b) := by
  have entry := congrArg (fun l => l[b.toNat]?) h
  have hb : b.toNat < 256 := b.isLt
  simp only [List.getElem?_map, Vector.getElem?_toList, Vector.getElem?_eq_getElem hb,
    Option.map_some, Option.some.injEq] at entry
  exact entry

end SystemsLab.ByteWord
