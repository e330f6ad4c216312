import Mathlib.Data.BitVec
import Mathlib.Data.Vector.Basic
import Mathlib.Tactic.IntervalCases

/-! The machine words of the bitsliced engine (`sm4_multibuffer_bitslice.c`): bit
`i` of a `bs_word` belongs to lane `i`. The portable, AVX2 and RVV backends of
the source are instances of one interface, and all three act lane by lane. -/

namespace SystemsLab.BitsliceBackend

structure Backend where
  BsWord : Type
  bsZero : BsWord
  bsOnes : BsWord
  bsXorWord : BsWord → BsWord → BsWord
  bsAndWord : BsWord → BsWord → BsWord
  bsLaneMask : Nat → BsWord
  bsLaneTest : BsWord → Nat → Bool

/-- The portable backend over an unsigned `BS_WORD_TYPE` of `width` bits. -/
def generic (width : Nat) : Backend where
  BsWord := BitVec width
  bsZero := 0
  bsOnes := ~~~0
  bsXorWord a b := a ^^^ b
  bsAndWord a b := a &&& b
  bsLaneMask lane := (1 : BitVec width) <<< lane
  bsLaneTest word lane := (word >>> lane) &&& 1 != 0

/-- Four 64-bit elements, element 0 lowest: a `__m256i`, or the active part of a `vuint64m8_t`. -/
abbrev Parts := Vector (BitVec 64) 4

/-- `parts[lane >> 6] = 1 << (lane & 63)` on zeroed parts. -/
def laneParts (lane : Nat) : Parts :=
  (Vector.replicate 4 0).setIfInBounds (lane >>> 6) ((1 : BitVec 64) <<< (lane &&& 63))

def partsTest (parts : Parts) (lane : Nat) : Bool :=
  (parts.getD (lane >>> 6) 0 >>> (lane &&& 63)) &&& 1 != 0

def mm256SetEpi64x (e3 e2 e1 e0 : BitVec 64) : Parts := #v[e0, e1, e2, e3]

def mm256CmpeqEpi64 (a b : Parts) : Parts :=
  Vector.zipWith (fun x y => if x = y then BitVec.allOnes 64 else 0) a b

def avx2 : Backend where
  BsWord := Parts
  bsZero := Vector.replicate 4 0
  bsOnes := mm256CmpeqEpi64 (Vector.replicate 4 0) (Vector.replicate 4 0)
  bsXorWord := Vector.zipWith (· ^^^ ·)
  bsAndWord := Vector.zipWith (· &&& ·)
  bsLaneMask lane :=
    let parts := laneParts lane
    mm256SetEpi64x parts[3] parts[2] parts[1] parts[0]
  bsLaneTest := partsTest

/-- The vector backend with `vl = 4` elements of 64 bits. -/
def rvv : Backend where
  BsWord := Parts
  bsZero := Vector.replicate 4 0
  bsOnes := Vector.replicate 4 (BitVec.allOnes 64)
  bsXorWord := Vector.zipWith (· ^^^ ·)
  bsAndWord := Vector.zipWith (· &&& ·)
  bsLaneMask := laneParts
  bsLaneTest := partsTest

/-- What the engine needs of a backend: on the first `lanes` lanes the word
operations act lane by lane, and a lane mask marks exactly its lane. -/
structure Lawful (B : Backend) (lanes : Nat) : Prop where
  zero : ∀ i < lanes, B.bsLaneTest B.bsZero i = false
  ones : ∀ i < lanes, B.bsLaneTest B.bsOnes i = true
  xor : ∀ a b, ∀ i < lanes,
    B.bsLaneTest (B.bsXorWord a b) i = (B.bsLaneTest a i ^^ B.bsLaneTest b i)
  and : ∀ a b, ∀ i < lanes,
    B.bsLaneTest (B.bsAndWord a b) i = (B.bsLaneTest a i && B.bsLaneTest b i)
  mask : ∀ i < lanes, ∀ j < lanes, B.bsLaneTest (B.bsLaneMask i) j = decide (i = j)

theorem shift_and_one {w : Nat} (x : BitVec w) (i : Nat) :
    ((x >>> i) &&& 1 != 0) = x.getLsbD i := by
  have one : ((x >>> i) &&& 1#w) = if x.getLsbD i then 1#w else 0#w := by
    rw [BitVec.and_one_eq_setWidth_ofBool_getLsbD, BitVec.getLsbD_ushiftRight, Nat.add_zero]
    cases x.getLsbD i
    · simp
    · apply BitVec.eq_of_toNat_eq
      simp
  change ((x >>> i) &&& 1#w != 0#w) = _
  rw [one]
  cases h : x.getLsbD i
  · simp
  · have pos : i < w := BitVec.lt_of_getLsbD h
    have ne : (1#w : BitVec w) ≠ 0#w := by
      intro e
      have bit := congrArg (fun v => v.getLsbD 0) e
      simp at bit
      omega
    simp [ne]

theorem getLsbD_one_shiftLeft {w : Nat} (i j : Nat) (hj : j < w) :
    ((1 : BitVec w) <<< i).getLsbD j = decide (i = j) := by
  change ((1#w) <<< i).getLsbD j = decide (i = j)
  rw [BitVec.getLsbD_shiftLeft, BitVec.getLsbD_one]
  by_cases h : i = j
  · subst h
    simp [hj]
    omega
  · simp [h]
    omega

theorem generic_laneTest {width : Nat} (word : BitVec width) (i : Nat) :
    (generic width).bsLaneTest word i = word.getLsbD i := shift_and_one word i

theorem generic_lawful {width lanes : Nat} (h : lanes ≤ width) : Lawful (generic width) lanes where
  zero i _ := (generic_laneTest 0 i).trans BitVec.getLsbD_zero
  ones i hi := by
    have hw : i < width := by omega
    rw [show (generic width).bsOnes = ~~~(0 : BitVec width) from rfl, generic_laneTest]
    simp [hw]
  xor a b i _ := by
    rw [generic_laneTest a, generic_laneTest b]
    exact (generic_laneTest _ i).trans BitVec.getLsbD_xor
  and a b i _ := by
    rw [generic_laneTest a, generic_laneTest b]
    exact (generic_laneTest _ i).trans BitVec.getLsbD_and
  mask i _ j hj := (generic_laneTest _ j).trans (getLsbD_one_shiftLeft i j (by omega))

theorem getD_eq (parts : Parts) (i : Nat) (h : i < 4) : parts.getD i 0 = parts[i] := by
  simp [Vector.getD, h]

theorem partsTest_eq (parts : Parts) (lane : Nat) (h : lane < 256) :
    partsTest parts lane = parts[lane / 64].getLsbD (lane % 64) := by
  have element : lane >>> 6 = lane / 64 := Nat.shiftRight_eq_div_pow lane 6
  have bit : lane &&& 63 = lane % 64 := Nat.and_two_pow_sub_one_eq_mod lane 6
  rw [partsTest, shift_and_one, element, bit, getD_eq parts _ (by omega)]

theorem laneParts_test (i j : Nat) (hj : j < 256) :
    partsTest (laneParts i) j = decide (i = j) := by
  have element : i >>> 6 = i / 64 := Nat.shiftRight_eq_div_pow i 6
  have bit : i &&& 63 = i % 64 := Nat.and_two_pow_sub_one_eq_mod i 6
  rw [partsTest_eq _ j hj, laneParts, element, bit, Vector.getElem_setIfInBounds]
  by_cases h : i / 64 = j / 64
  · rw [if_pos h, getLsbD_one_shiftLeft _ _ (Nat.mod_lt j (by decide))]
    rw [decide_eq_decide]
    omega
  · have ne : i ≠ j := fun e => h (e ▸ rfl)
    simp [h, ne]

theorem setEpi64x_parts (parts : Parts) :
    mm256SetEpi64x parts[3] parts[2] parts[1] parts[0] = parts := by
  apply Vector.ext
  intro i hi
  interval_cases i <;> rfl

theorem cmpeqEpi64_self (a : Parts) :
    mm256CmpeqEpi64 a a = Vector.replicate 4 (BitVec.allOnes 64) := by
  apply Vector.ext
  intro i hi
  simp [mm256CmpeqEpi64]

theorem rvv_lawful {lanes : Nat} (h : lanes ≤ 256) : Lawful rvv lanes where
  zero i hi := by
    refine (partsTest_eq (Vector.replicate 4 0) i (by omega)).trans ?_
    rw [Vector.getElem_replicate]
    exact BitVec.getLsbD_zero
  ones i hi := by
    refine (partsTest_eq (Vector.replicate 4 (BitVec.allOnes 64)) i (by omega)).trans ?_
    rw [Vector.getElem_replicate, BitVec.getLsbD_allOnes]
    exact decide_eq_true (Nat.mod_lt i (by decide))
  xor (a b : Parts) i hi := by
    refine (partsTest_eq (Vector.zipWith (· ^^^ ·) a b) i (by omega)).trans ?_
    rw [Vector.getElem_zipWith, BitVec.getLsbD_xor]
    exact congrArg₂ _ (partsTest_eq a i (by omega)).symm (partsTest_eq b i (by omega)).symm
  and (a b : Parts) i hi := by
    refine (partsTest_eq (Vector.zipWith (· &&& ·) a b) i (by omega)).trans ?_
    rw [Vector.getElem_zipWith, BitVec.getLsbD_and]
    exact congrArg₂ _ (partsTest_eq a i (by omega)).symm (partsTest_eq b i (by omega)).symm
  mask i _ j hj := laneParts_test i j (by omega)

/-- The two 256-bit backends compute the same words in different ways. -/
theorem avx2_eq_rvv : avx2 = rvv := by
  simp only [avx2, rvv, cmpeqEpi64_self, setEpi64x_parts]

theorem avx2_lawful {lanes : Nat} (h : lanes ≤ 256) : Lawful avx2 lanes :=
  avx2_eq_rvv ▸ rvv_lawful h

/-- The builds of the engine: the portable backend with a bit for every lane, or one of
the 256-bit backends with at most 256 lanes. -/
def Build (B : Backend) (lanes : Nat) : Prop :=
  (∃ width, lanes ≤ width ∧ B = generic width) ∨ (lanes ≤ 256 ∧ (B = avx2 ∨ B = rvv))

theorem Build.lawful {B : Backend} {lanes : Nat} (h : Build B lanes) : Lawful B lanes := by
  rcases h with ⟨width, le, rfl⟩ | ⟨le, rfl | rfl⟩
  · exact generic_lawful le
  · exact avx2_lawful le
  · exact rvv_lawful le

end SystemsLab.BitsliceBackend
