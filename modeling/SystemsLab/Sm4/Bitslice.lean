import SystemsLab.Sm4.Portable
import SystemsLab.Sm4.BitsliceBackend
import SystemsLab.General.AlgebraicNormalForm

/-! The bitsliced multi-buffer engine (`sm4_multibuffer_bitslice.c`). Bit `i` of
a word of every lane sits in the machine word `bit[i]`; the S-box is evaluated
through its algebraic normal form and a rotation is a permutation of planes.
Reading one lane back (`laneWord`) turns every operation on planes into the
operation on words, and a whole run into the scalar run of that lane. -/

namespace SystemsLab.Sm4Bitslice
open ByteWord ShiftRegister CountedLoop Textbook Sm4Portable AlgebraicNormalForm BitsliceBackend

/-! ## The scalar path -/

def rotl32 (x : Word) (n : Nat) : Word := (x <<< n) ||| (x >>> (32 - n))

def loadBe32 (b : Block) (p : Nat) : Word :=
  (b[p]!.setWidth 32 <<< 24) ||| (b[p + 1]!.setWidth 32 <<< 16) |||
    (b[p + 2]!.setWidth 32 <<< 8) ||| b[p + 3]!.setWidth 32

def storeBe32 (value : Word) : Vector Byte 4 :=
  vec4 ((value >>> 24).setWidth 8) ((value >>> 16).setWidth 8) ((value >>> 8).setWidth 8)
    (value.setWidth 8)

/-- The S-box on the four bytes of `t`, as both scalar loops write it out. -/
def scalarSbox (t : Word) : Word :=
  ((sm4SboxByte ((t >>> 24).setWidth 8)).setWidth 32 <<< 24) |||
    ((sm4SboxByte ((t >>> 16).setWidth 8)).setWidth 32 <<< 16) |||
    ((sm4SboxByte ((t >>> 8).setWidth 8)).setWidth 32 <<< 8) |||
    (sm4SboxByte (t.setWidth 8)).setWidth 32

def scalarRound (rk : Word) (x : Window Word) : Window Word :=
  let t := x.b ^^^ x.c ^^^ x.d ^^^ rk
  let s := scalarSbox t
  let y := s ^^^ rotl32 s 2 ^^^ rotl32 s 10 ^^^ rotl32 s 18 ^^^ rotl32 s 24
  let next := x.a ^^^ y
  ⟨x.b, x.c, x.d, next⟩

def sm4EncryptBlockScalar (inp : Block) (rk : RoundKeys) : Block :=
  let x : Window Word := ⟨loadBe32 inp 0, loadBe32 inp 4,
    loadBe32 inp 8, loadBe32 inp 12⟩
  let x := Nat.fold 32 (fun i _ x => scalarRound rk[i] x) x
  concat4 (storeBe32 x.d) (storeBe32 x.c) (storeBe32 x.b) (storeBe32 x.a)

theorem storeBe32_eq (v : Word) : storeBe32 v = bytesOf v := by
  simp [storeBe32, bytesOf, byteOf]

theorem loadBe32_words (b : Block) :
    (⟨loadBe32 b 0, loadBe32 b 4, loadBe32 b 8, loadBe32 b 12⟩ : Window Word) = loadWords b := by
  simp only [loadBe32, load_eq_wordAt b (by decide : 0 + 4 ≤ 16),
    load_eq_wordAt b (by decide : 4 + 4 ≤ 16),
    load_eq_wordAt b (by decide : 8 + 4 ≤ 16), load_eq_wordAt b (by decide : 12 + 4 ≤ 16)]
  rfl

theorem sm4EncryptBlockScalar_eq (inp : Block) (rk : RoundKeys) :
    sm4EncryptBlockScalar inp rk = cipher sm4RoundT rk.toList inp := by
  simp only [sm4EncryptBlockScalar, loadBe32_words, storeBe32_eq]
  rw [fold_vector rk scalarRound]
  rfl

/-- For any round keys the header's in-place block function is the loop of the scalar path and the
recurrence of the standard, and its two directions undo each other. -/
theorem sm4CryptBlock_textbook (b : Block) (rk : RoundKeys) :
    sm4CryptBlock b rk 0 = sm4EncryptBlockScalar b rk ∧
      (∃ x, Recurrence sm4RoundT rk b x ∧
        sm4CryptBlock b rk 0 = storeWords ⟨x 35, x 34, x 33, x 32⟩) ∧
      sm4CryptBlock (sm4CryptBlock b rk 0) rk 1 = b ∧
      sm4CryptBlock (sm4CryptBlock b rk 1) rk 0 = b := by
  have encrypted := sm4EncryptBlock_eq b rk
  obtain ⟨x, recurrence⟩ := exists_recurrence sm4RoundT rk b
  refine ⟨?_, ⟨x, recurrence, ?_⟩, ?_, ?_⟩
  · rw [sm4EncryptBlockScalar_eq]
    exact encrypted
  · rw [← recurrence.cipher_eq]
    exact encrypted
  · exact sm4DecryptBlock_sm4EncryptBlock b rk
  · exact sm4EncryptBlock_sm4DecryptBlock b rk

/-! ## Terms of the S-box -/

/-- `SBOX_TERMS`: the masks of each output bit, in ascending order, and the ready flag. -/
structure SboxTerms where
  terms : Vector (List Byte) 8
  ready : Bool

def sboxTermsStatic : SboxTerms := ⟨Vector.replicate 8 [], false⟩

def sboxColumn (sbox : Byte → Byte) (outBit : Nat) : Vector Byte 256 :=
  Vector.ofFn fun x : Fin 256 => (sbox (BitVec.ofNat 8 x) >>> outBit) &&& 1

theorem partner_lt {bit mask : Nat} (hb : bit < 8) (hm : mask < 256) :
    mask ^^^ (1 <<< bit) < 256 := by
  rw [Nat.one_shiftLeft]
  exact Nat.xor_lt_two_pow (n := 8) hm (Nat.pow_lt_pow_right (by decide) hb)

def coeffPass (bit : Nat) (hb : bit < 8) (coeff : Vector Byte 256) : Vector Byte 256 :=
  Nat.fold 256 (fun mask hm coeff =>
    if mask &&& (1 <<< bit) ≠ 0 then
      have := partner_lt hb hm
      coeff.set mask (coeff[mask] ^^^ coeff[mask ^^^ (1 <<< bit)])
    else coeff) coeff

def collectTerms (coeff : Vector Byte 256) : List Byte :=
  Nat.fold 256 (fun mask _ terms =>
    if coeff[mask] ≠ 0 then terms ++ [BitVec.ofNat 8 mask] else terms) []

/-- `init_sbox_terms` over the byte table that `sm4_sbox_byte` reads. -/
def initSboxTerms (sbox : Byte → Byte) (st : SboxTerms) : SboxTerms :=
  if st.ready then st
  else
    ⟨Vector.ofFn fun outBit : Fin 8 =>
      collectTerms (Nat.fold 8 coeffPass (sboxColumn sbox outBit)), true⟩

/-! ## Words of planes -/

section Planes

variable (B : Backend)

abbrev Bs32 := Vector B.BsWord 32

def lowBit (mask : Nat) : Nat := (BitVec.ofNat 32 mask &&& (0 - BitVec.ofNat 32 mask)).toNat

/-- Index of the lowest set bit (`__builtin_ctz`, or the loop that stands in for it). -/
def bsLowBitIndex (mask : Nat) : Nat := (List.range 32).findIdx fun index => mask.testBit index

theorem lowBit_spec : ∀ mask < 256, 0 < mask →
    mask ^^^ lowBit mask < mask ∧ bsLowBitIndex (lowBit mask) < 8 ∧
      ∀ i < 8, mask.testBit i =
        ((mask ^^^ lowBit mask).testBit i || decide (i = bsLowBitIndex (lowBit mask))) := by
  decide +kernel

variable {B}

def bs32Xor (a b : Bs32 B) : Bs32 B := Vector.ofFn fun i => B.bsXorWord a[i] b[i]

def bs32XorConst (a : Bs32 B) (constant : Word) : Bs32 B :=
  Vector.ofFn fun i =>
    if (constant >>> i.val) &&& 1 ≠ 0 then B.bsXorWord a[i] B.bsOnes else a[i]

def bs32Rol (a : Bs32 B) (n : Nat) : Bs32 B :=
  Nat.fold 32 (fun i _ out =>
    out.set ((i + n) &&& 31) a[i] (Nat.and_lt_two_pow (n := 5) _ (by decide)))
    (Vector.replicate 32 B.bsZero)

def monomials (inBits : Vector B.BsWord 8) : Vector B.BsWord 256 :=
  Nat.fold 255 (fun k hk monomial =>
    have step := lowBit_spec (k + 1) (by omega) (by omega)
    have := step.1
    have := step.2.1
    monomial.set (k + 1) (B.bsAndWord monomial[(k + 1) ^^^ lowBit (k + 1)]
      inBits[bsLowBitIndex (lowBit (k + 1))]))
    ((Vector.replicate 256 B.bsZero).set 0 B.bsOnes)

def sboxBit (terms : List Byte) (monomial : Vector B.BsWord 256) : B.BsWord :=
  terms.foldl (fun value mask => B.bsXorWord value (lookup monomial mask)) B.bsZero

def sboxByte (st : SboxTerms) (inp : Bs32 B) (byte : Fin 4) : Vector B.BsWord 8 :=
  let inBits : Vector B.BsWord 8 := Vector.ofFn fun bit : Fin 8 => inp[byte.val * 8 + bit.val]
  let monomial := monomials inBits
  Vector.ofFn fun bit : Fin 8 => sboxBit st.terms[bit] monomial

def sm4SboxBitslicedWord (st : SboxTerms) (inp : Bs32 B) : Bs32 B :=
  Vector.ofFn fun i : Fin 32 => (sboxByte st inp ⟨i.val / 8, by omega⟩)[i.val % 8]

def sm4TBitsliced (st : SboxTerms) (inp : Bs32 B) : Bs32 B :=
  let s := sm4SboxBitslicedWord st inp
  let r2 := bs32Rol s 2
  let r10 := bs32Rol s 10
  let r18 := bs32Rol s 18
  let r24 := bs32Rol s 24
  bs32Xor (bs32Xor (bs32Xor (bs32Xor s r2) r10) r18) r24

/-- One lane of `orthogonalize_words` on one of the four words. -/
def orthogonalizeLane (lane : Nat) (value : Word) (x : Bs32 B) : Bs32 B :=
  Vector.ofFn fun bit =>
    if (value >>> bit.val) &&& 1 ≠ 0 then B.bsXorWord x[bit] (B.bsLaneMask lane) else x[bit]

def orthogonalizeWords {lanes : Nat} (words : Vector (Window Word) lanes) : Window (Bs32 B) :=
  let zero : Bs32 B := Vector.replicate 32 B.bsZero
  Nat.fold lanes (fun lane _ x =>
    let value := words[lane]
    ⟨orthogonalizeLane lane value.a x.a, orthogonalizeLane lane value.b x.b,
      orthogonalizeLane lane value.c x.c, orthogonalizeLane lane value.d x.d⟩)
    ⟨zero, zero, zero, zero⟩

/-- One word of one lane, as `deorthogonalize_words` collects it. -/
def laneWord (lane : Nat) (x : Bs32 B) : Word :=
  Nat.fold 32 (fun bit _ value =>
    if B.bsLaneTest x[bit] lane then value ||| (1 : Word) <<< bit else value) 0

def deorthogonalizeWords (lanes : Nat) (x : Window (Bs32 B)) : Vector (Window Word) lanes :=
  Vector.ofFn fun lane => ⟨laneWord lane x.a, laneWord lane x.b, laneWord lane x.c,
    laneWord lane x.d⟩

def bitslicedRound (st : SboxTerms) (rk : Word) (x : Window (Bs32 B)) : Window (Bs32 B) :=
  let t := bs32Xor (bs32Xor x.b x.c) x.d
  let t := bs32XorConst t rk
  let next := bs32Xor x.a (sm4TBitsliced st t)
  ⟨x.b, x.c, x.d, next⟩

variable (B) in
def sm4EncryptBitsliceX32 {lanes : Nat} (st : SboxTerms) (inp : Vector Block lanes)
    (rk : RoundKeys) :
    Vector Block lanes :=
  let scalarWords : Vector (Window Word) lanes := inp.map fun b =>
    ⟨loadBe32 b 0, loadBe32 b 4, loadBe32 b 8,
      loadBe32 b 12⟩
  let x : Window (Bs32 B) := orthogonalizeWords scalarWords
  let x := Nat.fold 32 (fun round _ x => bitslicedRound st rk[round] x) x
  let x : Window (Bs32 B) := ⟨x.d, x.c, x.b, x.a⟩
  let scalarWords := deorthogonalizeWords lanes x
  scalarWords.map fun w => concat4 (storeBe32 w.a) (storeBe32 w.b) (storeBe32 w.c) (storeBe32 w.d)

/-! ## Reading one lane back -/

variable {lanes lane : Nat}

theorem getLsbD_laneWord (x : Bs32 B) (i : Nat) (hi : i < 32) :
    (laneWord lane x).getLsbD i = B.bsLaneTest x[i] lane := by
  have inv := fold_inv (fun k (v : Word) => ∀ j (hj : j < 32),
      v.getLsbD j = (decide (j < k) && B.bsLaneTest x[j] lane)) 32
    (fun bit _ value => if B.bsLaneTest x[bit] lane then value ||| (1 : Word) <<< bit else value) 0
    (by intro j hj; simp) (by
      intro k hk v hv j hj
      have next : (if B.bsLaneTest x[k] lane then v ||| (1 : Word) <<< k else v).getLsbD j =
          (v.getLsbD j || (decide (k = j) && B.bsLaneTest x[k] lane)) := by
        cases B.bsLaneTest x[k] lane
        · simp
        · rw [if_pos rfl, BitVec.getLsbD_or, getLsbD_one_shiftLeft k j hj, Bool.and_true]
      rw [next, hv j hj]
      by_cases eq : k = j
      · subst eq
        simp
      · simp [eq, show j < k + 1 ↔ j < k by omega])
  simpa [laneWord, hi] using inv i hi

theorem laneWord_xor (law : Lawful B lanes) (hl : lane < lanes) (a b : Bs32 B) :
    laneWord lane (bs32Xor a b) = laneWord lane a ^^^ laneWord lane b := by
  apply BitVec.eq_of_getLsbD_eq
  intro i hi
  rw [BitVec.getLsbD_xor, getLsbD_laneWord _ i hi, getLsbD_laneWord _ i hi, getLsbD_laneWord _ i hi,
    ← law.xor _ _ lane hl]
  simp [bs32Xor]

theorem laneWord_xorConst (law : Lawful B lanes) (hl : lane < lanes) (a : Bs32 B) (c : Word) :
    laneWord lane (bs32XorConst a c) = laneWord lane a ^^^ c := by
  apply BitVec.eq_of_getLsbD_eq
  intro i hi
  have bit : ((c >>> i) &&& 1 ≠ 0) ↔ c.getLsbD i = true := by
    rw [← shift_and_one c i]
    simp
  rw [BitVec.getLsbD_xor, getLsbD_laneWord _ i hi, getLsbD_laneWord _ i hi]
  simp only [bs32XorConst, Vector.getElem_ofFn, bit]
  cases hc : c.getLsbD i
  · simp
  · simp [law.xor _ _ lane hl, law.ones lane hl]

theorem getElem_bs32Rol (a : Bs32 B) (n j : Nat) (hj : j < 32) (hn : n ≤ 32) :
    (bs32Rol a n)[j] = a[(j + (32 - n)) % 32] := by
  have and_mod (i : Nat) : i &&& 31 = i % 32 := Nat.and_two_pow_sub_one_eq_mod i 5
  have inv := fold_inv (fun k (out : Bs32 B) => ∀ i (hi : i < k) (h : i < 32),
      out[(i + n) % 32] = a[i]) 32
    (fun i _ out => out.set ((i + n) &&& 31) a[i] (Nat.and_lt_two_pow (n := 5) _ (by decide)))
    (Vector.replicate 32 B.bsZero) (by intro i hi; omega) (by
      intro k hk out hout i hi h
      simp only [and_mod, Vector.getElem_set]
      split
      · have eq : k = i := by omega
        subst eq
        rfl
      · exact hout i (by omega) h)
  have entry := inv ((j + (32 - n)) % 32) (Nat.mod_lt _ (by decide)) (Nat.mod_lt _ (by decide))
  have back : ((j + (32 - n)) % 32 + n) % 32 = j := by omega
  simp only [back] at entry
  exact entry

theorem laneWord_rol (a : Bs32 B) (n : Nat) (hn : n ≤ 32) :
    laneWord lane (bs32Rol a n) = rotl32 (laneWord lane a) n := by
  apply BitVec.eq_of_getLsbD_eq
  intro i hi
  change _ = (rotl (laneWord lane a) n).getLsbD i
  rw [getLsbD_rotl, getLsbD_laneWord _ i hi]
  simp only [hi, decide_true, Bool.true_and, getElem_bs32Rol a n i hi hn]
  split
  · rw [getLsbD_laneWord _ _ (by omega)]
    congr 2
    omega
  · rw [getLsbD_laneWord _ _ (by omega)]
    congr 2
    omega

end Planes

/-! ## The S-box through its normal form -/

def bitByte (b : Bool) : Byte := if b then 1 else 0

theorem bitByte_xor (a b : Bool) : bitByte a ^^^ bitByte b = bitByte (a ^^ b) := by
  cases a <;> cases b <;> rfl

theorem bitByte_ne_zero (b : Bool) : bitByte b ≠ 0 ↔ b = true := by
  cases b <;> simp [bitByte]

theorem and_bit_ne_zero (mask bit : Nat) : mask &&& (1 <<< bit) ≠ 0 ↔ mask.testBit bit = true := by
  rw [Nat.one_shiftLeft, Nat.and_two_pow]
  cases mask.testBit bit <;> simp

/-- One in-place pass is the butterfly: a partner without the bit is never overwritten. -/
theorem coeffPass_eq (f : Nat → Bool) (bit : Nat) (hb : bit < 8) (coeff : Vector Byte 256)
    (h : ∀ m (hm : m < 256), coeff[m] = bitByte (f m)) (m : Nat) (hm : m < 256) :
    (coeffPass bit hb coeff)[m] = bitByte (butterfly bit f m) := by
  -- masks below `k` already hold the result, the others still hold `f`
  have inv := fold_inv (fun k (table : Vector Byte 256) => ∀ m (hm : m < 256),
      table[m] = bitByte (if m < k then butterfly bit f m else f m)) 256
    (fun mask hm coeff =>
      if mask &&& (1 <<< bit) ≠ 0 then
        have := partner_lt hb hm
        coeff.set mask (coeff[mask] ^^^ coeff[mask ^^^ (1 <<< bit)])
      else coeff) coeff (by simpa using h) (by
      intro k hk table ht m hm
      have clear : (k ^^^ 1 <<< bit).testBit bit = !k.testBit bit := by
        rw [Nat.one_shiftLeft, Nat.testBit_xor, Nat.testBit_two_pow_self, Bool.xor_true]
      have next : (if m < k + 1 then butterfly bit f m else f m) =
          if m = k then butterfly bit f k else if m < k then butterfly bit f m else f m := by
        grind
      rw [next]
      split
      case isTrue set =>
        have kbit := (and_bit_ne_zero k bit).mp set
        have inside := partner_lt hb hk
        have partner : table[k ^^^ (1 <<< bit)] = bitByte (f (k ^^^ 2 ^ bit)) := by
          rw [ht _ (partner_lt hb hk), butterfly, clear, kbit, Nat.one_shiftLeft]
          simp
        rw [Vector.getElem_set]
        by_cases eq : k = m
        · subst eq
          rw [if_pos rfl, if_pos rfl, ht k hk, partner, bitByte_xor, butterfly, kbit]
          simp
        · rw [if_neg eq, if_neg (Ne.symm eq), ht m hm]
      case isFalse unset =>
        have kbit : k.testBit bit = false := by
          simpa [and_bit_ne_zero] using unset
        rw [ht m hm]
        by_cases eq : m = k
        · subst eq
          rw [if_pos rfl, butterfly, kbit]
          simp
        · rw [if_neg eq])
  have all := inv m hm
  rw [if_pos hm] at all
  exact all

theorem coeffs_eq (f : Nat → Bool) (coeff : Vector Byte 256)
    (h : ∀ m (hm : m < 256), coeff[m] = bitByte (f m)) (m : Nat) (hm : m < 256) :
    (Nat.fold 8 coeffPass coeff)[m] = bitByte (transform 8 f m) :=
  fold_inv (fun k (table : Vector Byte 256) => ∀ m (hm : m < 256),
    table[m] = bitByte (transform k f m)) 8
    coeffPass coeff h (fun k hk table ht => coeffPass_eq (transform k f) k hk table ht) m hm

theorem sboxColumn_eq (sbox : Byte → Byte) (outBit m : Nat) (hm : m < 256) :
    (sboxColumn sbox outBit)[m] = bitByte ((sbox (BitVec.ofNat 8 m)).getLsbD outBit) := by
  simp only [sboxColumn, Vector.getElem_ofFn]
  generalize sbox (BitVec.ofNat 8 m) = v
  rw [← shift_and_one v outBit]
  have bit : ∀ w : Byte, w &&& 1 = bitByte (w &&& 1 != 0) := by decide +kernel
  exact bit _

theorem covers_lowBit (mask x : Nat) (hm : mask < 256) (pos : 0 < mask) :
    covers mask x =
      (covers (mask ^^^ lowBit mask) x && x.testBit (bsLowBitIndex (lowBit mask))) := by
  obtain ⟨lt, index, bits⟩ := lowBit_spec mask hm pos
  have high (m : Nat) (h : m < 256) (i : Nat) (hi : 8 ≤ i) : m.testBit i = false :=
    Nat.testBit_lt_two_pow (Nat.lt_of_lt_of_le h
      (Nat.pow_le_pow_right (by decide) hi : 2 ^ 8 ≤ 2 ^ i))
  rw [Bool.eq_iff_iff, Bool.and_eq_true_iff, covers_iff, covers_iff]
  constructor
  · intro all
    refine ⟨fun i hi => ?_, all _ (by rw [bits _ index]; simp)⟩
    rcases Nat.lt_or_ge i 8 with low | top
    · exact all i (by rw [bits i low, hi]; rfl)
    · rw [high _ (by omega) i top] at hi
      exact absurd hi Bool.false_ne_true
  · rintro ⟨rest, last⟩ i hi
    rcases Nat.lt_or_ge i 8 with low | top
    · rw [bits i low, Bool.or_eq_true_iff, decide_eq_true_iff] at hi
      rcases hi with hi | rfl
      · exact rest i hi
      · exact last
    · rw [high mask hm i top] at hi
      exact absurd hi Bool.false_ne_true

def TermsOf (sbox : Byte → Byte) (st : SboxTerms) : Prop :=
  ∀ outBit : Fin 8, st.terms[outBit] = collectTerms (Nat.fold 8 coeffPass (sboxColumn sbox outBit))

def sboxWord (sbox : Byte → Byte) (w : Word) : Word :=
  ofBytes (sbox (byteOf w 24)) (sbox (byteOf w 16)) (sbox (byteOf w 8)) (sbox (byteOf w 0))

theorem getLsbD_sboxWord (sbox : Byte → Byte) (w : Word) (i : Nat) (hi : i < 32) :
    (sboxWord sbox w).getLsbD i = (sbox (byteOf w (i / 8 * 8))).getLsbD (i % 8) := by
  rw [sboxWord, getLsbD_ofBytes]
  have part : i / 8 = 0 ∨ i / 8 = 1 ∨ i / 8 = 2 ∨ i / 8 = 3 := by omega
  rcases part with h | h | h | h
  · rw [h, if_pos (by omega), show i % 8 = i by omega]
  · rw [h, if_neg (by omega), if_pos (by omega), show i % 8 = i - 8 by omega]
  · rw [h, if_neg (by omega), if_neg (by omega), if_pos (by omega), show i % 8 = i - 16 by omega]
  · rw [h, if_neg (by omega), if_neg (by omega), if_neg (by omega), if_pos hi,
      show i % 8 = i - 24 by omega]

section Sbox

variable {B : Backend} {lanes lane : Nat} (law : Lawful B lanes) (hl : lane < lanes)

include law hl in
theorem monomials_test (inBits : Vector B.BsWord 8) (x : Nat)
    (hx : ∀ i (h : i < 8), B.bsLaneTest inBits[i] lane = x.testBit i) (m : Nat) (hm : m < 256) :
    B.bsLaneTest (monomials inBits)[m] lane = covers m x := by
  -- entry `m` is read again only by larger masks, so the entries up to `k` are final
  have inv := fold_inv (fun k (mono : Vector B.BsWord 256) => ∀ m (hm : m < 256), m ≤ k →
      B.bsLaneTest mono[m] lane = covers m x) 255
    (fun k hk monomial =>
      have step := lowBit_spec (k + 1) (by omega) (by omega)
      have := step.1
      have := step.2.1
      monomial.set (k + 1) (B.bsAndWord monomial[(k + 1) ^^^ lowBit (k + 1)]
        inBits[bsLowBitIndex (lowBit (k + 1))]))
    ((Vector.replicate 256 B.bsZero).set 0 B.bsOnes) (by
      intro m hm le
      have zero : m = 0 := by omega
      subst zero
      simpa [covers] using law.ones lane hl) (by
      intro k hk mono hmono m hm le
      obtain ⟨lt, index, -⟩ := lowBit_spec (k + 1) (by omega) (by omega)
      rw [Vector.getElem_set]
      by_cases eq : k + 1 = m
      · subst eq
        rw [if_pos rfl, law.and _ _ lane hl, hmono _ (by omega) (by omega), hx _ index,
          covers_lowBit (k + 1) x hm (by omega)]
      · rw [if_neg eq]
        exact hmono m hm (by omega))
  exact inv m hm (by omega)

include law hl in
theorem sboxBit_test (coeff : Vector Byte 256) (a : Nat → Bool)
    (ha : ∀ m (hm : m < 256), coeff[m] = bitByte (a m)) (mono : Vector B.BsWord 256) (x : Nat)
    (hmono : ∀ m (hm : m < 256), B.bsLaneTest mono[m] lane = covers m x) :
    B.bsLaneTest (sboxBit (collectTerms coeff) mono) lane = eval 8 a x :=
  fold_inv (fun k (terms : List Byte) =>
      B.bsLaneTest (sboxBit terms mono) lane = xorUpTo (fun m => a m && covers m x) k) 256
    (fun mask _ terms => if coeff[mask] ≠ 0 then terms ++ [BitVec.ofNat 8 mask] else terms) []
    (law.zero lane hl) (by
      intro k hk terms ih
      have entry : lookup mono (BitVec.ofNat 8 k) = mono[k] := by
        have hk' : (BitVec.ofNat 8 k).toNat = k := by
          rw [BitVec.toNat_ofNat, Nat.mod_eq_of_lt hk]
        simp only [lookup, hk']
        rfl
      rw [xorUpTo, ← ih, ← hmono k hk]
      split
      case isTrue set =>
        rw [ha k hk, bitByte_ne_zero] at set
        rw [sboxBit, List.foldl_append, List.foldl_cons, List.foldl_nil, entry,
          law.xor _ _ lane hl, set, Bool.true_and, sboxBit]
      case isFalse unset =>
        rw [ha k hk, bitByte_ne_zero, Bool.not_eq_true] at unset
        rw [unset, Bool.false_and, Bool.xor_false])

include law hl in
theorem sboxByte_test {sbox : Byte → Byte} {st : SboxTerms} (terms : TermsOf sbox st) (inp : Bs32 B)
    (byte : Fin 4) (bit : Nat) (hb : bit < 8) :
    B.bsLaneTest (sboxByte st inp byte)[bit] lane =
      (sbox (byteOf (laneWord lane inp) (byte.val * 8))).getLsbD bit := by
  have planes (i : Nat) (h : i < 8) :
      B.bsLaneTest (Vector.ofFn fun bit : Fin 8 => inp[byte.val * 8 + bit.val])[i] lane =
        (byteOf (laneWord lane inp) (byte.val * 8)).toNat.testBit i := by
    rw [BitVec.testBit_toNat, getLsbD_byteOf, getLsbD_laneWord _ _ (by omega), Vector.getElem_ofFn]
    simp [h]
  have coeff := coeffs_eq (fun m => (sbox (BitVec.ofNat 8 m)).getLsbD bit) (sboxColumn sbox bit)
    (sboxColumn_eq sbox bit)
  simp only [sboxByte, Vector.getElem_ofFn]
  rw [terms ⟨bit, hb⟩, sboxBit_test law hl _ _ coeff _ _ (monomials_test law hl _ _ planes),
    eval_transform 8 _ _ (byteOf (laneWord lane inp) (byte.val * 8)).isLt, BitVec.ofNat_toNat,
    BitVec.setWidth_eq]

include law hl in
theorem laneWord_sbox {sbox : Byte → Byte} {st : SboxTerms} (terms : TermsOf sbox st)
    (inp : Bs32 B) :
    laneWord lane (sm4SboxBitslicedWord st inp) = sboxWord sbox (laneWord lane inp) := by
  apply BitVec.eq_of_getLsbD_eq
  intro i hi
  rw [getLsbD_laneWord _ i hi, getLsbD_sboxWord _ _ i hi]
  simp only [sm4SboxBitslicedWord, Vector.getElem_ofFn]
  exact sboxByte_test law hl terms inp ⟨i / 8, by omega⟩ (i % 8) (Nat.mod_lt i (by decide))

end Sbox

theorem initSboxTerms_static (sbox : Byte → Byte) (calls : Nat) :
    TermsOf sbox ((initSboxTerms sbox)^[calls + 1] sboxTermsStatic) := by
  have ready (st : SboxTerms) (h : st.ready = true) : initSboxTerms sbox st = st := by
    rw [initSboxTerms, if_pos h]
  have stay : (initSboxTerms sbox)^[calls + 1] sboxTermsStatic =
      initSboxTerms sbox sboxTermsStatic := by
    rw [Function.iterate_succ_apply]
    exact Function.iterate_fixed (ready _ rfl) calls
  rw [stay]
  intro outBit
  simp [initSboxTerms, sboxTermsStatic]

/-! ## The engine, lane by lane -/

section Engine

variable {B : Backend} {lanes lane : Nat} (law : Lawful B lanes) (hl : lane < lanes)
  {st : SboxTerms} (terms : TermsOf sm4SboxByte st)

theorem sboxWord_sm4 (w : Word) : sboxWord sm4SboxByte w = sm4SboxWord w := (sm4SboxWord_eq w).symm

include law hl terms in
theorem laneWord_T (x : Bs32 B) :
    laneWord lane (sm4TBitsliced st x) = sm4RoundT (laneWord lane x) := by
  simp only [sm4TBitsliced, laneWord_xor law hl, laneWord_rol _ _ (by decide : 2 ≤ 32),
    laneWord_rol _ _ (by decide : 10 ≤ 32), laneWord_rol _ _ (by decide : 18 ≤ 32),
    laneWord_rol _ _ (by decide : 24 ≤ 32), laneWord_sbox law hl terms, sboxWord_sm4]
  rfl

def bitslicedFeedback (st : SboxTerms) (k : Word) (b c d : Bs32 B) : Bs32 B :=
  sm4TBitsliced st (bs32XorConst (bs32Xor (bs32Xor b c) d) k)

include law hl terms in
theorem laneWord_feedback (k : Word) (b c d : Bs32 B) :
    laneWord lane (bitslicedFeedback st k b c d) =
      feedback sm4RoundT k (laneWord lane b) (laneWord lane c) (laneWord lane d) := by
  rw [bitslicedFeedback, laneWord_T law hl terms, laneWord_xorConst law hl, laneWord_xor law hl,
    laneWord_xor law hl, feedback]

include law hl terms in
theorem laneWord_rounds (keys : List Word) (x : Window (Bs32 B)) :
    (run bs32Xor (bitslicedFeedback st) keys x).map (laneWord lane) =
      rounds sm4RoundT keys (x.map (laneWord lane)) := by
  have hom :=
    map_run bs32Xor (bitslicedFeedback st) (· ^^^ ·) (feedback sm4RoundT) (laneWord lane) id
    (laneWord_xor law hl) (laneWord_feedback law hl terms) keys x
  rwa [List.map_id] at hom

include law hl in
theorem laneWord_orthogonalizeLane (i : Nat) (hi : i < lanes) (value : Word) (x : Bs32 B) :
    laneWord lane (orthogonalizeLane i value x) =
      laneWord lane x ^^^ if i = lane then value else 0 := by
  apply BitVec.eq_of_getLsbD_eq
  intro bit hb
  have mask : ((value >>> bit) &&& 1 ≠ 0) ↔ value.getLsbD bit = true := by
    rw [← shift_and_one value bit]
    simp
  rw [BitVec.getLsbD_xor, getLsbD_laneWord _ bit hb, getLsbD_laneWord _ bit hb]
  simp only [orthogonalizeLane, Vector.getElem_ofFn, mask]
  by_cases set : value.getLsbD bit = true
  · rw [if_pos set, law.xor _ _ lane hl, law.mask i hi lane hl]
    by_cases eq : i = lane <;> simp [eq, set]
  · rw [if_neg set]
    by_cases eq : i = lane <;> simp [eq, set]

include law hl in
theorem laneWord_zero : laneWord lane (Vector.replicate 32 B.bsZero : Bs32 B) = 0 := by
  apply BitVec.eq_of_getLsbD_eq
  intro bit hb
  rw [getLsbD_laneWord _ bit hb, Vector.getElem_replicate, law.zero lane hl, BitVec.ofNat_eq_ofNat,
    BitVec.getLsbD_zero]

include law hl in
theorem laneWord_orthogonalizeWords (words : Vector (Window Word) lanes) :
    (orthogonalizeWords (B := B) words).map (laneWord lane) = words[lane] := by
  -- the lane is zero until its own iteration and is not touched after it
  have inv := fold_inv (fun k (x : Window (Bs32 B)) => x.map (laneWord lane) =
      if lane < k then words[lane] else ⟨0, 0, 0, 0⟩) lanes
    (fun i _ x =>
      let value := words[i]
      ⟨orthogonalizeLane i value.a x.a, orthogonalizeLane i value.b x.b,
        orthogonalizeLane i value.c x.c, orthogonalizeLane i value.d x.d⟩)
    ⟨Vector.replicate 32 B.bsZero, Vector.replicate 32 B.bsZero, Vector.replicate 32 B.bsZero,
      Vector.replicate 32 B.bsZero⟩
    (by simp only [Window.map, laneWord_zero law hl, Nat.not_lt_zero, if_false])
    (by
      intro k hk x hx
      simp only [Window.map, laneWord_orthogonalizeLane law hl k hk]
      by_cases eq : k = lane
      · subst eq
        rw [if_neg (Nat.lt_irrefl k), Window.map, Window.mk.injEq] at hx
        obtain ⟨a, b, c, d⟩ := hx
        simp only [a, b, c, d, if_true, Nat.lt_succ_self, BitVec.ofNat_eq_ofNat, BitVec.zero_xor]
      · have next : lane < k + 1 ↔ lane < k := by omega
        simp only [if_neg eq, next, BitVec.ofNat_eq_ofNat, BitVec.xor_zero]
        exact hx)
  refine Eq.trans inv ?_
  rw [if_pos hl]

theorem bitslicedRound_fold (rk : RoundKeys) (x : Window (Bs32 B)) :
    Nat.fold 32 (fun round _ x => bitslicedRound st rk[round] x) x =
      run bs32Xor (bitslicedFeedback st) rk.toList x :=
  fold_vector rk (bitslicedRound st) x

include law hl terms in
theorem sm4EncryptBitsliceX32_lane (inp : Vector Block lanes) (rk : RoundKeys) :
    (sm4EncryptBitsliceX32 B st inp rk)[lane] = sm4EncryptBlockScalar inp[lane] rk := by
  have words (x : Window (Bs32 B)) :
    (deorthogonalizeWords lanes x)[lane] = x.map (laneWord lane) := by
    simp only [deorthogonalizeWords, Vector.getElem_ofFn, Window.map]
  simp only [sm4EncryptBitsliceX32, Vector.getElem_map, words, bitslicedRound_fold,
    loadBe32_words, storeBe32_eq]
  rw [sm4EncryptBlockScalar_eq, cipher]
  have start := laneWord_orthogonalizeWords law hl (inp.map loadWords)
  rw [Vector.getElem_map] at start
  rw [← start, ← laneWord_rounds law hl terms]
  rfl

end Engine

/-- After any number of calls of `init_sbox_terms`, the portable backend with a word
of at least one bit per lane and both 256-bit backends encrypt every lane of a batch
as the scalar path encrypts that block. -/
theorem sm4EncryptBitsliceX32_eq_scalar {lanes : Nat} (calls : Nat) (inp : Vector Block lanes)
    (rk : RoundKeys) :
    let st := (initSboxTerms sm4SboxByte)^[calls + 1] sboxTermsStatic
    let out := inp.map fun b => sm4EncryptBlockScalar b rk
    (∀ width, lanes ≤ width → sm4EncryptBitsliceX32 (generic width) st inp rk = out) ∧
      (lanes ≤ 256 → sm4EncryptBitsliceX32 avx2 st inp rk = out) ∧
      (lanes ≤ 256 → sm4EncryptBitsliceX32 rvv st inp rk = out) := by
  have terms := initSboxTerms_static sm4SboxByte calls
  have batch (B : Backend) (law : Lawful B lanes) :
      sm4EncryptBitsliceX32 B ((initSboxTerms sm4SboxByte)^[calls + 1] sboxTermsStatic) inp rk =
        inp.map fun b => sm4EncryptBlockScalar b rk := by
    apply Vector.ext
    intro lane hl
    rw [sm4EncryptBitsliceX32_lane law hl terms, Vector.getElem_map]
  exact ⟨fun width h => batch _ (generic_lawful h), fun h => batch _ (avx2_lawful h),
    fun h => batch _ (rvv_lawful h)⟩

def testPlain : Block := #v[0x01, 0x23, 0x45, 0x67, 0x89, 0xab, 0xcd, 0xef,
  0xfe, 0xdc, 0xba, 0x98, 0x76, 0x54, 0x32, 0x10]

theorem sm4EncryptBitsliceX32_two_lanes :
    let rk := sm4SetKey testPlain (Vector.replicate 32 0)
    sm4EncryptBitsliceX32 (generic 32) ((initSboxTerms sm4SboxByte)^[1] sboxTermsStatic)
        #v[testPlain, Vector.replicate 16 0] rk =
      #v[#v[0x68, 0x1e, 0xdf, 0x34, 0xd2, 0x06, 0x96, 0x5e,
          0x86, 0xb3, 0xe9, 0x4f, 0x53, 0x6e, 0x42, 0x46],
        #v[0x26, 0x77, 0xf4, 0x6b, 0x09, 0xc1, 0x22, 0xcc,
          0x97, 0x55, 0x33, 0x10, 0x5b, 0xd4, 0xa2, 0x2a]] := by
  intro rk
  exact ((sm4EncryptBitsliceX32_eq_scalar 0 #v[testPlain, Vector.replicate 16 0] rk).1 32
    (by decide)).trans (by decide +kernel)

/-! ## Any byte table -/

theorem collectTerms_length (coeff : Vector Byte 256) : (collectTerms coeff).length ≤ 256 :=
  fold_inv (fun k (terms : List Byte) => terms.length ≤ k) 256
    (fun mask _ terms => if coeff[mask] ≠ 0 then terms ++ [BitVec.ofNat 8 mask] else terms) []
    (Nat.zero_le 0) (by
      intro k hk terms le
      split
      · rw [List.length_append]
        exact Nat.succ_le_succ le
      · exact Nat.le_succ_of_le le)

theorem byteOf_sboxWord (sbox : Byte → Byte) (w : Word) (byte : Fin 4) :
    byteOf (sboxWord sbox w) (8 * byte.val) = sbox (byteOf w (8 * byte.val)) := by
  obtain ⟨h24, h16, h8, h0⟩ := byteOf_ofBytes (sbox (byteOf w 24)) (sbox (byteOf w 16))
    (sbox (byteOf w 8)) (sbox (byteOf w 0))
  match byte with
  | 0 => exact h0
  | 1 => exact h8
  | 2 => exact h16
  | 3 => exact h24

/-- Nothing of the evaluation is special to the S-box: whatever table `init_sbox_terms` reads, the
lists hold at most 256 masks, and every byte of every lane is looked up in that table. -/
theorem sm4SboxBitslicedWord_anyTable (S : Vector Byte 256) (calls : Nat) {B : Backend}
    {lanes : Nat} (build : Build B lanes) :
    let st := (initSboxTerms (lookup S))^[calls + 1] sboxTermsStatic
    (∀ outBit : Fin 8, st.terms[outBit].length ≤ 256) ∧
      ∀ (inp : Bs32 B) (lane : Fin lanes) (byte : Fin 4),
        byteOf (laneWord lane (sm4SboxBitslicedWord st inp)) (8 * byte.val) =
          lookup S (byteOf (laneWord lane inp) (8 * byte.val)) := by
  intro st
  have terms : TermsOf (lookup S) st := initSboxTerms_static (lookup S) calls
  refine ⟨fun outBit => ?_, fun inp lane byte => ?_⟩
  · rw [terms outBit]
    exact collectTerms_length _
  · rw [laneWord_sbox build.lawful lane.isLt terms, byteOf_sboxWord]

/-- A table of complements, on two lanes with the bytes `0x05` and `0xc6`. -/
theorem sm4SboxBitslicedWord_complement :
    let S : Vector Byte 256 := Vector.ofFn fun x => ~~~BitVec.ofFin x
    let inp : Bs32 (generic 2) :=
      Vector.ofFn fun b => BitVec.ofBool ((0xc6 : Byte).getLsbD (b.val % 8)) ++
        BitVec.ofBool ((0x05 : Byte).getLsbD (b.val % 8))
    let out := sm4SboxBitslicedWord ((initSboxTerms (lookup S))^[1] sboxTermsStatic) inp
    byteOf (laneWord 0 out) 0 = 0xfa ∧ byteOf (laneWord 1 out) 24 = 0x39 := by
  intro S inp out
  have table := (sm4SboxBitslicedWord_anyTable S 0 (.inl ⟨2, le_rfl, rfl⟩ : Build (generic 2) 2)).2
    inp
  exact ⟨(table 0 0).trans (by decide +kernel), (table 1 3).trans (by decide +kernel)⟩

end SystemsLab.Sm4Bitslice
