import SystemsLab.Sm4.RoundTables
import Mathlib.Data.Fintype.EquivFin

/-! The engine written with the RISC-V instructions `sm4ed` and `sm4ks`
(`sm4_single_stream_riscv_zksed.c`), in its C fallbacks. The fallbacks spread a byte
for little-endian words, but the engine loads big-endian ones: each byte lane then
carries an error byte twice, and the errors of a word cancel only when bytes two
apart agree. -/

namespace SystemsLab.Sm4Zksed
open ByteWord ShiftRegister CountedLoop Textbook Sm4Portable Sm4RoundTables

/-! ## The engine -/

/-- Two shifts; for `n = 0` the right shift drops every bit, which leaves `x`. -/
def rotl32 (x : Word) (n : Nat) : Word := (x <<< n) ||| (x >>> (32 - n))

def loadBe32 (b : Block) (p : Nat) : Word :=
  (b[p]!.setWidth 32 <<< 24) ||| (b[p + 1]!.setWidth 32 <<< 16) |||
    (b[p + 2]!.setWidth 32 <<< 8) ||| b[p + 3]!.setWidth 32

def storeBe32 (value : Word) : Vector Byte 4 :=
  vec4 ((value >>> 24).setWidth 8) ((value >>> 16).setWidth 8) ((value >>> 8).setWidth 8)
    (value.setWidth 8)

def edSpread (x : Word) : Word :=
  x ^^^ (x <<< 8) ^^^ (x <<< 2) ^^^ (x <<< 18) ^^^ ((x &&& 0x0000003F) <<< 26) ^^^
    ((x &&& 0x000000C0) <<< 10)

def ksSpread (x : Word) : Word :=
  x ^^^ ((x &&& 0x00000007) <<< 29) ^^^ ((x &&& 0x000000FE) <<< 7) ^^^
    ((x &&& 0x00000001) <<< 23) ^^^ ((x &&& 0x000000F8) <<< 13)

/-- The common body of the two fallbacks. -/
def fallback (spread : Word → Word) (rs1 rs2 : Word) (bs : Nat) : Word :=
  let shamt := (bs &&& 3) * 8
  let sbIn : Byte := ((rs2 >>> shamt) &&& 0xFF).setWidth 8
  let x : Word := (sm4SboxByte sbIn).setWidth 32
  let y := spread x
  let z := rotl32 y shamt
  rs1 ^^^ z

def sm4edFallback (rs1 rs2 : Word) (bs : Nat) : Word := fallback edSpread rs1 rs2 bs

def sm4ksFallback (rs1 rs2 : Word) (bs : Nat) : Word := fallback ksSpread rs1 rs2 bs

/-- The four instructions of one round, `bs` from 0 to 3, accumulated onto `next`. -/
def accumulate (ins : Word → Word → Nat → Word) (next t : Word) : Word :=
  let next := ins next t 0
  let next := ins next t 1
  let next := ins next t 2
  ins next t 3

def sm4SetKeyZksed (key : Block) (rk : RoundKeys) : RoundKeys :=
  let k : Window Word := ⟨loadBe32 key 0 ^^^ sm4Fk[0]!, loadBe32 key 4 ^^^ sm4Fk[1]!,
    loadBe32 key 8 ^^^ sm4Fk[2]!, loadBe32 key 12 ^^^ sm4Fk[3]!⟩
  (Nat.fold 32 (fun i _ (st : Window Word × RoundKeys) =>
    let t := st.1.b ^^^ st.1.c ^^^ st.1.d ^^^ sm4Ck[i]
    let next := accumulate sm4ksFallback st.1.a t
    (⟨st.1.b, st.1.c, st.1.d, next⟩, st.2.set i next)) (k, rk)).2

def zksedRound (rk : Word) (x : Window Word) : Window Word :=
  let t := x.b ^^^ x.c ^^^ x.d ^^^ rk
  let next := accumulate sm4edFallback x.a t
  ⟨x.b, x.c, x.d, next⟩

def sm4EncryptBlockZksed (inp : Block) (rk : RoundKeys) : Block :=
  let x : Window Word := ⟨loadBe32 inp 0, loadBe32 inp 4,
    loadBe32 inp 8, loadBe32 inp 12⟩
  let x := Nat.fold 32 (fun i _ x => zksedRound rk[i] x) x
  concat4 (storeBe32 x.d) (storeBe32 x.c) (storeBe32 x.b) (storeBe32 x.a)

/-! ## The engine as a textbook cipher with other round transforms -/

def zksedT (spread : Word → Word) (t : Word) : Word :=
  let place (s : Nat) := rotl (spread ((sm4SboxByte (byteOf t s)).setWidth 32)) s
  place 0 ^^^ place 8 ^^^ place 16 ^^^ place 24

theorem accumulate_fallback (spread : Word → Word) (next t : Word) :
    accumulate (fallback spread) next t = next ^^^ zksedT spread t := by
  simp only [accumulate, fallback, zksedT, setWidth_and_ff, BitVec.xor_assoc]
  rfl

theorem sm4SetKeyZksed_toList (key : Block) (rk : RoundKeys) :
    (sm4SetKeyZksed key rk).toList =
      schedule (zksedT ksSpread) sm4Ck.toList (sm4SetKeyInit key) := by
  have step (a t : Word) : accumulate sm4ksFallback a t = a ^^^ zksedT ksSpread t :=
    accumulate_fallback ksSpread a t
  simp only [sm4SetKeyZksed, step]
  exact schedule_fold (zksedT ksSpread) sm4Ck rk (sm4SetKeyInit key)

theorem sm4EncryptBlockZksed_eq (inp : Block) (rk : RoundKeys) :
    sm4EncryptBlockZksed inp rk = cipher (zksedT edSpread) rk.toList inp := by
  have step : zksedRound = shift (· ^^^ ·) (feedback (zksedT edSpread)) := by
    funext k x
    rw [zksedRound, shift, feedback]
    exact congrArg _ (accumulate_fallback edSpread x.a _)
  have store (v : Word) : storeBe32 v = bytesOf v := by simp [storeBe32, bytesOf, byteOf]
  simp only [sm4EncryptBlockZksed, store]
  rw [fold_vector rk zksedRound, step]
  rfl

/-! ## The error of a spread byte -/

def edError (x : Byte) : Byte := x ^^^ (x <<< 2)

def ksError (x : Byte) : Byte := (x >>> 1) ^^^ (x <<< 5)

/-- `spread` is the linear layer `L` on a byte, up to an error byte in places 1 and 3. -/
structure Spread (spread L : Word → Word) (error : Byte → Byte) : Prop where
  linear : RotationLinear L
  spread_eq : ∀ x : Byte, spread (x.setWidth 32) =
    L (x.setWidth 32) ^^^ ofBytes (error x) 0 (error x) 0
  error_xor : ∀ x y, error (x ^^^ y) = error x ^^^ error y

theorem edSpread_spread : Spread edSpread sm4Linear edError where
  linear := sm4Linear_rotationLinear
  spread_eq := by decide +kernel
  error_xor x y := by
    simp only [edError, BitVec.shiftLeft_xor_distrib]
    ac_rfl

theorem ksSpread_spread : Spread ksSpread sm4KeyLinear ksError where
  linear := sm4KeyLinear_rotationLinear
  spread_eq := by decide +kernel
  error_xor x y := by
    simp only [ksError, BitVec.shiftLeft_xor_distrib, BitVec.ushiftRight_xor_distrib]
    ac_rfl

theorem zksedT_eq {spread L : Word → Word} {error : Byte → Byte}
    (h : Spread spread L error) (t : Word) :
    zksedT spread t = L (sm4SboxWord t) ^^^
      let low := error (sm4SboxByte (byteOf t 0) ^^^ sm4SboxByte (byteOf t 16))
      let high := error (sm4SboxByte (byteOf t 8) ^^^ sm4SboxByte (byteOf t 24))
      ofBytes low high low high := by
  have split (e0 e1 e2 e3 : Byte) : ofBytes (e0 ^^^ e2) (e1 ^^^ e3) (e0 ^^^ e2) (e1 ^^^ e3) =
      ofBytes e0 0 e0 0 ^^^ ofBytes 0 e1 0 e1 ^^^ ofBytes e2 0 e2 0 ^^^ ofBytes 0 e3 0 e3 := by
    simp [ofBytes_xor]
  have rotate (x : Word) : rotl x 16 = rotl (rotl x 8) 8 ∧
    rotl x 24 = rotl (rotl (rotl x 8) 8) 8 := by
    constructor <;> simp [rotl_rotl]
  simp only [zksedT, h.spread_eq, rotl_xor, rotl_zero]
  rw [sm4SboxWord_eq, h.linear.ofBytes]
  simp only [(rotate (ofBytes _ _ _ _)).1, (rotate (ofBytes _ _ _ _)).2, rotl_ofBytes, h.error_xor,
    split]
  ac_rfl

/-- A word is transformed as in SM4 exactly when the S-box values of bytes two apart have the same
error. -/
theorem zksedT_eq_iff {spread L : Word → Word} {error : Byte → Byte} (h : Spread spread L error)
    (t : Word) : zksedT spread t = L (sm4SboxWord t) ↔
      error (sm4SboxByte (byteOf t 0) ^^^ sm4SboxByte (byteOf t 16)) = 0 ∧
        error (sm4SboxByte (byteOf t 8) ^^^ sm4SboxByte (byteOf t 24)) = 0 := by
  have none : ofBytes 0 0 0 0 = 0 := by decide
  have same (x e : Word) : x ^^^ e = x ↔ e = 0 := by
    conv_lhs => rhs; rw [← BitVec.xor_zero (x := x)]
    exact BitVec.xor_right_inj x
  rw [zksedT_eq h, same, ← none, ofBytes_inj]
  constructor
  · rintro ⟨low, high, -, -⟩
    exact ⟨low, high⟩
  · rintro ⟨low, high⟩
    exact ⟨low, high, low, high⟩

/-! ## Where the engine is SM4 -/

def HalvesAgree (t : Word) : Prop := byteOf t 0 = byteOf t 16 ∧ byteOf t 8 = byteOf t 24

instance (t : Word) : Decidable (HalvesAgree t) := inferInstanceAs (Decidable (_ ∧ _))

/-- The S-box values of bytes two apart differ in no bit, or in exactly bits 0 and 6. -/
def KeyHalvesAgree (t : Word) : Prop :=
  sm4SboxByte (byteOf t 0) ^^^ sm4SboxByte (byteOf t 16) ∈ ([0, 0x41] : List Byte) ∧
    sm4SboxByte (byteOf t 8) ^^^ sm4SboxByte (byteOf t 24) ∈ ([0, 0x41] : List Byte)

instance (t : Word) : Decidable (KeyHalvesAgree t) := inferInstanceAs (Decidable (_ ∧ _))

theorem edError_eq_zero : ∀ x, edError x = 0 ↔ x = 0 := by decide +kernel

theorem ksError_eq_zero : ∀ x, ksError x = 0 ↔ x ∈ ([0, 0x41] : List Byte) := by decide +kernel

private theorem testBit_marks (l : List Byte) (seen j : Nat)
    (h : (l.foldl (fun seen b => seen ||| 1 <<< b.toNat) seen).testBit j = true) :
    seen.testBit j = true ∨ ∃ b ∈ l, b.toNat = j := by
  induction l generalizing seen with
  | nil => exact Or.inl h
  | cons b l ih =>
    rcases ih _ h with old | ⟨c, hc, eq⟩
    · rw [Nat.testBit_or, Nat.one_shiftLeft, Bool.or_eq_true_iff, Nat.testBit_two_pow,
        decide_eq_true_iff] at old
      exact old.imp_right fun eq => ⟨b, List.mem_cons_self, eq⟩
    · exact Or.inr ⟨c, List.mem_cons_of_mem _ hc, eq⟩

/-- Every byte is in the S-box table: its bit is marked in one pass over the table. -/
theorem sm4SboxByte_surjective : Function.Surjective sm4SboxByte := by
  intro y
  have full : sm4S.toList.foldl (fun seen b => seen ||| 1 <<< b.toNat) 0 = 2 ^ 256 - 1 := by
    decide +kernel
  have marked :
    (sm4S.toList.foldl (fun seen b => seen ||| 1 <<< b.toNat) 0).testBit y.toNat = true := by
    rw [full, Nat.testBit_two_pow_sub_one]
    exact decide_eq_true y.isLt
  obtain ⟨b, hb, eq⟩ := (testBit_marks _ _ _ marked).resolve_left (by simp)
  obtain ⟨i, hi, rfl⟩ := List.getElem_of_mem hb
  rw [Vector.length_toList] at hi
  refine ⟨BitVec.ofNat 8 i, BitVec.eq_of_toNat_eq (Eq.trans ?_ eq)⟩
  have index : (BitVec.ofNat 8 i).toNat = i := by rw [BitVec.toNat_ofNat, Nat.mod_eq_of_lt hi]
  simp only [sm4SboxByte, lookup, index]
  rfl

theorem sm4SboxByte_injective : Function.Injective sm4SboxByte := by
  have : Finite Byte :=
    Finite.of_injective (fun b : Byte => b.toFin) fun _ _ h => BitVec.eq_of_toNat_eq
      (congrArg Fin.val h)
  exact Finite.injective_iff_surjective.mpr sm4SboxByte_surjective

theorem zksedT_ed_iff (t : Word) : zksedT edSpread t = sm4RoundT t ↔ HalvesAgree t := by
  have equal (a b : Byte) : sm4SboxByte a ^^^ sm4SboxByte b = 0 ↔ a = b :=
    BitVec.xor_eq_zero_iff.trans sm4SboxByte_injective.eq_iff
  rw [sm4RoundT, zksedT_eq_iff edSpread_spread, edError_eq_zero, edError_eq_zero, equal, equal]
  rfl

theorem zksedT_ks_iff (t : Word) : zksedT ksSpread t = sm4KeySub t ↔ KeyHalvesAgree t := by
  rw [sm4KeySub, zksedT_eq_iff ksSpread_spread, ksError_eq_zero, ksError_eq_zero]
  rfl

/-- The words that enter the S-box when the textbook register runs. -/
def sboxInputs (T : Word → Word) (keys : List Word) (w : Window Word) : List Word :=
  (feeds (· ^^^ ·) (feedback T) keys w).map fun x => x.2.1 ^^^ x.2.2.1 ^^^ x.2.2.2 ^^^ x.1

theorem forall_sboxInputs {T T' : Word → Word} (keys : List Word) (w : Window Word) :
    (∀ x ∈ feeds (· ^^^ ·) (feedback T) keys w,
        feedback T' x.1 x.2.1 x.2.2.1 x.2.2.2 = feedback T x.1 x.2.1 x.2.2.1 x.2.2.2) ↔
      ∀ t ∈ sboxInputs T keys w, T' t = T t := by
  simp only [sboxInputs, List.forall_mem_map, feedback]

def keyInputs (key : Block) : List Word := sboxInputs sm4KeySub sm4Ck.toList (sm4SetKeyInit key)

def roundInputs (rk : RoundKeys) (b : Block) : List Word :=
  sboxInputs sm4RoundT rk.toList (loadWords b)

theorem sm4SetKeyZksed_eq_iff (key : Block) (rk ks : RoundKeys) :
    sm4SetKeyZksed key rk = sm4SetKey key ks ↔ ∀ t ∈ keyInputs key, KeyHalvesAgree t := by
  rw [← Vector.toList_inj, sm4SetKeyZksed_toList, sm4SetKey_toList, schedule, schedule,
    outputs_eq_iff _ _ _ (fun a s t => (BitVec.xor_right_inj a).mp), forall_sboxInputs]
  exact forall₂_congr fun t _ => zksedT_ks_iff t

theorem zksed_rounds_eq_iff (rk : RoundKeys) (b : Block) :
    outputs (· ^^^ ·) (feedback (zksedT edSpread)) rk.toList (loadWords b) =
        outputs (· ^^^ ·) (feedback sm4RoundT) rk.toList (loadWords b) ↔
      ∀ t ∈ roundInputs rk b, HalvesAgree t := by
  rw [outputs_eq_iff _ _ _ (fun a s t => (BitVec.xor_right_inj a).mp), forall_sboxInputs]
  exact forall₂_congr fun t _ => zksedT_ed_iff t

theorem sm4EncryptBlockZksed_of_agree (rk : RoundKeys) (b : Block)
    (agree : ∀ t ∈ roundInputs rk b, HalvesAgree t) :
    sm4EncryptBlockZksed b rk = sm4EncryptBlock b rk := by
  rw [sm4EncryptBlockZksed_eq, sm4EncryptBlock_eq, cipher, cipher, rounds, rounds,
    run_congr _ _ _ _ _ ((forall_sboxInputs _ _).mpr fun t ht =>
      (zksedT_ed_iff t).mpr (agree t ht))]

/-! ## Inputs on which every step agrees -/

theorem halvesAgree_iff (t : Word) : HalvesAgree t ↔ rotl t 16 = t := by
  have turned : rotl t 16 = ofBytes (byteOf t 8) (byteOf t 0) (byteOf t 24) (byteOf t 16) :=
    calc rotl t 16 = rotl (rotl t 8) 8 := (rotl_rotl t 8 8 (by decide) (by decide)).symm
      _ = rotl (rotl (ofBytes (byteOf t 24) (byteOf t 16) (byteOf t 8) (byteOf t 0)) 8) 8 := by
        rw [ofBytes_byteOf]
      _ = ofBytes (byteOf t 8) (byteOf t 0) (byteOf t 24) (byteOf t 16) := by
        rw [rotl_ofBytes, rotl_ofBytes]
  rw [turned]
  conv_rhs => rhs; rw [← ofBytes_byteOf t]
  rw [ofBytes_inj, HalvesAgree]
  constructor
  · rintro ⟨low, high⟩
    exact ⟨high, low, high.symm, low.symm⟩
  · rintro ⟨high, low, -, -⟩
    exact ⟨low, high⟩

theorem HalvesAgree.xor {s t : Word} (hs : HalvesAgree s) (ht : HalvesAgree t) :
    HalvesAgree (s ^^^ t) := by
  rw [halvesAgree_iff] at *
  rw [rotl_xor, hs, ht]

theorem HalvesAgree.sm4RoundT {t : Word} (h : HalvesAgree t) : HalvesAgree (sm4RoundT t) := by
  have sbox : HalvesAgree (sm4SboxWord t) := by
    obtain ⟨h24, h16, h8, h0⟩ :=
      byteOf_ofBytes (sm4SboxByte (byteOf t 24)) (sm4SboxByte (byteOf t 16))
      (sm4SboxByte (byteOf t 8)) (sm4SboxByte (byteOf t 0))
    rw [HalvesAgree, sm4SboxWord_eq, h24, h16, h8, h0, h.1, h.2]
    exact ⟨rfl, rfl⟩
  rw [halvesAgree_iff] at *
  rw [Sm4Portable.sm4RoundT, ← sm4Linear_rotationLinear.rotl _ 16 (by decide), sbox]

/-- Round keys and a window with equal half-words keep equal half-words in every round. -/
theorem sboxInputs_halvesAgree (keys : List Word) (w : Window Word) (hk : ∀ k ∈ keys, HalvesAgree k)
    (a : HalvesAgree w.a) (b : HalvesAgree w.b) (c : HalvesAgree w.c) (d : HalvesAgree w.d) :
    ∀ t ∈ sboxInputs sm4RoundT keys w, HalvesAgree t := by
  induction keys generalizing w with
  | nil => exact fun t ht => absurd ht List.not_mem_nil
  | cons k keys ih =>
    have input := ((b.xor c).xor d).xor (hk k List.mem_cons_self)
    intro t ht
    rcases List.mem_cons.mp ht with rfl | rest
    · exact input
    · exact ih (shift (· ^^^ ·) (feedback sm4RoundT) k w)
        (fun x hx => hk x (List.mem_cons_of_mem _ hx))
        b c d (a.xor input.sm4RoundT) t rest

/-- Where the engine does what SM4 does. Accumulating `sm4ed` (`sm4ks`) onto a word adds the
round (key) transform exactly when the half-words agree (agree up to the byte 0x41 after the
S-box); the round keys of a key, and the round words of a block, are the right ones exactly
when that holds in each of the 32 steps, and then the encrypted block is the right one. -/
theorem zksed_meets_sm4_iff (w t : Word) (key b : Block) (rk ks : RoundKeys) :
    (accumulate sm4edFallback w t = w ^^^ sm4RoundT t ↔ HalvesAgree t) ∧
    (accumulate sm4ksFallback w t = w ^^^ sm4KeySub t ↔ KeyHalvesAgree t) ∧
    (sm4SetKeyZksed key rk = sm4SetKey key ks ↔ ∀ t ∈ keyInputs key, KeyHalvesAgree t) ∧
    (outputs (· ^^^ ·) (feedback (zksedT edSpread)) rk.toList (loadWords b) =
        outputs (· ^^^ ·) (feedback sm4RoundT) rk.toList (loadWords b) ↔
      ∀ t ∈ roundInputs rk b, HalvesAgree t) ∧
    ((∀ t ∈ roundInputs rk b, HalvesAgree t) →
      sm4EncryptBlockZksed b rk = sm4EncryptBlock b rk) := by
  refine ⟨?_, ?_, sm4SetKeyZksed_eq_iff key rk ks, zksed_rounds_eq_iff rk b,
    sm4EncryptBlockZksed_of_agree rk b⟩
  · have sum : accumulate sm4edFallback w t = w ^^^ zksedT edSpread t :=
      accumulate_fallback edSpread w t
    rw [sum, BitVec.xor_right_inj, zksedT_ed_iff]
  · have sum : accumulate sm4ksFallback w t = w ^^^ zksedT ksSpread t :=
      accumulate_fallback ksSpread w t
    rw [sum, BitVec.xor_right_inj, zksedT_ks_iff]

def zksedKey : Block := storeWords ⟨0x01234567, 0x89abcdef, 0xfedcba98, 0x76543210⟩

theorem zksed_meets_sm4_equal_halves :
    let b := storeWords ⟨0x01230123, 0x89ab89ab, 0xfedcfedc, 0x76547654⟩
    let rk := Vector.replicate 32 (0x3c5a3c5a : Word)
    accumulate sm4edFallback 0x13579bdf 0x01230123 = 0x13579bdf ^^^ sm4RoundT 0x01230123 ∧
      accumulate sm4ksFallback 0x13579bdf 0x01230123 = 0x13579bdf ^^^ sm4KeySub 0x01230123 ∧
      sm4EncryptBlockZksed b rk = sm4EncryptBlock b rk := by
  intro b rk
  obtain ⟨ed, ks, -, -, block⟩ :=
    zksed_meets_sm4_iff 0x13579bdf 0x01230123 zksedKey b rk (Vector.replicate 32 0)
  refine ⟨ed.mpr (by decide), ks.mpr (by decide +kernel), block ?_⟩
  refine sboxInputs_halvesAgree _ _ (fun k hk => ?_) (by decide) (by decide) (by decide) (by decide)
  rw [Vector.toList_replicate, List.mem_replicate] at hk
  rw [hk.2]
  decide

/-- On the program's own key the round keys are wrong, under right round keys a block is
encrypted wrongly, and both instructions already fail on the word 1. -/
theorem zksed_not_sm4 :
    ¬ ((∀ key rk ks, sm4SetKeyZksed key rk = sm4SetKey key ks) ∧
      (∀ rk b, sm4EncryptBlockZksed b rk = sm4EncryptBlock b rk) ∧
      (∀ w t, accumulate sm4edFallback w t = w ^^^ sm4RoundT t) ∧
      ∀ w t, accumulate sm4ksFallback w t = w ^^^ sm4KeySub t) ∧
    (sm4SetKeyZksed zksedKey (Vector.replicate 32 0)).toList.head? ≠
      (sm4SetKey zksedKey (Vector.replicate 32 0)).toList.head? ∧
    sm4EncryptBlockZksed zksedKey (Vector.replicate 32 0) ≠
      sm4EncryptBlock zksedKey (Vector.replicate 32 0) ∧
    accumulate sm4edFallback 0 1 ≠ 0 ^^^ sm4RoundT 1 ∧
      accumulate sm4ksFallback 0 1 ≠ 0 ^^^ sm4KeySub 1 := by
  have word : accumulate sm4edFallback 0 1 ≠ 0 ^^^ sm4RoundT 1 := by decide +kernel
  exact ⟨fun h => word (h.2.2.1 0 1), by decide +kernel, by decide +kernel, word, by decide +kernel⟩

end SystemsLab.Sm4Zksed
