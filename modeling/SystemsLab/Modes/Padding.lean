import SystemsLab.General.BlockStream
import SystemsLab.Sm4.OpenHitls

/-! Padding of the last block in openHiTLS (`modes.c`): what `MODES_BlockPadding` writes behind
the waiting bytes, and which blocks the three checks of `MODES_BlockUnPadding` accept. -/

namespace SystemsLab.ModesPadding
open ByteWord Buffer CountedLoop StreamMachine BlockStream Sm4OpenHitls

inductive CryptCipherAlgId
  | aes128Cbc | aes192Cbc | aes256Cbc | aes128Ctr | aes192Ctr | aes256Ctr
  | aes128Ecb | aes192Ecb | aes256Ecb | aes128Xts | aes256Xts
  | aes128Ccm | aes192Ccm | aes256Ccm | aes128Gcm | aes192Gcm | aes256Gcm | chacha20Poly1305
  | sm4Xts | sm4Cbc | sm4Ecb | sm4Ctr | sm4Gcm | sm4Cfb | sm4Ofb
  | aes128Cfb | aes192Cfb | aes256Cfb | aes128Ofb | aes192Ofb | aes256Ofb
  deriving DecidableEq

inductive CryptPaddingType
  | none | zeros | iso7816 | x923 | pkcs5 | pkcs7
  deriving DecidableEq

def cryptInvalidArg : Int := 0x01010006
def cryptEalCipherDataError : Int := 0x0104000D
def cryptModeErrInputLen : Int := 0x01100008

def ifXts (id : CryptCipherAlgId) : Bool :=
  [CryptCipherAlgId.aes128Xts, .aes256Xts, .sm4Xts].contains id

/-! ## Padding -/

structure PaddingResult where
  ret : Int
  data : Memory Byte
  dataLen : Nat

def modesBlockPadding (algId : CryptCipherAlgId) (padding : CryptPaddingType) (blockSize : Nat)
    (data : Memory Byte) (dataLen : Nat) : PaddingResult :=
  let tempLen := dataLen
  let padLen := blockSize - tempLen
  match padding with
  | .none =>
    if tempLen % blockSize ≠ 0 then
      ⟨if ifXts algId then cryptSuccess else cryptModeErrInputLen, data, tempLen⟩
    else ⟨cryptSuccess, data, tempLen⟩
  | .zeros =>
    let data := forLoop 0 padLen 1 (fun i data => Function.update data (tempLen + i) 0x00) data
    ⟨cryptSuccess, data, dataLen + padLen⟩
  | .iso7816 =>
    let data := Function.update data tempLen 0x80
    let data := forLoop 1 padLen 1 (fun i data => Function.update data (tempLen + i) 0x00) data
    ⟨cryptSuccess, data, dataLen + padLen⟩
  | .x923 =>
    let data := forLoop 0 (padLen - 1) 1
      (fun i data => Function.update data (tempLen + i) 0x00) data
    let data := Function.update data (tempLen + (padLen - 1)) (BitVec.ofNat 8 padLen)
    ⟨cryptSuccess, data, dataLen + padLen⟩
  | .pkcs5 | .pkcs7 =>
    let data := forLoop 0 padLen 1
      (fun i data => Function.update data (tempLen + i) (BitVec.ofNat 8 padLen)) data
    ⟨cryptSuccess, data, dataLen + padLen⟩

def fill : CryptPaddingType → Nat → List Byte
  | .none, _ => []
  | .zeros, k => List.replicate k 0x00
  | .iso7816, k => 0x80 :: List.replicate (k - 1) 0x00
  | .x923, k => List.replicate (k - 1) 0x00 ++ [BitVec.ofNat 8 k]
  | .pkcs5, k | .pkcs7, k => List.replicate k (BitVec.ofNat 8 k)

theorem length_fill {padding : CryptPaddingType} (some : padding ≠ .none) {k : Nat} (pos : 0 < k) :
    (fill padding k).length = k := by
  cases padding <;> simp_all [fill] <;> omega

theorem map_const_range' (lo k : Nat) (x : Byte) :
    (List.range' lo k).map (fun _ => x) = List.replicate k x := by
  rw [List.map_const', List.length_range']

theorem modesBlockPadding_eq (algId : CryptCipherAlgId) {padding : CryptPaddingType}
    (some : padding ≠ .none) {n : Nat} (data : Memory Byte) {dataLen : Nat}
    (short : dataLen < n) : modesBlockPadding algId padding n data dataLen =
      ⟨cryptSuccess, store data dataLen (fill padding (n - dataLen)), n⟩ := by
  have length : dataLen + (n - dataLen) = n := by omega
  have loop (p lo hi : Nat) (x : Byte) (mem : Memory Byte) :
      forLoop lo hi 1 (fun i mem => Function.update mem (p + i) x) mem =
        store mem (p + lo) (List.replicate (hi - lo) x) := by
    rw [forLoop_store, map_const_range']
  cases padding with
  | none => exact absurd rfl some
  | zeros => simp only [modesBlockPadding, loop, length, fill, Nat.add_zero, Nat.sub_zero]
  | iso7816 =>
    have first := store_append data dataLen [(0x80 : Byte)]
      (List.replicate (n - dataLen - 1) 0x00)
    rw [List.length_singleton, List.singleton_append, store_singleton] at first
    simp only [modesBlockPadding, loop, length, fill, first]
  | x923 =>
    have last := store_append data dataLen (List.replicate (n - dataLen - 1) (0x00 : Byte))
      [BitVec.ofNat 8 (n - dataLen)]
    rw [List.length_replicate, store_singleton] at last
    simp only [modesBlockPadding, loop, length, fill, Nat.add_zero, Nat.sub_zero, last]
  | pkcs5 => simp only [modesBlockPadding, loop, length, fill, Nat.add_zero, Nat.sub_zero]
  | pkcs7 => simp only [modesBlockPadding, loop, length, fill, Nat.add_zero, Nat.sub_zero]

/-! ## Unpadding -/

/-- The loop `while (*(p + len) == 0 && len > 0) len--`. -/
def skipZeros (p : Nat → Byte) : Nat → Nat
  | 0 => 0
  | len + 1 => if p (len + 1) = 0 then skipZeros p len else len + 1

def unPaddingIso7816 (pad : Nat → Byte) (padLen : Nat) : Except Int Nat :=
  let len := skipZeros pad (padLen - 1)
  let len := if pad len = 0x80 then len else padLen
  if len = padLen then .error cryptEalCipherDataError else .ok len

/-- `padLen - len` as the code computes it, on `uint32_t`. -/
def padPos (padLen len : Nat) : Nat := (padLen + 2 ^ 32 - len) % 2 ^ 32

def unPaddingX923 (pad : Nat → Byte) (padLen : Nat) : Except Int Nat :=
  let len := (pad (padLen - 1)).toNat
  let check := if padLen < len then 1 else 0
  let pos := padPos padLen len
  let check := forLoop 0 (padLen - 1) 1
    (fun i check => check ||| (pad i).toNat * (if pos ≤ i then 1 else 0)) check
  if check ≠ 0 then .error cryptEalCipherDataError else .ok (padLen - len)

def unPaddingPkcs (pad : Nat → Byte) (padLen : Nat) : Except Int Nat :=
  let len := (pad (padLen - 1)).toNat
  let check := if len = 0 ∨ padLen < len then 1 else 0
  let pos := padPos padLen len
  let check := forLoop 0 padLen 1
    (fun i check => check ||| ((pad i).toNat ^^^ len) * (if pos ≤ i then 1 else 0)) check
  if check ≠ 0 then .error cryptEalCipherDataError else .ok (padLen - len)

/-- The new value of `*dataLen`, or the error. -/
def modesBlockUnPadding (padding : CryptPaddingType) (pad : Nat → Byte) (padLen dataLen : Nat) :
    Except Int Nat :=
  match padding with
  | .iso7816 => unPaddingIso7816 pad padLen
  | .x923 => unPaddingX923 pad padLen
  | .pkcs5 | .pkcs7 => unPaddingPkcs pad padLen
  | .none | .zeros => .ok dataLen

theorem skipZeros_spec (p : Nat → Byte) (top : Nat) :
    skipZeros p top ≤ top ∧ (∀ i, skipZeros p top < i → i ≤ top → p i = 0) ∧
      (skipZeros p top ≠ 0 → p (skipZeros p top) ≠ 0) := by
  induction top with
  | zero =>
    refine ⟨Nat.le_refl 0, fun i lt le => ?_, fun some => absurd rfl some⟩
    exact absurd (Nat.lt_of_lt_of_le lt le) (Nat.lt_irrefl _)
  | succ top ih =>
    unfold skipZeros
    split_ifs with zero
    · refine ⟨Nat.le_succ_of_le ih.1, fun i lt le => ?_, ih.2.2⟩
      rcases Nat.eq_or_lt_of_le le with rfl | lower
      · exact zero
      · exact ih.2.1 i lt (Nat.lt_succ_iff.mp lower)
    · exact ⟨Nat.le_refl _, fun i lt le => absurd (Nat.lt_of_lt_of_le lt le) (Nat.lt_irrefl _),
        fun _ => zero⟩

theorem modesBlockUnPadding_congr {padding : CryptPaddingType} {pad pad' : Nat → Byte}
    {padLen : Nat} (dataLen : Nat) (pos : 0 < padLen) (h : ∀ i < padLen, pad i = pad' i) :
    modesBlockUnPadding padding pad padLen dataLen =
      modesBlockUnPadding padding pad' padLen dataLen := by
  have last := h (padLen - 1) (by omega)
  have scan (top : Nat) (lt : top < padLen) : skipZeros pad top = skipZeros pad' top := by
    induction top with
    | zero => rfl
    | succ top ih => rw [skipZeros, skipZeros, h _ lt, ih (by omega)]
  have loop (hi : Nat) (le : hi ≤ padLen) (t : Byte → Nat → Nat) (c : Nat) :
      forLoop 0 hi 1 (fun i c => c ||| t (pad i) i) c =
        forLoop 0 hi 1 (fun i c => c ||| t (pad' i) i) c := by
    refine forLoop_congr (fun i mem => ?_) c
    have inside := (mem_indices Nat.one_pos).mp mem
    funext c
    rw [h i (by omega)]
  cases padding with
  | none | zeros => rfl
  | iso7816 =>
    have inside : skipZeros pad' (padLen - 1) < padLen := by
      have le := (skipZeros_spec pad' (padLen - 1)).1
      omega
    simp only [modesBlockUnPadding, unPaddingIso7816, scan (padLen - 1) (by omega), h _ inside]
  | x923 =>
    simp only [modesBlockUnPadding, unPaddingX923, last]
    rw [loop (padLen - 1) (by omega) fun x i =>
      x.toNat * if padPos padLen (pad' (padLen - 1)).toNat ≤ i then 1 else 0]
  | pkcs5 | pkcs7 =>
    simp only [modesBlockUnPadding, unPaddingPkcs, last]
    rw [loop padLen (Nat.le_refl _) fun x i => (x.toNat ^^^ (pad' (padLen - 1)).toNat) *
      if padPos padLen (pad' (padLen - 1)).toNat ≤ i then 1 else 0]

theorem modesBlockUnPadding_error {padding : CryptPaddingType} {pad : Nat → Byte}
    {padLen dataLen : Nat} {e : Int}
    (h : modesBlockUnPadding padding pad padLen dataLen = .error e) :
    e = cryptEalCipherDataError := by
  cases padding <;> simp only [modesBlockUnPadding, unPaddingIso7816, unPaddingX923, unPaddingPkcs,
    reduceCtorEq] at h
  all_goals
    split_ifs at h
    all_goals
      cases h
      rfl

theorem modesBlockUnPadding_le {padding : CryptPaddingType} {pad : Nat → Byte}
    {padLen dataLen len : Nat} (le : dataLen ≤ padLen)
    (h : modesBlockUnPadding padding pad padLen dataLen = .ok len) : len ≤ padLen := by
  cases padding with
  | none | zeros =>
    cases h
    exact le
  | iso7816 =>
    simp only [modesBlockUnPadding, unPaddingIso7816] at h
    have top := (skipZeros_spec pad (padLen - 1)).1
    split_ifs at h
    all_goals
      cases h
      omega
  | x923 | pkcs5 | pkcs7 =>
    simp only [modesBlockUnPadding, unPaddingX923, unPaddingPkcs] at h
    split_ifs at h
    all_goals
      cases h
      exact Nat.sub_le _ _

/-! ## Accepted blocks -/

theorem foldl_or_eq_zero (t : Nat → Nat) (l : List Nat) (c : Nat) :
    l.foldl (fun c i => c ||| t i) c = 0 ↔ c = 0 ∧ ∀ i ∈ l, t i = 0 := by
  induction l generalizing c with
  | nil => simp
  | cons a l ih => rw [List.foldl_cons, ih, Nat.or_eq_zero_iff]; simp [and_assoc]

theorem check_eq_zero (t : Nat → Nat) (n c : Nat) :
    forLoop 0 n 1 (fun i c => c ||| t i) c = 0 ↔ c = 0 ∧ ∀ i < n, t i = 0 := by
  rw [forLoop, indices_one, foldl_or_eq_zero]
  simp

theorem load_split {pad : Nat → Byte} {len n : Nat} (le : len ≤ n) {l : List Byte}
    (length : l.length = n - len) :
    load pad 0 n = load pad 0 len ++ l ↔ ∀ i < n - len, pad (len + i) = l.getD i 0 := by
  obtain ⟨k, rfl⟩ : ∃ k, n = len + k := ⟨n - len, by omega⟩
  have entry (i : Nat) (h : i < l.length) : l.getD i 0 = l[i] := by simp [h]
  rw [load_add, List.append_cancel_left_eq, Nat.zero_add, Nat.add_sub_cancel_left]
  constructor
  · intro same i h
    have inside : i < (load pad len k).length := by rwa [length_load]
    rw [← getElem_load pad len k i inside, entry i (by omega)]
    exact List.getElem_of_eq same inside
  · intro same
    apply List.ext_getElem
    · rw [length_load]
      omega
    · intro i h₁ h₂
      rw [getElem_load, same i (by omega), entry i h₂]

theorem getD_fill_iso7816 {k i : Nat} (h : i < k) :
    (fill .iso7816 k).getD i 0 = if i = 0 then 0x80 else 0x00 := by
  rcases i with _ | i
  · rfl
  · have inside : i < k - 1 := by omega
    simp [fill, inside]

theorem getD_fill_x923 {k i : Nat} (h : i < k) :
    (fill .x923 k).getD i 0 = if i = k - 1 then BitVec.ofNat 8 k else 0x00 := by
  rw [fill, List.getD_eq_getElem?_getD]
  rcases Nat.lt_or_ge i (k - 1) with low | last
  · rw [List.getElem?_append_left (by simpa using low), if_neg (by omega)]
    simp [low]
  · rw [List.getElem?_append_right (by simpa using last), if_pos (by omega), List.length_replicate]
    simp [show i - (k - 1) = 0 by omega]

theorem getD_fill_pkcs7 {k i : Nat} (h : i < k) :
    (fill .pkcs7 k).getD i 0 = BitVec.ofNat 8 k := by
  simp [fill, h]

theorem padPos_of_le {padLen len : Nat} (le : len ≤ padLen) (small : padLen < 2 ^ 32) :
    padPos padLen len = padLen - len := by
  unfold padPos
  omega

variable {pad : Nat → Byte} {n len : Nat}

theorem unPaddingIso7816_iff (pos : 0 < n) : unPaddingIso7816 pad n = .ok len ↔
    len < n ∧ load pad 0 n = load pad 0 len ++ fill .iso7816 (n - len) := by
  obtain ⟨le, zeros, nonzero⟩ := skipZeros_spec pad (n - 1)
  have accepted : unPaddingIso7816 pad n = .ok len ↔
      len = skipZeros pad (n - 1) ∧ pad (skipZeros pad (n - 1)) = 0x80 := by
    simp only [unPaddingIso7816]
    by_cases marker : pad (skipZeros pad (n - 1)) = 0x80
    · have ne : skipZeros pad (n - 1) ≠ n := by omega
      rw [if_pos marker, if_neg ne, Except.ok.injEq, eq_comm]
      exact (and_iff_left marker).symm
    · rw [if_neg marker, if_pos rfl]
      simp only [marker, and_false, reduceCtorEq]
  rw [accepted]
  constructor
  · rintro ⟨rfl, marker⟩
    refine ⟨by omega, (load_split (by omega) (length_fill (by decide) (by omega))).mpr ?_⟩
    intro i h
    rw [getD_fill_iso7816 h]
    split_ifs with first
    · rw [first, Nat.add_zero, marker]
    · exact zeros _ (by omega) (by omega)
  · rintro ⟨lt, same⟩
    rw [load_split (by omega) (length_fill (by decide) (by omega))] at same
    have first : pad len = 0x80 := same 0 (by omega)
    have later (i : Nat) (h : len < i) (top : i < n) : pad i = 0 := by
      have entry := same (i - len) (by omega)
      rwa [Nat.add_sub_of_le (Nat.le_of_lt h), getD_fill_iso7816 (by omega),
        if_neg (by omega)] at entry
    -- the scan stops at the marker: behind it all is zero, and it is not zero itself
    have stop : skipZeros pad (n - 1) = len := by
      rcases Nat.lt_trichotomy (skipZeros pad (n - 1)) len with low | same | high
      · have zero := zeros len low (by omega)
        rw [first] at zero
        exact absurd zero (by decide)
      · exact same
      · exact absurd (later _ high (by omega)) (nonzero (by omega))
    exact ⟨stop.symm, stop ▸ first⟩

theorem unPaddingPkcs_iff (pos : 0 < n) (small : n < 256) : unPaddingPkcs pad n = .ok len ↔
    len < n ∧ load pad 0 n = load pad 0 len ++ fill .pkcs7 (n - len) := by
  have byte := (pad (n - 1)).isLt
  have accepted : unPaddingPkcs pad n = .ok len ↔ len = n - (pad (n - 1)).toNat ∧
      0 < (pad (n - 1)).toNat ∧ (pad (n - 1)).toNat ≤ n ∧
        ∀ i < n, n - (pad (n - 1)).toNat ≤ i → pad i = pad (n - 1) := by
    have terms (i k : Nat) :
        ((pad i).toNat ^^^ (pad (n - 1)).toNat) * (if k ≤ i then 1 else 0) = 0 ↔
          (k ≤ i → pad i = pad (n - 1)) := by
      have zero : (pad i ^^^ pad (n - 1)).toNat = 0 ↔ pad i = pad (n - 1) :=
        (BitVec.toNat_inj (y := 0#8)).trans BitVec.xor_eq_zero_iff
      rw [Nat.mul_eq_zero, ← BitVec.toNat_xor, zero]
      by_cases at' : k ≤ i <;> simp [at']
    unfold unPaddingPkcs
    simp only [ne_eq, check_eq_zero, terms]
    by_cases good : 0 < (pad (n - 1)).toNat ∧ (pad (n - 1)).toNat ≤ n
    · have flag : ¬ ((pad (n - 1)).toNat = 0 ∨ n < (pad (n - 1)).toNat) := by omega
      simp only [if_neg flag, padPos_of_le good.2 (by omega : n < 2 ^ 32), good, true_and, ite_not]
      split_ifs with all
      · simp only [Except.ok.injEq, eq_comm]
        exact (and_iff_left all).symm
      · simp only [false_iff]
        exact fun h => all h.2
    · have flag : (pad (n - 1)).toNat = 0 ∨ n < (pad (n - 1)).toNat := by omega
      simp only [if_pos flag, Nat.one_ne_zero, false_and, not_false_eq_true, if_true, reduceCtorEq,
        false_iff]
      rintro ⟨-, h₁, h₂, -⟩
      exact good ⟨h₁, h₂⟩
  rw [accepted]
  constructor
  · rintro ⟨rfl, positive, le, same⟩
    refine ⟨by omega, (load_split (by omega) (length_fill (by decide) (by omega))).mpr ?_⟩
    intro i h
    rw [getD_fill_pkcs7 h, same _ (by omega) (by omega), Nat.sub_sub_self le, BitVec.ofNat_toNat,
      BitVec.setWidth_eq]
  · rintro ⟨lt, same⟩
    rw [load_split (by omega) (length_fill (by decide) (by omega))] at same
    have entry (i : Nat) (h : len ≤ i) (top : i < n) : pad i = BitVec.ofNat 8 (n - len) := by
      have at' := same (i - len) (by omega)
      rwa [Nat.add_sub_of_le h, getD_fill_pkcs7 (by omega)] at at'
    have last := entry (n - 1) (by omega) (by omega)
    have value : (pad (n - 1)).toNat = n - len := by
      rw [last, BitVec.toNat_ofNat]
      omega
    refine ⟨by omega, by omega, by omega, fun i hi h => ?_⟩
    rw [entry i (by omega) hi, last]

/-- The X.923 check also takes a block whose last byte is zero, as one without padding. -/
theorem unPaddingX923_iff (pos : 0 < n) (small : n < 256) : unPaddingX923 pad n = .ok len ↔
    (len < n ∧ load pad 0 n = load pad 0 len ++ fill .x923 (n - len)) ∨
      (len = n ∧ pad (n - 1) = 0) := by
  have byte := (pad (n - 1)).isLt
  have accepted : unPaddingX923 pad n = .ok len ↔ len = n - (pad (n - 1)).toNat ∧
      (pad (n - 1)).toNat ≤ n ∧ ∀ i < n - 1, n - (pad (n - 1)).toNat ≤ i → pad i = 0 := by
    have terms (i k : Nat) : (pad i).toNat * (if k ≤ i then 1 else 0) = 0 ↔
        (k ≤ i → pad i = 0) := by
      rw [Nat.mul_eq_zero, ← BitVec.toNat_inj]
      by_cases at' : k ≤ i <;> simp [at']
    unfold unPaddingX923
    simp only [ne_eq, check_eq_zero, terms]
    by_cases good : (pad (n - 1)).toNat ≤ n
    · have flag : ¬ n < (pad (n - 1)).toNat := by omega
      simp only [if_neg flag, padPos_of_le good (by omega : n < 2 ^ 32), good, true_and, ite_not]
      split_ifs with all
      · simp only [Except.ok.injEq, eq_comm]
        exact (and_iff_left all).symm
      · simp only [false_iff]
        exact fun h => all h.2
    · have flag : n < (pad (n - 1)).toNat := by omega
      simp only [if_pos flag, Nat.one_ne_zero, false_and, not_false_eq_true, if_true, reduceCtorEq,
        false_iff]
      rintro ⟨-, h, -⟩
      exact good h
  rw [accepted]
  constructor
  · rintro ⟨rfl, le, same⟩
    rcases Nat.eq_zero_or_pos (pad (n - 1)).toNat with zero | positive
    · exact Or.inr ⟨by omega, BitVec.toNat_inj.mp zero⟩
    · refine Or.inl ⟨by omega, (load_split (by omega) (length_fill (by decide) (by omega))).mpr ?_⟩
      intro i h
      rw [getD_fill_x923 h]
      split_ifs with last
      · have place : n - (pad (n - 1)).toNat + i = n - 1 := by omega
        rw [place, Nat.sub_sub_self le, BitVec.ofNat_toNat, BitVec.setWidth_eq]
      · exact same _ (by omega) (by omega)
  · rintro (⟨lt, same⟩ | ⟨rfl, zero⟩)
    · rw [load_split (by omega) (length_fill (by decide) (by omega))] at same
      have entry (i : Nat) (h : len ≤ i) (top : i < n) :
          pad i = if i = n - 1 then BitVec.ofNat 8 (n - len) else 0x00 := by
        have at' := same (i - len) (by omega)
        rw [Nat.add_sub_of_le h, getD_fill_x923 (by omega)] at at'
        rw [at']
        exact if_congr (by omega) rfl rfl
      have value : (pad (n - 1)).toNat = n - len := by
        rw [entry (n - 1) (by omega) (by omega), if_pos rfl, BitVec.toNat_ofNat]
        omega
      refine ⟨by omega, by omega, fun i hi h => ?_⟩
      rw [entry i (by omega) (by omega), if_neg (by omega)]
    · have value : (pad (len - 1)).toNat = 0 := by rw [zero]; rfl
      exact ⟨by omega, by omega, fun i hi h => absurd h (by omega)⟩

/-! ## Padding of the last block -/

def padded (padding : CryptPaddingType) (a : List Byte) : Option (List Byte) :=
  if padding = .none then if a.length % 16 = 0 then some a else none
  else some (a ++ fill padding (16 - a.length))

/-- What is left of the decrypted last block; when there is none, the check is not reached. -/
def unpadded (padding : CryptPaddingType) (b : List Byte) : Option (List Byte) :=
  if b = [] then some []
  else match modesBlockUnPadding padding (fun i => b.getD i 0) 16 b.length with
    | .ok len => some (b.take len)
    | .error _ => none

def blockPadding (padding : CryptPaddingType) : Padding Byte 16 where
  hold := padding ≠ .none
  pad := padded padding
  unpad := unpadded padding
  pad_block a b short made held := by
    have kind : padding ≠ .none := by simpa using held
    rw [padded, if_neg kind] at made
    obtain rfl := Option.some.inj made
    rw [List.length_append, length_fill kind (by omega)]
    omega
  pad_free a b short made free := by
    have kind : padding = .none := by simpa using free
    rw [padded, if_pos kind] at made
    split_ifs at made with whole
    exact ⟨(Option.some.inj made).symm, Nat.dvd_of_mod_eq_zero whole⟩
  unpad_nil := rfl

def Reversible (padding : CryptPaddingType) : Prop := padding ≠ .none ∧ padding ≠ .zeros

def Exact (padding : CryptPaddingType) : Prop := Reversible padding ∧ padding ≠ .x923

theorem load_getD (b : List Byte) {n : Nat} (h : b.length = n) :
    load (fun i => b.getD i 0) 0 n = b := by
  apply List.ext_getElem
  · rw [length_load, h]
  · intro i h₁ h₂
    simp [h₂]

theorem load_getD_take (b : List Byte) {len : Nat} (h : len ≤ b.length) :
    load (fun i => b.getD i 0) 0 len = b.take len := by
  apply List.ext_getElem
  · rw [length_load, List.length_take_of_le h]
  · intro i h₁ h₂
    have inside : i < b.length := by
      rw [length_load] at h₁
      omega
    simp [inside]

theorem unpadded_of_accepted {padding : CryptPaddingType} {a b : List Byte} (block : b.length = 16)
    {accepted : Nat → Prop}
    (accepts : ∀ len,
      modesBlockUnPadding padding (fun i => b.getD i 0) 16 16 = .ok len ↔ accepted len)
    (small : ∀ len, accepted len → len ≤ 16) :
    unpadded padding b = some a ↔ accepted a.length ∧ b.take a.length = a := by
  have some : b ≠ [] := by
    rintro rfl
    exact absurd block (by decide)
  rw [unpadded, if_neg some, block]
  constructor
  · intro h
    cases result : modesBlockUnPadding padding (fun i => b.getD i 0) 16 16 with
    | error e => simp only [result, reduceCtorEq] at h
    | ok len =>
      simp only [result, Option.some.injEq] at h
      have ok := (accepts len).mp result
      have length : a.length = len := by
        rw [← h, List.length_take_of_le (by have := small len ok; omega)]
      rw [length]
      exact ⟨ok, h⟩
  · rintro ⟨ok, take⟩
    simp only [(accepts _).mpr ok, take]

theorem unpadded_iff {padding : CryptPaddingType} (exact : Exact padding) {a b : List Byte}
    (block : b.length = 16) :
    unpadded padding b = some a ↔ a.length < 16 ∧ padded padding a = some b := by
  have accepts (len : Nat) : modesBlockUnPadding padding (fun i => b.getD i 0) 16 16 = .ok len ↔
      len < 16 ∧ b = load (fun i => b.getD i 0) 0 len ++ fill padding (16 - len) := by
    have whole := load_getD b block
    cases padding with
    | none => exact absurd rfl exact.1.1
    | zeros => exact absurd rfl exact.1.2
    | iso7816 =>
      have iff := @unPaddingIso7816_iff (fun i => b.getD i 0) 16 len (by decide)
      rwa [whole] at iff
    | x923 => exact absurd rfl exact.2
    | pkcs5 =>
      exact (unPaddingPkcs_iff (n := 16) (by decide) (by decide)).trans (by rw [whole]; rfl)
    | pkcs7 => exact (unPaddingPkcs_iff (n := 16) (by decide) (by decide)).trans (by rw [whole])
  rw [unpadded_of_accepted block accepts fun len h => Nat.le_of_lt h.1, padded,
    if_neg exact.1.1, Option.some.injEq, and_assoc]
  refine and_congr_right fun short => ?_
  rw [load_getD_take b (by omega)]
  constructor
  · rintro ⟨same, take⟩
    rw [take] at same
    exact same.symm
  · intro same
    have take : b.take a.length = a := by rw [← same, List.take_left']; rfl
    rw [take]
    exact ⟨same.symm, rfl⟩

theorem unpadded_padded {padding : CryptPaddingType} (reversible : Reversible padding)
    {a : List Byte} (short : a.length < 16) :
    (padded padding a).bind (unpadded padding) = some a := by
  have made : padded padding a = some (a ++ fill padding (16 - a.length)) := by
    rw [padded, if_neg reversible.1]
  have block : (a ++ fill padding (16 - a.length)).length = 16 := by
    rw [List.length_append, length_fill reversible.1 (by omega)]
    omega
  rw [made, Option.bind_some]
  by_cases kind : padding = .x923
  · subst kind
    have accepts (len : Nat) : modesBlockUnPadding .x923
        (fun i => (a ++ fill .x923 (16 - a.length)).getD i 0) 16 16 = .ok len ↔ _ :=
      unPaddingX923_iff (n := 16) (by decide) (by decide)
    refine (unpadded_of_accepted block accepts (by omega)).mpr
      ⟨Or.inl ⟨short, ?_⟩, List.take_left' rfl⟩
    rw [load_getD _ block, load_getD_take _ (by omega), List.take_left' rfl]
  · exact (unpadded_iff ⟨reversible, kind⟩ block).mpr ⟨short, made⟩

theorem unpadded_zeros {a : List Byte} (short : a.length < 16) :
    (padded .zeros a).bind (unpadded .zeros) = some (a ++ List.replicate (16 - a.length) 0) := by
  have some : a ++ fill .zeros (16 - a.length) ≠ [] := by
    intro none
    have length := congrArg List.length none
    rw [List.length_append, length_fill (by decide) (by omega), List.length_nil] at length
    omega
  rw [padded, if_neg (by decide), Option.bind_some, unpadded, if_neg some]
  simp only [modesBlockUnPadding, List.take_length]
  rfl

end SystemsLab.ModesPadding
