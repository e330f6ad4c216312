import SystemsLab.Sm4.Portable
import SystemsLab.General.CipherChaining

/-! CBC mode of the portable header. Both functions work on a memory, so a call
may be made in place; they update the chaining value that the caller passed. -/

namespace SystemsLab.Sm4PortableCbc
open ByteWord Textbook Sm4Portable CountedLoop Buffer CipherChaining

def sm4XorBlock (a b : Block) : Block := Vector.ofFn fun i => a[i] ^^^ b[i]

structure CbcResult where
  mem : Memory Byte
  iv : Block
  ret : Int

def sm4CbcEncrypt (mem : Memory Byte) (inp out len : Nat) (ks : RoundKeys) (iv : Block) :
    CbcResult :=
  if len % 16 ≠ 0 then ⟨mem, iv, 0⟩
  else
    let st : Progress Byte 16 := forLoop 0 len 16 (fun i st =>
      let block := sm4XorBlock (read 16 st.mem (inp + i)) st.iv
      let mem := write st.mem (out + i) (sm4EncryptBlock block ks)
      ⟨mem, read 16 mem (out + i)⟩) ⟨mem, iv⟩
    ⟨st.mem, st.iv, 1⟩

def sm4CbcDecrypt (mem : Memory Byte) (inp out len : Nat) (ks : RoundKeys) (iv : Block) :
    CbcResult :=
  if len % 16 ≠ 0 then ⟨mem, iv, 0⟩
  else
    let st : Progress Byte 16 := forLoop 0 len 16 (fun i st =>
      let prev := read 16 st.mem (inp + i)
      let block := sm4DecryptBlock (read 16 st.mem (inp + i)) ks
      ⟨write st.mem (out + i) (sm4XorBlock block st.iv), prev⟩) ⟨mem, iv⟩
    ⟨st.mem, st.iv, 1⟩

theorem sm4XorBlock_cancel (a t : Block) : sm4XorBlock (sm4XorBlock a t) t = a := by
  apply Vector.ext
  intro i hi
  simp only [sm4XorBlock, Vector.getElem_ofFn, Fin.getElem_fin]
  exact xor_cancel a[i] t[i]

def cbcCipher (ks : RoundKeys) (plain : Nat → Block) (iv : Block) (k : Nat) : Block :=
  chain sm4XorBlock (sm4EncryptBlock · ks) plain iv k

def cbcPlain (ks : RoundKeys) (cipher : Nat → Block) (iv : Block) (k : Nat) : Block :=
  unchain sm4XorBlock (sm4DecryptBlock · ks) cipher iv k

/-- What a CBC call leaves behind: the blocks it wrote, its chaining value, its
return value, and a memory changed nowhere outside the output buffer. -/
structure CbcDone (mem : Memory Byte) (out count : Nat) (written : Nat → Block) (iv : Block)
    (r : CbcResult) : Prop where
  blocks : ∀ k < count, blocksAt r.mem out k = written k
  iv : r.iv = iv
  ret : r.ret = 1
  frame : ∀ a, a < out ∨ out + 16 * count ≤ a → r.mem a = mem a

variable {inp out count : Nat} (apart : SameOrApart inp out (16 * count)) (mem : Memory Byte)
  (ks : RoundKeys) (iv : Block)

include apart in
theorem sm4CbcEncrypt_done :
    CbcDone mem out count (fun k => cbcCipher ks (blocksAt mem inp) iv (k + 1))
      (cbcCipher ks (blocksAt mem inp) iv count)
      (sm4CbcEncrypt mem inp out (16 * count) ks iv) := by
  have after := encryptLoop_after sm4XorBlock (sm4EncryptBlock · ks) apart mem (by decide) iv
  rw [sm4CbcEncrypt, if_neg (by omega)]
  exact ⟨after.done, after.iv, rfl, after.frame⟩

include apart in
theorem sm4CbcDecrypt_done :
    CbcDone mem out count (cbcPlain ks (blocksAt mem inp) iv)
      (previous (blocksAt mem inp) iv count) (sm4CbcDecrypt mem inp out (16 * count) ks iv) := by
  have after := decryptLoop_after sm4XorBlock (sm4DecryptBlock · ks) apart mem (by decide) iv
  rw [sm4CbcDecrypt, if_neg (by omega)]
  exact ⟨after.done, after.iv, rfl, after.frame⟩

theorem cbcPlain_cbcCipher (plain : Nat → Block) (k : Nat) :
    cbcPlain ks (fun j => cbcCipher ks plain iv (j + 1)) iv k = plain k :=
  unchain_chain sm4XorBlock (sm4EncryptBlock · ks) (sm4DecryptBlock · ks) sm4XorBlock_cancel
    (fun b => sm4DecryptBlock_sm4EncryptBlock b ks) plain iv k

theorem cbcCipher_cbcPlain (cipher : Nat → Block) (k : Nat) :
    cbcCipher ks (cbcPlain ks cipher iv) iv k = previous cipher iv k :=
  chain_unchain sm4XorBlock (sm4EncryptBlock · ks) (sm4DecryptBlock · ks) sm4XorBlock_cancel
    (fun b => sm4EncryptBlock_sm4DecryptBlock b ks) cipher iv k

def lastBlock (mem : Memory Byte) (p len : Nat) (iv : Block) : Block :=
  if len = 0 then iv else read 16 mem (p + (len - 16))

theorem previous_blocksAt (p : Nat) :
    previous (blocksAt mem p) iv count = lastBlock mem p (16 * count) iv := by
  cases count with
  | zero => rfl
  | succ count => rw [lastBlock, if_neg (by omega), previous, blocksAt, Nat.mul_succ,
      Nat.add_sub_cancel]

theorem CbcDone.last {written : Nat → Block} {value : Block} {r : CbcResult}
    (h : CbcDone mem out count written value r) :
    lastBlock r.mem out (16 * count) iv = previous written iv count := by
  rw [← previous_blocksAt, previous_congr iv count h.blocks]

include apart in
theorem sm4CbcDecrypt_sm4CbcEncrypt {mid : Nat} (next : SameOrApart out mid (16 * count)) :
    let e := sm4CbcEncrypt mem inp out (16 * count) ks iv
    let d := sm4CbcDecrypt e.mem out mid (16 * count) ks iv
    e.ret = 1 ∧ d.ret = 1 ∧ (∀ i < 16 * count, d.mem (mid + i) = mem (inp + i)) ∧
      e.iv = lastBlock e.mem out (16 * count) iv ∧ d.iv = e.iv := by
  intro e d
  have encrypted := sm4CbcEncrypt_done apart mem ks iv
  have decrypted := sm4CbcDecrypt_done next e.mem ks iv
  have value : lastBlock e.mem out (16 * count) iv = e.iv := by
    rw [encrypted.last, encrypted.iv]
    exact previous_chain _ _ _ _ _
  refine ⟨encrypted.ret, decrypted.ret, agree_of_blocks (by decide) fun k hk => ?_, value.symm, ?_⟩
  · refine (decrypted.blocks k hk).trans ?_
    have written : cbcPlain ks (blocksAt e.mem out) iv k =
        cbcPlain ks (fun j => cbcCipher ks (blocksAt mem inp) iv (j + 1)) iv k := by
      rw [cbcPlain, unchain, encrypted.blocks k hk,
        previous_congr iv k fun j hj => encrypted.blocks j (by omega)]
      rfl
    rw [written, cbcPlain_cbcCipher]
    rfl
  · rw [decrypted.iv, previous_blocksAt, value]

include apart in
theorem sm4CbcEncrypt_sm4CbcDecrypt {mid : Nat} (next : SameOrApart out mid (16 * count)) :
    let d := sm4CbcDecrypt mem inp out (16 * count) ks iv
    let e := sm4CbcEncrypt d.mem out mid (16 * count) ks iv
    d.ret = 1 ∧ e.ret = 1 ∧ (∀ i < 16 * count, e.mem (mid + i) = mem (inp + i)) ∧
      d.iv = lastBlock mem inp (16 * count) iv ∧ e.iv = d.iv := by
  intro d e
  have decrypted := sm4CbcDecrypt_done apart mem ks iv
  have encrypted := sm4CbcEncrypt_done next d.mem ks iv
  have chained (k : Nat) (hk : k ≤ count) :
      cbcCipher ks (blocksAt d.mem out) iv k = previous (blocksAt mem inp) iv k := by
    rw [← cbcCipher_cbcPlain]
    exact chain_congr _ _ iv k fun j hj => decrypted.blocks j (by omega)
  refine ⟨decrypted.ret, encrypted.ret, agree_of_blocks (by decide) fun k hk => ?_, ?_, ?_⟩
  · refine (encrypted.blocks k hk).trans ?_
    rw [chained (k + 1) hk]
    rfl
  · rw [decrypted.iv, previous_blocksAt]
  · rw [encrypted.iv, chained count (Nat.le_refl count), decrypted.iv]

/-- For every key array, `iv` and message of whole blocks, decrypting an encryption and
encrypting a decryption give the message back, from buffers that coincide or do not
meet; each call leaves the last ciphertext block in `iv`, or `iv` itself if there is none. -/
theorem sm4Cbc_round_trips (mem : Memory Byte) (inp mid out len : Nat) (ks : RoundKeys) (iv : Block)
    (whole : len % 16 = 0) (first : SameOrApart inp mid len) (second : SameOrApart mid out len) :
    (let e := sm4CbcEncrypt mem inp mid len ks iv
     let d := sm4CbcDecrypt e.mem mid out len ks iv
     e.ret = 1 ∧ d.ret = 1 ∧ (∀ i < len, d.mem (out + i) = mem (inp + i)) ∧
       e.iv = lastBlock e.mem mid len iv ∧ d.iv = e.iv) ∧
    (let d := sm4CbcDecrypt mem inp mid len ks iv
     let e := sm4CbcEncrypt d.mem mid out len ks iv
     d.ret = 1 ∧ e.ret = 1 ∧ (∀ i < len, e.mem (out + i) = mem (inp + i)) ∧
       d.iv = lastBlock mem inp len iv ∧ e.iv = d.iv) := by
  obtain ⟨count, rfl⟩ : ∃ count, len = 16 * count := ⟨len / 16, by omega⟩
  exact ⟨sm4CbcDecrypt_sm4CbcEncrypt first mem ks iv second,
    sm4CbcEncrypt_sm4CbcDecrypt first mem ks iv second⟩

theorem sm4Cbc_round_trips_two_blocks :
    let ks := sm4SetKey (Vector.replicate 16 0) (Vector.replicate 32 0)
    let e := sm4CbcEncrypt (fun a => BitVec.ofNat 8 a) 0 0 32 ks (Vector.replicate 16 1)
    let d := sm4CbcDecrypt e.mem 0 32 32 ks (Vector.replicate 16 1)
    (∀ i < 32, d.mem (32 + i) = BitVec.ofNat 8 (0 + i)) ∧ d.iv = read 16 e.mem 16 := by
  intro ks e d
  obtain ⟨-, -, same, last, iv⟩ := (sm4Cbc_round_trips (fun a => BitVec.ofNat 8 a) 0 0 32 32 ks
    (Vector.replicate 16 1) (by decide) (Or.inl rfl) (Or.inr (Or.inl (by decide)))).1
  exact ⟨same, iv.trans last⟩

/-! ## One message in several calls -/

/-- What both functions do with the buffers they are given: a message of whole blocks may be
passed in two calls, and in place or into another buffer; other lengths are refused. -/
structure CbcLaws (call : Memory Byte → Nat → Nat → Nat → Block → CbcResult) : Prop where
  split : ∀ mem inp out m n iv, m % 16 = 0 → n % 16 = 0 →
    let first := call mem inp out m iv
    call first.mem (inp + m) (out + m) n first.iv = call mem inp out (m + n) iv
  inPlace : ∀ mem inp out len iv, len % 16 = 0 → (inp + len ≤ out ∨ out + len ≤ inp) →
    let same := call mem inp inp len iv
    let other := call mem inp out len iv
    (∀ i < len, same.mem (inp + i) = other.mem (out + i)) ∧ same.iv = other.iv
  refused : ∀ mem inp out len iv, len % 16 ≠ 0 → call mem inp out len iv = ⟨mem, iv, 0⟩

theorem forLoop_blocks {σ : Type*} {m n : Nat} (hm : m % 16 = 0) (body : Nat → σ → σ) (s : σ) :
    forLoop 0 (m + n) 16 body s =
      forLoop 0 n 16 (fun i => body (m + i)) (forLoop 0 m 16 body s) := by
  have blocks : 0 + 16 * (m / 16) = m := by omega
  have inside : 0 + 16 * (m / 16) ≤ m + n := by omega
  rw [forLoop_append (by decide) (m / 16) inside, blocks, ← forLoop_add_left 0 n 16 m,
    Nat.add_zero]

theorem sm4CbcEncrypt_split (mem : Memory Byte) (inp out m n : Nat) (ks : RoundKeys) (iv : Block)
    (hm : m % 16 = 0) (hn : n % 16 = 0) :
    let first := sm4CbcEncrypt mem inp out m ks iv
    sm4CbcEncrypt first.mem (inp + m) (out + m) n ks first.iv =
      sm4CbcEncrypt mem inp out (m + n) ks iv := by
  have whole : (m + n) % 16 = 0 := by omega
  simp only [sm4CbcEncrypt, hm, hn, whole, forLoop_blocks hm, Nat.add_assoc, ne_eq,
    not_true_eq_false, if_false]

theorem sm4CbcDecrypt_split (mem : Memory Byte) (inp out m n : Nat) (ks : RoundKeys) (iv : Block)
    (hm : m % 16 = 0) (hn : n % 16 = 0) :
    let first := sm4CbcDecrypt mem inp out m ks iv
    sm4CbcDecrypt first.mem (inp + m) (out + m) n ks first.iv =
      sm4CbcDecrypt mem inp out (m + n) ks iv := by
  have whole : (m + n) % 16 = 0 := by omega
  simp only [sm4CbcDecrypt, hm, hn, whole, forLoop_blocks hm, Nat.add_assoc, ne_eq,
    not_true_eq_false, if_false]

theorem CbcDone.agree {start start' : Memory Byte} {out' len : Nat} {written : Nat → Block}
    {value : Block} {r r' : CbcResult} (h : CbcDone start out count written value r)
    (h' : CbcDone start' out' count written value r') (whole : len = 16 * count) :
    (∀ i < len, r.mem (out + i) = r'.mem (out' + i)) ∧ r.iv = r'.iv := by
  subst whole
  have blocks (k : Nat) (hk : k < count) :
      read 16 r.mem (out + 16 * k) = read 16 r'.mem (out' + 16 * k) :=
    (h.blocks k hk).trans (h'.blocks k hk).symm
  exact ⟨agree_of_blocks (by decide) blocks, h.iv.trans h'.iv.symm⟩

theorem sm4CbcEncrypt_laws (ks : RoundKeys) :
    CbcLaws fun mem inp out len iv => sm4CbcEncrypt mem inp out len ks iv where
  split mem inp out m n iv := sm4CbcEncrypt_split mem inp out m n ks iv
  inPlace mem inp out len iv whole apart := by
    obtain ⟨count, rfl⟩ : ∃ count, len = 16 * count := ⟨len / 16, by omega⟩
    have same := sm4CbcEncrypt_done (Or.inl rfl : SameOrApart inp inp (16 * count)) mem ks iv
    exact same.agree (sm4CbcEncrypt_done (Or.inr apart) mem ks iv) rfl
  refused mem inp out len iv uneven := by rw [sm4CbcEncrypt, if_pos uneven]

theorem sm4CbcDecrypt_laws (ks : RoundKeys) :
    CbcLaws fun mem inp out len iv => sm4CbcDecrypt mem inp out len ks iv where
  split mem inp out m n iv := sm4CbcDecrypt_split mem inp out m n ks iv
  inPlace mem inp out len iv whole apart := by
    obtain ⟨count, rfl⟩ : ∃ count, len = 16 * count := ⟨len / 16, by omega⟩
    have same := sm4CbcDecrypt_done (Or.inl rfl : SameOrApart inp inp (16 * count)) mem ks iv
    exact same.agree (sm4CbcDecrypt_done (Or.inr apart) mem ks iv) rfl
  refused mem inp out len iv uneven := by rw [sm4CbcDecrypt, if_pos uneven]

theorem sm4Cbc_laws (ks : RoundKeys) :
    CbcLaws (fun mem inp out len iv => sm4CbcEncrypt mem inp out len ks iv) ∧
      CbcLaws fun mem inp out len iv => sm4CbcDecrypt mem inp out len ks iv :=
  ⟨sm4CbcEncrypt_laws ks, sm4CbcDecrypt_laws ks⟩

/-- A message with a partial block is refused in one call, while the first of two calls takes its
whole blocks: 17 bytes, cut after 16. -/
theorem sm4Cbc_split_partial :
    let mem : Memory Byte := fun _ => 0
    let ks : RoundKeys := Vector.replicate 32 0
    let first := sm4CbcEncrypt mem 0 32 16 ks (Vector.replicate 16 0)
    (sm4CbcEncrypt first.mem 16 48 1 ks first.iv).iv ≠
      (sm4CbcEncrypt mem 0 32 (16 + 1) ks (Vector.replicate 16 0)).iv := by
  decide +kernel

end SystemsLab.Sm4PortableCbc
