import SystemsLab.Eal.BlockMessages
import SystemsLab.Sm4.SetKey

/-! SM4 in the ECB and CBC modes through the cipher interface: what the calls for a message put out,
and that the calls for the other direction take it back. -/

namespace SystemsLab.EalSm4Blocks
open ByteWord Textbook Buffer CipherChaining StreamMachine BlockStream Sm4Portable Sm4PortableCbc
open Sm4OpenHitls Sm4SetKey EalCipher ModesPadding ModesBlockCrypt ModesCipherUpdate
open ModesBlockModes EalBlockMessages

/-! ## The block cipher -/

def keyCtx (key : Block) : CryptSm4Ctx :=
  ⟨Vector.replicate 16 0, sm4SetKey key (Vector.replicate 32 0)⟩

def sm4Enc (key b : Block) : Block :=
  cipher sm4RoundT (schedule sm4KeySub sm4Ck.toList (sm4SetKeyInit key)) b

theorem sm4Method_encryptBlock (key b : Block) :
    sm4Method.encryptBlock (keyCtx key) b = sm4Enc key b := by
  rw [sm4Enc, ← sm4SetKey_toList key (Vector.replicate 32 0)]
  exact sm4Crypt_eq b _ true

theorem sm4Method_inverse (key b : Block) :
    sm4Method.decryptBlock (keyCtx key) (sm4Method.encryptBlock (keyCtx key) b) = b := by
  show sm4Crypt (sm4Crypt b _ true) _ false = b
  rw [sm4Crypt_eq, sm4Crypt_eq]
  exact cipher_reverse _ _ _

theorem sm4Method_inverse' (key b : Block) :
    sm4Method.encryptBlock (keyCtx key) (sm4Method.decryptBlock (keyCtx key) b) = b := by
  show sm4Crypt (sm4Crypt b _ false) _ true = b
  rw [sm4Crypt_eq, sm4Crypt_eq]
  exact cipher_of_reverse _ _ _

/-! ## Messages -/

def sm4AlgId : BlockMode → CryptCipherAlgId
  | .ecb => .sm4Ecb
  | .cbc => .sm4Cbc

/-- A context of the algorithm, in whatever state, and the calls for a message with this key,
chaining value and text, on buffers that the mode can serve. -/
structure Carries (mode : BlockMode) (enc : Bool) (padding : CryptPaddingType) (key iv : Block)
    (text : List Byte) (ctx : CryptEalCipherCtx (ModesCipherCtx CryptSm4Ctx)) (msg : Message) :
    Prop where
  algId : ctx.ctx.algId = sm4AlgId mode
  key : ∃ p, msg.key = some p ∧ read 16 msg.mem p = key
  keyLen : msg.keyLen = 16
  iv : read 16 msg.mem msg.iv = iv
  text : msg.text = text
  fits : Fits mode enc padding ctx.ctx.dataAt msg

variable {mode : BlockMode} {enc : Bool} {padding : CryptPaddingType} {key iv : Block}
  {text : List Byte} {ctx ctx' : CryptEalCipherCtx (ModesCipherCtx CryptSm4Ctx)}
  {msg msg' : Message}

theorem setKey_eq (enc : Bool) (old : CryptSm4Ctx) (mem : Memory Byte) (p : Nat) :
    (if enc then sm4Method.setEncryptKey else sm4Method.setDecryptKey)
      (sm4Method.cipherDeInitCtx old) mem (some p) 16 = (cryptSuccess, keyCtx (read 16 mem p)) := by
  have both : (if enc then sm4Method.setEncryptKey else sm4Method.setDecryptKey) =
      cryptSm4SetKey := by
    cases enc <;> rfl
  rw [both, cryptSm4SetKey]
  simp only [ne_eq, not_true_eq_false, if_false,
    setRoundKeys_eq (read 16 mem p) _ (Vector.replicate 32 0)]
  rfl

theorem Carries.keyed (h : Carries mode enc padding key iv text ctx msg) :
    Keyed sm4Method enc ctx msg (keyCtx key) := by
  obtain ⟨p, given, bytes⟩ := h.key
  rw [Keyed, given, h.keyLen, setKey_eq, bytes]

theorem stream_flatten (pieces : List (List Byte)) :
    stream sm4Method mode enc padding (keyCtx key) iv pieces =
      stream sm4Method mode enc padding (keyCtx key) iv [pieces.flatten] := by
  cases enc with
  | true =>
    simp only [stream, if_true]
    rw [encrypt_eq _ _ (by decide), encrypt_eq _ _ (by decide), List.flatten_singleton]
  | false =>
    simp only [stream, Bool.false_eq_true, if_false]
    rw [decrypt_eq _ _ (by decide), decrypt_eq _ _ (by decide), List.flatten_singleton]

theorem Carries.process_eq (h : Carries mode enc padding key iv text ctx msg) :
    msg.process (mode.method sm4Method) ctx enc =
      stream sm4Method mode enc padding (keyCtx key) iv [text] := by
  have kind : ifXts ctx.ctx.algId = false := by
    rw [h.algId]
    cases mode <;> rfl
  have whole : (msg.updates.map UpdateCall.piece).flatten = text := h.text
  rw [EalBlockMessages.process_eq sm4Method mode kind h.keyed h.fits, h.iv, stream_flatten, whole]

def sampleMem : Memory Byte := fun a => BitVec.ofNat 8 a

def sampleCalls (mem : Memory Byte) (inp : Nat) : List Nat → List UpdateCall
  | [] => []
  | len :: rest => ⟨mem, inp, len, 1000, 64⟩ :: sampleCalls mem (inp + len) rest

def sample (padding : CryptPaddingType) (mem : Memory Byte) (lens : List Nat) : Message where
  mem := mem
  key := some 0
  keyLen := 16
  iv := 16
  ivLen := 16
  padding := some (paddingCode padding)
  updates := sampleCalls mem 32 lens
  finalMem := mem
  finalOut := 1000
  finalOutLen := 16

def sampleCtx (mode : BlockMode) : CryptEalCipherCtx (ModesCipherCtx CryptSm4Ctx) where
  states := .final
  ctx := {
    commonCtx := ⟨keyCtx (Vector.replicate 16 1), Vector.replicate 16 2, 0, 0⟩
    algId := sm4AlgId mode
    data := fun _ => 3
    dataAt := 0
    dataLen := 7
    pad := .zeros
    enc := true }

theorem sampleCalls_fit (mode : BlockMode) (enc hold : Bool) (mem : Memory Byte) {inp waiting : Nat}
    {lens : List Nat} (few : waiting ≤ 16) (above : 32 ≤ inp) (fits : inp + lens.sum ≤ 80) :
    AllFit (mode.serves enc) 0 hold waiting (sampleCalls mem inp lens) := by
  induction lens generalizing inp waiting with
  | nil => trivial
  | cons len rest ih =>
    rw [List.sum_cons] at fits
    have le := kept_le_unit (by decide : 0 < 16) hold (waiting + len)
    refine ⟨⟨?_, ?_, ?_, ?_, ?_⟩, ih le (by omega) (by omega)⟩
    · show len + waiting < 2 ^ 32
      omega
    · show (len + waiting) / 16 * 16 ≤ 64
      omega
    · show mode.serves enc inp (1000 + waiting) len
      cases mode <;> cases enc <;> simp only [BlockMode.serves, Clear, CbcServes] <;> omega
    · show 1000 + waiting ≤ inp ∨ inp + len ≤ 1000
      omega
    · show 0 ≠ 1000
      decide

theorem sampleCalls_text (mem : Memory Byte) (inp : Nat) (lens : List Nat) :
    ((sampleCalls mem inp lens).map UpdateCall.piece).flatten = load mem inp lens.sum := by
  induction lens generalizing inp with
  | nil => rfl
  | cons len rest ih =>
    rw [sampleCalls, List.map_cons, List.flatten_cons, ih, List.sum_cons, load_add]
    rfl

theorem sample_carries (mode : BlockMode) (enc : Bool) (padding : CryptPaddingType)
    (mem : Memory Byte) {lens : List Nat} (fits : lens.sum ≤ 48) :
    Carries mode enc padding (read 16 mem 0) (read 16 mem 16) (load mem 32 lens.sum)
      (sampleCtx mode) (sample padding mem lens) where
  algId := rfl
  key := ⟨0, rfl, rfl⟩
  keyLen := rfl
  iv := rfl
  text := sampleCalls_text mem 32 lens
  fits := ⟨rfl, Or.inl rfl, sampleCalls_fit mode enc _ mem (by decide) (Nat.le_refl 32) (by omega),
    Nat.le_refl 16, (by decide : 0 ≠ 1000)⟩

/-- How the text is cut into updates, which buffers they use and what the context was used for
before make no difference, in either direction. -/
theorem process_cut (h : Carries mode enc padding key iv text ctx msg)
    (h' : Carries mode enc padding key iv text ctx' msg') :
    msg.process (mode.method sm4Method) ctx enc =
      msg'.process (mode.method sm4Method) ctx' enc := by
  rw [h.process_eq, h'.process_eq]

theorem process_cut_two_and_three :
    (sample .pkcs7 sampleMem [5, 15]).process (BlockMode.cbc.method sm4Method)
        (sampleCtx .cbc) true =
      (sample .pkcs7 sampleMem [16, 0, 4]).process
        (BlockMode.cbc.method sm4Method) (sampleCtx .cbc) true :=
  process_cut (sample_carries .cbc true .pkcs7 _ (by decide : [5, 15].sum ≤ 48))
    (sample_carries .cbc true .pkcs7 _ (by decide : [16, 0, 4].sum ≤ 48))

/-! ## The ciphertext -/

/-- The text with the padding of its last block; whole blocks stay as they are without padding. -/
def paddedText (padding : CryptPaddingType) (text : List Byte) : List Byte :=
  text ++ fill padding (16 - text.length % 16)

def cipherBlock (mode : BlockMode) (key iv : Block) (plain : Nat → Block) (i : Nat) : Block :=
  match mode with
  | .ecb => sm4Enc key (plain i)
  | .cbc => chain sm4XorBlock (sm4Enc key) plain iv (i + 1)

theorem padded_rest (padding : CryptPaddingType) (text : List Byte) :
    (padded padding (rest 16 text)).map (fun tail => front 16 text ++ tail) =
      if padding = .none ∧ text.length % 16 ≠ 0 then none else some (paddedText padding text) := by
  have length := length_rest (n := 16) text
  rw [padded, length, Nat.mod_mod]
  by_cases none : padding = .none
  · subst none
    by_cases whole : text.length % 16 = 0
    · rw [if_pos rfl, if_pos whole, if_neg (by simp [whole]), Option.map_some,
        front_append_rest, paddedText, fill, List.append_nil]
    · rw [if_pos rfl, if_neg whole, if_pos ⟨rfl, whole⟩, Option.map_none]
  · rw [if_neg none, if_neg (by simp [none]), Option.map_some, ← List.append_assoc,
      front_append_rest, paddedText]

theorem dvd_length_paddedText (h : ¬ (padding = .none ∧ text.length % 16 ≠ 0)) :
    16 ∣ (paddedText padding text).length := by
  rw [paddedText, List.length_append]
  by_cases none : padding = .none
  · have whole : text.length % 16 = 0 := by_contra fun part => h ⟨none, part⟩
    rw [none, fill, List.length_nil]
    omega
  · rw [length_fill none (by omega)]
    omega

theorem stream_encrypt (mode : BlockMode) (padding : CryptPaddingType) (key iv : Block)
    (text : List Byte) : stream sm4Method mode true padding (keyCtx key) iv [text] =
      if padding = .none ∧ text.length % 16 ≠ 0 then none
      else some ((mode.machine sm4Method true (keyCtx key)).feed (mode.start iv)
        (paddedText padding text)).1 := by
  have bytes : stream sm4Method mode true padding (keyCtx key) iv [text] =
      ((padded padding (rest 16 text)).map fun tail => front 16 text ++ tail).map fun all =>
        ((mode.machine sm4Method true (keyCtx key)).feed (mode.start iv) all).1 := by
    rw [stream, if_pos rfl, encrypt_eq _ _ (by decide), List.flatten_singleton, Option.map_map]
    rfl
  rw [bytes, padded_rest]
  split_ifs <;> rfl

theorem Carries.encrypted (h : Carries mode true padding key iv text ctx msg) :
    msg.process (mode.method sm4Method) ctx true =
      if padding = .none ∧ text.length % 16 ≠ 0 then none
      else some ((mode.machine sm4Method true (keyCtx key)).feed (mode.start iv)
        (paddedText padding text)).1 := by
  rw [h.process_eq, stream_encrypt]

theorem machine_blocks (mode : BlockMode) (key iv : Block) {a : List Byte} {i : Nat}
    (h : i < a.length / 16) :
    blockAt ((mode.machine sm4Method true (keyCtx key)).feed (mode.start iv) a).1 i =
      cipherBlock mode key iv (blockAt a) i := by
  have same : sm4Method.encryptBlock (keyCtx key) = sm4Enc key := by
    funext b
    exact sm4Method_encryptBlock key b
  cases mode with
  | ecb => exact (ecbMachine_blocks _ _ h).trans (sm4Method_encryptBlock key _)
  | cbc =>
    refine (cbcEncMachine_blocks _ _ h).trans ?_
    rw [same]
    rfl

/-- Encryption computes the textbook's blocks of the padded text, and refuses a part of a block
without padding. -/
theorem process_textbook (h : Carries mode true padding key iv text ctx msg) :
    if padding = .none ∧ text.length % 16 ≠ 0 then
      msg.process (mode.method sm4Method) ctx true = none
    else ∃ c, msg.process (mode.method sm4Method) ctx true = some c ∧
      c.length = (paddedText padding text).length ∧
      ∀ i < c.length / 16,
        blockAt c i = cipherBlock mode key iv (blockAt (paddedText padding text)) i := by
  have made := h.encrypted
  split_ifs at made ⊢ with refused
  · exact made
  · have whole := dvd_length_paddedText refused
    refine ⟨_, made, Transducer.length_feed _ _ _ whole, fun i hi => ?_⟩
    rw [Transducer.length_feed _ _ _ whole] at hi
    exact machine_blocks mode key iv hi

theorem process_textbook_twenty_bytes :
    ∃ c, (sample .pkcs7 sampleMem [5, 15]).process
        (BlockMode.cbc.method sm4Method) (sampleCtx .cbc) true = some c ∧
      c.length = 32 ∧ ∀ i < c.length / 16, blockAt c i =
        cipherBlock .cbc (read 16 sampleMem 0)
          (read 16 sampleMem 16)
          (blockAt (paddedText .pkcs7 (load sampleMem 32 20))) i :=
  process_textbook (sample_carries .cbc true .pkcs7 _ (by decide : [5, 15].sum ≤ 48))

/-! ## Back again -/

/-- What decryption makes of an encrypted text: zeros that were added cannot be told from it. -/
def returned (padding : CryptPaddingType) (text : List Byte) : List Byte :=
  if padding = .zeros then paddedText .zeros text else text

/-- A message encrypted in any number of updates, by any context, comes back from the decryption of
its ciphertext in any number of updates, by any other context. -/
theorem process_back {cipher : List Byte} (h : Carries mode true padding key iv text ctx msg)
    (h' : Carries mode false padding key iv cipher ctx' msg')
    (made : msg.process (mode.method sm4Method) ctx true = some cipher) :
    msg'.process (mode.method sm4Method) ctx' false = some (returned padding text) := by
  rw [h.process_eq] at made
  rw [h'.process_eq]
  have inverse := mode.machine_inverse sm4Method (sm4Method_inverse key)
  have one (a : List Byte) : [a].flatten = a := List.flatten_singleton
  simp only [stream, if_true, Bool.false_eq_true, if_false] at made ⊢
  by_cases none : padding = .none
  · subst none
    rw [decrypt_encrypt_free (by decide) inverse rfl _ (one text) (one cipher) made]
    rfl
  · have held : (blockPadding padding).hold = true := by simpa [blockPadding] using none
    rw [decrypt_encrypt (by decide) inverse held _ (one text) (one cipher) made]
    have short : (rest 16 text).length < 16 := by
      rw [length_rest]
      exact Nat.mod_lt _ (by decide)
    by_cases zeros : padding = .zeros
    · subst zeros
      have back : ((blockPadding .zeros).pad (rest 16 text)).bind (blockPadding .zeros).unpad = _ :=
        unpadded_zeros short
      rw [back, length_rest, Option.map_some, ← List.append_assoc, front_append_rest]
      rfl
    · have back : ((blockPadding padding).pad (rest 16 text)).bind (blockPadding padding).unpad =
          _ :=
        unpadded_padded ⟨none, zeros⟩ short
      rw [back, Option.map_some, front_append_rest, returned, if_neg zeros]

theorem process_back_twenty_bytes :
    ((sample .x923 sampleMem [5, 15]).process (BlockMode.cbc.method sm4Method)
        (sampleCtx .cbc) true).bind (fun cipher =>
      (sample .x923 (store sampleMem 32 cipher) [7, 9, 16]).process
        (BlockMode.cbc.method sm4Method) (sampleCtx .cbc) false) =
      some (load sampleMem 32 20) := by
  have there := sample_carries .cbc true .x923 sampleMem
    (by decide : [5, 15].sum ≤ 48)
  have made := there.encrypted
  rw [if_neg (by decide)] at made
  rw [made, Option.bind_some]
  obtain ⟨cipher, hc⟩ : ∃ cipher, cipher = ((BlockMode.cbc.machine sm4Method true (keyCtx
    (read 16 sampleMem 0))).feed (BlockMode.cbc.start
    (read 16 sampleMem 16)) (paddedText .x923
    (load sampleMem 32 [5, 15].sum))).1 := ⟨_, rfl⟩
  rw [← hc] at made ⊢
  have length : cipher.length = 32 := by
    rw [hc, Transducer.length_feed _ _ _ (by decide)]
    rfl
  have back := sample_carries .cbc false .x923 (store sampleMem 32 cipher)
    (by decide : [7, 9, 16].sum ≤ 48)
  have bytes : load (store sampleMem 32 cipher) 32 [7, 9, 16].sum = cipher :=
    load_store _ _ _ length
  have apart (p : Nat) (low : p + 16 ≤ 32) :
      read 16 (store sampleMem 32 cipher) p =
        read 16 sampleMem p :=
    read_congr fun i hi => store_of_not_mem _ _ _ _ (by omega)
  rw [bytes, apart 0 (by decide), apart 16 (by decide)] at back
  exact process_back there back made

/-- With PKCS or ISO padding, decryption accepts a ciphertext exactly when it is the encryption of
the text that comes out. -/
theorem process_accepts {cipher : List Byte} (exact : Exact padding) (some : cipher ≠ [])
    (h : Carries mode true padding key iv text ctx msg)
    (h' : Carries mode false padding key iv cipher ctx' msg') :
    msg'.process (mode.method sm4Method) ctx' false = .some text ↔
      msg.process (mode.method sm4Method) ctx true = .some cipher := by
  rw [h.process_eq, h'.process_eq]
  have one (a : List Byte) : [a].flatten = a := List.flatten_singleton
  have held : (blockPadding padding).hold = true := by simpa [blockPadding] using exact.1.1
  simp only [stream, if_true, Bool.false_eq_true, if_false]
  exact decrypt_iff (by decide) (mode.machine_inverse sm4Method (sm4Method_inverse key))
    (mode.machine_inverse' sm4Method (sm4Method_inverse' key)) held
    (fun a b block => unpadded_iff exact block) _ (one text) (one cipher) some

theorem process_accepts_zeros :
    (sample .pkcs7 (fun _ => 0) [16]).process (BlockMode.cbc.method sm4Method) (sampleCtx .cbc)
        false = some (load (fun _ => 0) 32 5) ↔
      (sample .pkcs7 (fun _ => 0) [2, 3]).process (BlockMode.cbc.method sm4Method) (sampleCtx .cbc)
        true = some (load (fun _ => 0) 32 16) :=
  process_accepts ⟨⟨by decide, by decide⟩, by decide⟩ (by decide)
    (sample_carries .cbc true .pkcs7 _ (by decide : [2, 3].sum ≤ 48))
    (sample_carries .cbc false .pkcs7 _ (by decide : [16].sum ≤ 48))

end SystemsLab.EalSm4Blocks
