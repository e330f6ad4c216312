import SystemsLab.Eal.Sm4Blocks
import SystemsLab.Sm4.PaddingCheck
import SystemsLab.Sm4.ThreadDecrypt

/-! The demo of openHiTLS from end to end (`sm4cbc_origin.c`): a message is encrypted with one
context, the threads decrypt its ciphertext with contexts of their own, and the check at
the end looks at what they left. Under every schedule the message comes back. -/

namespace SystemsLab.EalDemo
open ByteWord Textbook Buffer CipherChaining StepRuns StreamMachine BlockStream Sm4Portable
open Sm4PortableCbc Sm4OpenHitls Sm4SetKey EalCipher ModesPadding ModesBlockCrypt
open ModesCipherUpdate ModesBlockModes EalBlockMessages EalSm4Blocks ThreadDecrypt PaddingCheck

abbrev Sm4CbcCtx := CryptEalCipherCtx (ModesCipherCtx CryptSm4Ctx)

abbrev sm4Cbc : EalCipherMethod (ModesCipherCtx CryptSm4Ctx) := BlockMode.cbc.method sm4Method

def sm4CbcNewCtx (dataAt : Nat) : Sm4CbcCtx :=
  ⟨.new, modesCipherNewCtx .sm4Cbc ⟨Vector.replicate 16 0, Vector.replicate 32 0⟩ 0 0 dataAt⟩

/-! ## The calls of a thread -/

def sm4Dec (key b : Block) : Block := sm4Method.decryptBlock (keyCtx key) b

structure Fresh (ctx : Sm4CbcCtx) (key iv : Block) (dataAt : Nat) : Prop where
  states : ctx.states = .init
  ciphCtx : ctx.ctx.commonCtx.ciphCtx = keyCtx key
  iv : ctx.ctx.commonCtx.iv = iv
  dataAt : ctx.ctx.dataAt = dataAt
  dataLen : ctx.ctx.dataLen = 0
  pad : ctx.ctx.pad = .none
  enc : ctx.ctx.enc = false

theorem init_fresh (ctx : Sm4CbcCtx) (mem : Memory Byte) (key iv : Nat) :
    let init := cryptEalCipherInit sm4Cbc ctx mem (some key) 16 (some iv) 16 false
    init.1 = cryptSuccess ∧ Fresh init.2 (read 16 mem key) (read 16 mem iv) ctx.ctx.dataAt := by
  have made : sm4Cbc.initCtx (modesCipherDeInitCtx sm4Method ctx.ctx) mem (some key) 16 (some iv) 16
      false = _ :=
    BlockMode.cbc.method_initCtx sm4Method (setKey_eq false ctx.ctx.commonCtx.ciphCtx mem key) rfl
  simp only [cryptEalCipherInit, cryptEalCipherDeinit, BlockMode.method_deinitCtx, made, ne_eq,
    not_true_eq_false, if_false]
  exact ⟨trivial, rfl, rfl, rfl, rfl, rfl, rfl, rfl⟩

theorem Fresh.update {ctx : Sm4CbcCtx} {key iv : Block} {dataAt : Nat} (h : Fresh ctx key iv dataAt)
    (mem : Memory Byte) {inp out : Nat} (serves : CbcServes inp out 16) (own : dataAt ≠ out) :
    let r := cryptEalCipherUpdate sm4Cbc ctx mem (some inp) 16 (some out) (some 16)
    r.ret = cryptSuccess ∧
      r.mem = write mem out (sm4XorBlock (sm4Dec key (read 16 mem inp)) iv) := by
  have clear : out ≤ inp ∨ inp + 16 ≤ out := by
    unfold CbcServes at serves
    omega
  have check : checkUpdateParam ctx (some inp) 16 (some out) (some 16) = cryptSuccess := by
    rw [checkUpdateParam_eq, if_pos (by rw [h.states]; rfl)]
    simp only [isPartialOverLap, Bool.and_eq_false_iff, decide_eq_false_iff_not]
    omega
  have fits : ModesCipherUpdate.Fits CbcServes ctx.ctx inp 16 out 16 :=
    ⟨by rw [h.dataLen]; decide, by rw [h.dataLen], by rw [h.dataLen]; exact serves,
      by rw [h.dataLen]; exact clear, by rw [h.dataAt]; exact own⟩
  have step := modesCipherUpdate_spec (BlockMode.cbc.runs sm4Method false) mem
    (by rw [h.dataLen]; decide) fits
  have waits : waiting ctx.ctx = ⟨iv, []⟩ := by
    rw [waiting, h.dataLen, h.iv]
    rfl
  have free : holds ctx.ctx = false := by
    rw [holds, h.pad]
    simp
  have whole := update_block (BlockMode.cbc.machine sm4Method false (keyCtx key)) false
    (w := ⟨iv, []⟩) (a := load mem inp 16) (b := []) (List.append_nil _).symm (length_load _ _ _)
    (Or.inr rfl)
  simp only [List.nil_append, update_nil _ _ (settled_nil _ _), List.append_nil] at whole
  rw [waits, free, h.ciphCtx, whole] at step
  have block := load_block mem inp iv (fun iv b => (sm4XorBlock (sm4Dec key b) iv, b)) mem out
  obtain ⟨q, hq⟩ : ∃ q, q = modesCipherUpdate (BlockMode.cbc.blockUpdate sm4Method false) ctx.ctx
    mem inp 16 out 16 := ⟨_, rfl⟩
  rw [← hq] at step
  simp only [cryptEalCipherUpdate, check, ne_eq, not_true_eq_false, if_false, Option.getD_some,
    BlockMode.method_update, h.enc, ← hq, step.ret]
  exact ⟨trivial, step.mem.trans block.2⟩

def argMem (key iv : Block) : Memory Byte := write (write (fun _ => 0) 0 key) 16 iv

/-- The calls as the threads make them. A block and its output have a memory of their own here;
the library does the same in the memory that the threads share. -/
def sm4Eal (contexts : Nat → Sm4CbcCtx) : Eal Sm4CbcCtx where
  cipherNewCtx t := some (contexts t)
  cipherSetPadding ctx := (cryptEalCipherSetPadding sm4Cbc ctx (paddingCode .none)).2
  cipherInit ctx key iv :=
    let r := cryptEalCipherInit sm4Cbc ctx (argMem key iv) (some 0) 16 (some 16) 16 false
    (r.2, r.1 = cryptSuccess)
  cipherUpdate ctx block :=
    let out := ctx.ctx.dataAt + 1
    let inp := out + 16
    let r := cryptEalCipherUpdate sm4Cbc ctx (write (fun _ => 0) inp block) (some inp) 16 (some out)
      (some 16)
    (r.ctx, if r.ret = cryptSuccess then some (read 16 r.mem out) else none)

theorem sm4Eal_works (contexts : Nat → Sm4CbcCtx) (threads : Nat) :
    (sm4Eal contexts).Works sm4Dec threads where
  newCtx t _ := rfl
  init ctx key iv := decide_eq_true (init_fresh ctx (argMem key iv) 0 16).1
  update ctx key iv block := by
    have fresh := (init_fresh ctx (argMem key iv) 0 16).2
    rw [argMem, read_write, read_write_of_apart _ _ _ _ (by decide), read_write] at fresh
    obtain ⟨opened, ho⟩ : ∃ opened, opened = (cryptEalCipherInit sm4Cbc ctx (argMem key iv)
      (some 0) 16 (some 16) 16 false).2 := ⟨_, rfl⟩
    rw [← argMem, ← ho] at fresh
    have serves : CbcServes (opened.ctx.dataAt + 1 + 16) (opened.ctx.dataAt + 1) 16 :=
      Or.inr (Or.inl (Nat.le_refl _))
    obtain ⟨ret, put⟩ := fresh.update (write (fun _ => 0) (opened.ctx.dataAt + 1 + 16) block)
      serves (by rw [fresh.dataAt]; omega)
    rw [read_write] at put
    simp only [sm4Eal, ← ho, ret, if_true, put, read_write]

theorem decryptBlock_shared (contexts : Nat → Sm4CbcCtx) {data : ThreadDecryptData}
    (valid : data.Valid) {i : Nat} (more : i < data.cipherLen / 16) (ctx : Sm4CbcCtx)
    (mem : Memory Byte) (serves : CbcServes (data.cipherText + 16 * i) (data.plainText + 16 * i) 16)
    (own : ctx.ctx.dataAt ≠ data.plainText + 16 * i) :
    let localIV := previous (fun j => read 16 mem (data.cipherText + 16 * j)) data.iv i
    let init := cryptEalCipherInit sm4Cbc ctx (argMem data.key localIV) (some 0) 16 (some 16) 16
      false
    (cryptEalCipherUpdate sm4Cbc init.2 mem (some (data.cipherText + 16 * i)) 16
        (some (data.plainText + 16 * i)) (some 16)).mem =
      (decryptBlock (sm4Eal contexts) data i ctx mem).2.2 := by
  intro localIV init
  have fresh := (init_fresh ctx (argMem data.key localIV) 0 16).2
  rw [decryptBlock_works (sm4Eal_works contexts 1) valid more, (fresh.update mem serves own).2]
  rw [argMem, read_write, read_write_of_apart _ _ _ _ (by decide), read_write]
  rfl

/-! ## The encryption -/

/-- The calls of `main` that encrypt, with the addresses of its arrays; the new memory and the
length of the ciphertext, or nothing if a call fails. -/
def encryptData (ctx : Sm4CbcCtx) (mem : Memory Byte) (key iv data dataLen cipherText size : Nat) :
    Option (Memory Byte × Nat) :=
  let init := cryptEalCipherInit sm4Cbc ctx mem (some key) 16 (some iv) 16 true
  if init.1 ≠ cryptSuccess then none
  else
    let set := cryptEalCipherSetPadding sm4Cbc init.2 (paddingCode .pkcs7)
    if set.1 ≠ cryptSuccess then none
    else
      let r := cryptEalCipherUpdate sm4Cbc set.2 mem (some data) dataLen (some cipherText)
        (some size)
      if r.ret ≠ cryptSuccess then none
      else
        let last := cryptEalCipherFinal sm4Cbc r.ctx r.mem (some (cipherText + r.outLen))
          (some (size - r.outLen))
        if last.ret ≠ cryptSuccess then none else some (last.mem, r.outLen + last.outLen)

/-- The arrays of `main`: room for the padded message, and no two of them meet. -/
structure Arrays (key iv data dataLen cipherText plainText size dataAt : Nat) : Prop where
  small : dataLen + 16 < 2 ^ 32
  room : dataLen + 16 ≤ size
  key_cipher : key + 16 ≤ cipherText ∨ cipherText + size ≤ key
  iv_cipher : iv + 16 ≤ cipherText ∨ cipherText + size ≤ iv
  data_cipher : data + dataLen ≤ cipherText ∨ cipherText + size ≤ data
  data_plain : data + dataLen ≤ plainText ∨ plainText + size ≤ data
  cipher_plain : cipherText + size ≤ plainText ∨ plainText + size ≤ cipherText
  own : dataAt < cipherText ∨ cipherText + size ≤ dataAt

def ciphertext (key iv : Block) (text : List Byte) : List Byte :=
  ((BlockMode.cbc.machine sm4Method true (keyCtx key)).feed iv (paddedText .pkcs7 text)).1

theorem length_ciphertext (key iv : Block) (text : List Byte) :
    (ciphertext key iv text).length = 16 * (text.length / 16 + 1) := by
  rw [ciphertext, Transducer.length_feed _ _ _ (dvd_length_paddedText (by simp)), paddedText,
    List.length_append, length_fill (by decide) (by omega)]
  omega

theorem encryptData_eq {ctx : Sm4CbcCtx} {key iv data dataLen cipherText plainText size : Nat}
    (arrays : Arrays key iv data dataLen cipherText plainText size ctx.ctx.dataAt)
    (kind : ifXts ctx.ctx.algId = false) (mem : Memory Byte) :
    ∃ mem', encryptData ctx mem key iv data dataLen cipherText size =
        some (mem', 16 * (dataLen / 16 + 1)) ∧
      load mem' cipherText (16 * (dataLen / 16 + 1)) =
        ciphertext (read 16 mem key) (read 16 mem iv) (load mem data dataLen) ∧
      Frame cipherText size mem mem' := by
  have fits : UpdateFits (BlockMode.cbc.serves true) ctx.ctx.dataAt 0
      ⟨mem, data, dataLen, cipherText, size⟩ := by
    have small := arrays.small
    have room := arrays.room
    have apart := arrays.data_cipher
    have own := arrays.own
    refine ⟨?_, ?_, ?_, ?_, ?_⟩ <;> simp only [BlockMode.serves, Clear] <;> omega
  have made := stream_encrypt .cbc .pkcs7 (read 16 mem key) (read 16 mem iv) (load mem data dataLen)
  rw [if_neg (by simp)] at made
  obtain ⟨init, opened⟩ :=
    init_running sm4Method .cbc kind (setKey_eq true _ mem key) iv (rfl : 16 = 16)
  have room := arrays.room
  obtain ⟨ret, ok, length, bytes, frame⟩ :=
    (opened.setPad .pkcs7).message sm4Method .cbc fits (by dsimp only; omega) arrays.own made
  have total : _ = 16 * ((load mem data dataLen).length / 16 + 1) :=
    length_ciphertext (read 16 mem key) (read 16 mem iv) (load mem data dataLen)
  rw [length_load] at total
  refine ⟨_, ?_, (congrArg _ total.symm).trans bytes, frame⟩
  simp only [UpdateCall.perform] at ret ok length
  simp only [encryptData, init, setPadding_eq, ret, ok, ne_eq, not_true_eq_false, if_false]
  rw [length]
  exact congrArg (fun n => some (_, n)) total

/-! ## From the message to the verdict -/

theorem blockAt_eq (a : List Byte) (k : Nat) :
    blockAt a k = read 16 (fun i => a.getD i 0) (16 * k) := by
  apply Vector.ext
  intro i hi
  rw [getElem_read]
  simp only [blockAt, block, Vector.getElem_ofFn, List.getD_eq_getElem?_getD, List.getElem?_drop]
  rfl

theorem blockAt_load (mem : Memory Byte) {p len k : Nat} (h : k < len / 16) :
    blockAt (load mem p len) k = read 16 mem (p + 16 * k) := by
  rw [blockAt_eq]
  refine read_congr fun i hi => ?_
  have inside : 16 * k + i < (load mem p len).length := by
    rw [length_load]
    omega
  rw [List.getD_eq_getElem _ _ inside, getElem_load, Nat.add_assoc]

theorem cipherBlocks {mem : Memory Byte} {p : Nat} {key iv : Block} {text : List Byte}
    (bytes : load mem p (16 * (text.length / 16 + 1)) = ciphertext key iv text) {k : Nat}
    (h : k < text.length / 16 + 1) : read 16 mem (p + 16 * k) =
      chain sm4XorBlock (sm4Enc key) (blockAt (paddedText .pkcs7 text)) iv (k + 1) := by
  have length := length_ciphertext key iv text
  rw [ciphertext, Transducer.length_feed _ _ _ (dvd_length_paddedText (by simp))] at length
  have inside : k < 16 * (text.length / 16 + 1) / 16 := by omega
  rw [← blockAt_load mem inside, bytes]
  exact machine_blocks .cbc key iv (by omega)

theorem sm4Dec_sm4Enc (key b : Block) : sm4Dec key (sm4Enc key b) = b := by
  rw [sm4Dec, ← sm4Method_encryptBlock]
  exact sm4Method_inverse key b

theorem good_of_padded {plainText data : Nat → Byte} {text : List Byte}
    (plain : ∀ i < 16 * (text.length / 16 + 1), plainText i = (paddedText .pkcs7 text).getD i 0)
    (same : ∀ i < text.length, data i = text.getD i 0) :
    Good plainText data (16 * (text.length / 16 + 1)) text.length := by
  have front (i : Nat) (h : i < text.length) :
      (paddedText .pkcs7 text).getD i 0 = text.getD i 0 := by
    rw [paddedText, List.getD_append _ _ _ _ h]
  refine ⟨⟨16 - text.length % 16, ⟨by omega, by omega, fun i hi => ?_⟩, by omega⟩, fun i hi => ?_⟩
  · rw [plain _ (by omega), paddedText, List.getD_append_right _ _ _ _ (by omega), fill]
    exact List.getD_replicate _ (by omega)
  · rw [plain i (by omega), front i hi, same i hi]

theorem finalCheck_of_good {plainText data : Nat → Byte} {blocks dataLen : Nat} (some : blocks ≠ 0)
    (good : Good plainText data (16 * blocks) dataLen) :
    finalCheck plainText data (16 * blocks) dataLen = ["pass \n"] := by
  have count : 16 * blocks / 16 = blocks := Nat.mul_div_cancel_left blocks (by decide)
  obtain ⟨padded, bytes⟩ := good
  rw [Nat.mul_comm] at padded
  obtain ⟨valid, -⟩ := paddedTo_iff.mp padded
  have equal := (memcmp_eq_zero plainText data dataLen).mpr bytes
  simp [finalCheck, count, some, valid, equal]

/-- What `main` hands to its threads after the encryption. -/
def threadData (mem : Memory Byte) (key iv cipherText cipherTextLen plainText : Nat) :
    ThreadDecryptData where
  cipherText := cipherText
  cipherLen := cipherTextLen
  plainText := plainText
  key := read 16 mem key
  iv := read 16 mem iv
  totalThreads := 8

/-- What the threads leave under any schedule, once they have finished. -/
theorem threads_done {contexts : Nat → Sm4CbcCtx} {td : ThreadDecryptData} (valid : td.Valid)
    (apart : td.cipherText + 16 * (td.cipherLen / 16) ≤ td.plainText ∨
      td.plainText + 16 * (td.cipherLen / 16) ≤ td.cipherText) {mem : Memory Byte}
    {schedule : List Nat} {s : State Sm4CbcCtx}
    (ran : run (step (sm4Eal contexts) td) (start td mem) schedule = some s)
    (finished : Finished td s) :
    (∀ k < td.cipherLen / 16, read 16 s.mem (td.plainText + 16 * k) = unchain sm4XorBlock
      (sm4Dec td.key) (fun j => read 16 mem (td.cipherText + 16 * j)) td.iv k) ∧
      Frame td.plainText (16 * (td.cipherLen / 16)) mem s.mem := by
  have works := sm4Eal_works contexts td.totalThreads
  have inv := run_inv (motive := fun s => Synced td s ∧ Decrypts td sm4Dec mem s)
    (fun s t s' inv h => ⟨step_synced valid works.newCtx inv.1 h,
      step_decrypts works valid apart inv.1 inv.2 h⟩)
    ⟨start_synced mem, start_decrypts valid⟩ ran
  exact ⟨fun k hk => inv.2.plain.blocks k hk (finished.reached valid hk), inv.2.plain.frame⟩

/-- A message of any length with any key: the encryption succeeds, and however the eight threads are
scheduled, once they have finished the message is back with its padding, nothing else has changed,
and the check prints that it passed. -/
theorem main_passes {ctx : Sm4CbcCtx} {key iv data dataLen cipherText plainText size : Nat}
    (arrays : Arrays key iv data dataLen cipherText plainText size ctx.ctx.dataAt)
    (kind : ifXts ctx.ctx.algId = false) (contexts : Nat → Sm4CbcCtx) (mem : Memory Byte) :
    ∃ mem' cipherTextLen, encryptData ctx mem key iv data dataLen cipherText size =
        some (mem', cipherTextLen) ∧
      let td := threadData mem' key iv cipherText cipherTextLen plainText
      ∀ schedule s, run (step (sm4Eal contexts) td) (start td mem') schedule = some s →
        Finished td s →
          load s.mem plainText dataLen = load mem data dataLen ∧
          Good (fun i => s.mem (plainText + i)) (fun i => s.mem (data + i)) cipherTextLen dataLen ∧
          finalCheck (fun i => s.mem (plainText + i)) (fun i => s.mem (data + i)) cipherTextLen
            dataLen = ["pass \n"] ∧
          Frame plainText cipherTextLen mem' s.mem := by
  obtain ⟨mem', encrypted, bytes, frame⟩ := encryptData_eq arrays kind mem
  refine ⟨mem', _, encrypted, fun schedule s ran finished => ?_⟩
  obtain ⟨text, htext⟩ : ∃ text, text = load mem data dataLen := ⟨_, rfl⟩
  have length : text.length = dataLen := by rw [htext, length_load]
  have count : 16 * (dataLen / 16 + 1) / 16 = dataLen / 16 + 1 :=
    Nat.mul_div_cancel_left _ (by decide)
  have room := arrays.room
  have small := arrays.small
  have away := arrays.cipher_plain
  have keys := arrays.key_cipher
  have ivs := arrays.iv_cipher
  have datas := arrays.data_cipher
  have plains := arrays.data_plain
  have valid : (threadData mem' key iv cipherText (16 * (dataLen / 16 + 1)) plainText).Valid :=
    ⟨show 1 ≤ 8 by decide, show 8 < 2 ^ 31 by decide,
      show 16 * (dataLen / 16 + 1) < 2 ^ 32 by omega⟩
  obtain ⟨blocks, outside⟩ :=
    threads_done valid (by simp only [threadData, count]; omega) ran finished
  have sameKey : read 16 mem' key = read 16 mem key :=
    read_congr fun i hi => frame _ (by omega)
  have sameIv : read 16 mem' iv = read 16 mem iv :=
    read_congr fun i hi => frame _ (by omega)
  rw [← htext, ← sameKey, ← sameIv] at bytes
  simp only [threadData, count] at blocks outside
  have cipher (j : Nat) (hj : j < dataLen / 16 + 1) : read 16 mem' (cipherText + 16 * j) =
      chain sm4XorBlock (sm4Enc (read 16 mem' key)) (blockAt (paddedText .pkcs7 text))
        (read 16 mem' iv) (j + 1) :=
    cipherBlocks (by rw [length]; exact bytes) (by rw [length]; exact hj)
  have back (k : Nat) (hk : k < dataLen / 16 + 1) : read 16 s.mem (plainText + 16 * k) =
      read 16 (fun i => (paddedText .pkcs7 text).getD i 0) (0 + 16 * k) := by
    have same := unchain_chain sm4XorBlock (sm4Enc (read 16 mem' key))
      (sm4Dec (read 16 mem' key)) sm4XorBlock_cancel (sm4Dec_sm4Enc _)
      (blockAt (paddedText .pkcs7 text)) (read 16 mem' iv) k
    rw [blocks k hk, unchain, cipher k hk, previous_congr _ k fun j hj => cipher j (by omega)]
    rw [unchain] at same
    rw [same, Nat.zero_add, blockAt_eq]
  have plain (i : Nat) (h : i < 16 * (dataLen / 16 + 1)) :
      s.mem (plainText + i) = (paddedText .pkcs7 text).getD i 0 := by
    have same := agree_of_blocks (by decide) back i h
    rwa [Nat.zero_add] at same
  have kept (i : Nat) (h : i < text.length) : s.mem (data + i) = text.getD i 0 := by
    rw [List.getD_eq_getElem _ _ h, outside _ (by omega), frame _ (by omega)]
    simp [htext]
  have good : Good (fun i => s.mem (plainText + i)) (fun i => s.mem (data + i)) _ _ :=
    good_of_padded (by rw [length]; exact plain) kept
  rw [length] at good
  refine ⟨?_, good, finalCheck_of_good (Nat.succ_ne_zero _) good, outside⟩
  rw [← htext]
  refine List.ext_getElem (by rw [length_load, length]) fun i h h' => ?_
  rw [getElem_load, ← List.getD_eq_getElem _ 0 h']
  exact (good.2 i (by rwa [length_load] at h)).trans (kept i h')

theorem main_passes_megabyte :
    ∃ mem' cipherTextLen,
      encryptData (sm4CbcNewCtx 0) sampleMem 1024 2048 4096 1048576 2000000 2097152 =
        some (mem', cipherTextLen) ∧
      let td := threadData mem' 1024 2048 2000000 cipherTextLen 5000000
      ∀ schedule s, run (step (sm4Eal sm4CbcNewCtx) td) (start td mem') schedule = some s →
        Finished td s →
          load s.mem 5000000 1048576 = load sampleMem 4096 1048576 ∧
          Good (fun i => s.mem (5000000 + i)) (fun i => s.mem (4096 + i)) cipherTextLen 1048576 ∧
          finalCheck (fun i => s.mem (5000000 + i)) (fun i => s.mem (4096 + i)) cipherTextLen
            1048576 = ["pass \n"] ∧
          Frame 5000000 cipherTextLen mem' s.mem :=
  main_passes ⟨by decide, by decide, by decide, by decide, by decide, by decide, by decide,
    by decide⟩ rfl sm4CbcNewCtx sampleMem

end SystemsLab.EalDemo
