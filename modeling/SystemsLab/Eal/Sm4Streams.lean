import SystemsLab.Eal.Sm4Blocks
import SystemsLab.Eal.StreamMessages
import SystemsLab.Modes.FeedbackRegister

/-! SM4 in the CTR, OFB and CFB modes through the cipher interface: the calls for a message mix it
with the key stream of the textbook, whichever way it is cut, and the calls for the other
direction take it back. A CFB decryption finds its way back after an error. -/

namespace SystemsLab.EalSm4Streams
open ByteWord Textbook Buffer StreamMachine WindowStream Sm4OpenHitls EalCipher ModesBlockCrypt
open ModesStreamCrypt ModesCfbBits ModesStreamModes ModesFeedbackRegister EalStreamMessages
open Sm4SetKey
open EalSm4Blocks (sm4Enc keyCtx sampleMem)

/-! ## Messages -/

structure Carries (mode : StreamMode) (key iv : Block) (text : List Byte)
    (ctx : CryptEalCipherCtx (StreamModeCtx CryptSm4Ctx)) (feedback : Option Nat) (msg : Message) :
    Prop where
  key : ∃ p, msg.key = some p ∧ read 16 msg.mem p = key
  keyLen : msg.keyLen = 16
  iv : read 16 msg.mem msg.iv = iv
  ivLen : msg.ivLen = 16
  text : msg.text = text
  bare : msg.padding = none
  chosen : Chosen mode ctx feedback
  short : ∀ c ∈ msg.updates, mode.reach c.inLen = c.inLen

def sm4Process (mode : StreamMode) (enc : Bool)
    (ctx : CryptEalCipherCtx (StreamModeCtx CryptSm4Ctx)) (feedback : Option Nat) (msg : Message) :
    Option (List Byte) :=
  process (mode.method sm4Method) ctx enc feedback msg

def stream (mode : StreamMode) (enc : Bool) (key iv : Block) (text : List Byte) : List Byte :=
  ((mode.machine sm4Method enc).feed (start (keyCtx key) iv) text).1

variable {mode : StreamMode} {enc : Bool} {key iv : Block} {text : List Byte}
  {ctx ctx' : CryptEalCipherCtx (StreamModeCtx CryptSm4Ctx)} {feedback feedback' : Option Nat}
  {msg msg' : Message}

theorem length_stream (mode : StreamMode) (enc : Bool) (key iv : Block) (text : List Byte) :
    (stream mode enc key iv text).length = text.length :=
  Transducer.length_feed _ _ _ (Nat.one_dvd _)

theorem Carries.keyed (h : Carries mode key iv text ctx feedback msg) :
    Keyed sm4Method ctx msg (keyCtx key) := by
  obtain ⟨p, given, bytes⟩ := h.key
  have set := EalSm4Blocks.setKey_eq true ctx.ctx.commonCtx.ciphCtx msg.mem p
  rw [if_pos rfl, bytes] at set
  rw [Keyed, given, h.keyLen, set]

theorem Carries.process_eq (h : Carries mode key iv text ctx feedback msg) (enc : Bool) :
    sm4Process mode enc ctx feedback msg =
      if ∀ c ∈ msg.updates, Fits c then some (stream mode enc key iv text) else none := by
  rw [sm4Process, EalStreamMessages.process_eq sm4Method mode enc h.keyed h.ivLen h.chosen h.bare
    h.short, h.iv, h.text]
  rfl

theorem Carries.result (h : Carries mode key iv text ctx feedback msg) {out : List Byte}
    (done : sm4Process mode enc ctx feedback msg = some out) :
    out = stream mode enc key iv text := by
  rw [h.process_eq] at done
  split_ifs at done
  exact (Option.some.inj done).symm

/-! ## The key stream -/

/-- Byte `i` of the key stream in the textbook, where `c` is the ciphertext. -/
def keyByte (mode : StreamMode) (key iv : Block) (c : List Byte) (i : Nat) : Byte :=
  match mode with
  | .ctr => (sm4Enc key (counterBlock (counterValue iv + i / 16)))[i % 16]!
  | .ofb => ((sm4Enc key)^[i / 16 + 1] iv)[i % 16]!
  | .cfb1 => byteOfBits ((List.range 8).map fun b =>
      (sm4Enc key (bitRegister iv (c.flatMap bitsOf) (8 * i + b)))[0]!.getMsbD 0)
  | .cfb8 => (sm4Enc key (register 1 iv c i))[i % 1]!
  | .cfb64 => (sm4Enc key (register 8 iv c i))[i % 8]!
  | .cfb128 => (sm4Enc key (register 16 iv c i))[i % 16]!

theorem encryptBlock_eq (key : Block) : sm4Method.encryptBlock (keyCtx key) = sm4Enc key := by
  funext b
  exact EalSm4Blocks.sm4Method_encryptBlock key b

theorem stream_getElem (mode : StreamMode) (enc : Bool) (key iv : Block) {text : List Byte}
    {i : Nat} (h : i < text.length) (h' : i < (stream mode enc key iv text).length) :
    (stream mode enc key iv text)[i] = text[i] ^^^
      keyByte mode key iv (if enc then stream mode enc key iv text else text) i := by
  have cipher := encryptBlock_eq key
  cases mode with
  | ctr =>
    have byte := Window.runSteps_getElem (W := ctrWindow sm4Method) (fun _ _ _ => rfl) rfl enc
      ⟨keyCtx key, iv, Vector.replicate 16 0⟩ text h h'
    have block := ctrWindow_iterate sm4Method (keyCtx key) iv (Vector.replicate 16 0) (i / 16)
    rw [cipher] at block
    exact byte.trans (congrArg (fun b : Block => text[i] ^^^ b[i % 16]!) block)
  | ofb =>
    have byte := Window.runSteps_getElem (W := ofbWindow sm4Method) (fun _ _ _ => rfl) rfl enc
      ⟨keyCtx key, iv, Vector.replicate 16 0⟩ text h h'
    have block := congrArg StreamCore.iv
      (ofbWindow_iterate sm4Method (keyCtx key) iv (Vector.replicate 16 0) (i / 16 + 1))
    rw [cipher] at block
    exact byte.trans (congrArg (fun b : Block => text[i] ^^^ b[i % 16]!) block)
  | cfb8 =>
    have byte := (cfbBytesWindow_feedback sm4Method (by decide) (by decide)).runSteps_getElem
      enc (keyCtx key) iv (Vector.replicate 16 0) h h'
    rw [cipher] at byte
    exact byte
  | cfb64 =>
    have byte := (cfbBytesWindow_feedback sm4Method (by decide) (by decide)).runSteps_getElem
      enc (keyCtx key) iv (Vector.replicate 16 0) h h'
    rw [cipher] at byte
    exact byte
  | cfb128 =>
    have byte := (cfb128Window_feedback sm4Method).runSteps_getElem
      enc (keyCtx key) iv (Vector.replicate 16 0) h h'
    rw [cipher] at byte
    exact byte
  | cfb1 =>
    have byte := cfb1_feed_getElem sm4Method enc (keyCtx key) iv (Vector.replicate 16 0) h h'
    rw [cipher] at byte
    exact byte

/-! ## Sample messages -/

def sample (mem : Memory Byte) (lens : List Nat) : Message :=
  { EalSm4Blocks.sample .none mem lens with padding := none }

def sampleCtx : CryptEalCipherCtx (StreamModeCtx CryptSm4Ctx) where
  states := .update
  ctx := {
    commonCtx := {
      ciphCtx := keyCtx (Vector.replicate 16 1)
      iv := Vector.replicate 16 2
      buf := Vector.replicate 16 3
      ivAt := 0
      bufAt := 0
      offset := 5 }
    feedbackBits := 8
    enc := true }

theorem sampleCalls_mem {mem : Memory Byte} {inp : Nat} {lens : List Nat} {c : UpdateCall}
    (member : c ∈ EalSm4Blocks.sampleCalls mem inp lens) :
    inp ≤ c.inp ∧ c.inp + c.inLen ≤ inp + lens.sum ∧ c.out = 1000 ∧ c.outLen = 64 := by
  induction lens generalizing inp with
  | nil => cases member
  | cons len rest ih =>
    rw [List.sum_cons]
    rcases List.mem_cons.mp member with rfl | later
    · exact ⟨Nat.le_refl _, by show inp + len ≤ _; omega, rfl, rfl⟩
    · obtain ⟨above, below, buffer⟩ := ih later
      exact ⟨by omega, by omega, buffer⟩

theorem sample_carries (mode : StreamMode) (mem : Memory Byte) {lens : List Nat}
    (few : lens.sum ≤ 64) : Carries mode (read 16 mem 0) (read 16 mem 16) (load mem 32 lens.sum)
      sampleCtx mode.feedbackBits (sample mem lens) where
  key := ⟨0, rfl, rfl⟩
  keyLen := rfl
  iv := rfl
  ivLen := rfl
  text := EalSm4Blocks.sampleCalls_text mem 32 lens
  bare := rfl
  chosen := Or.inl rfl
  short c member := by
    obtain ⟨-, below, -⟩ := sampleCalls_mem member
    cases mode with
    | cfb1 => exact Nat.mod_eq_of_lt (by omega)
    | _ => rfl

theorem sample_fits {mem : Memory Byte} {lens : List Nat} (few : lens.sum ≤ 64) :
    ∀ c ∈ (sample mem lens).updates, Fits c := by
  intro c member
  obtain ⟨above, below, out, outLen⟩ := sampleCalls_mem member
  unfold Fits
  omega

theorem sample_process (mode : StreamMode) (enc : Bool) (mem : Memory Byte) {lens : List Nat}
    (few : lens.sum ≤ 64) : sm4Process mode enc sampleCtx mode.feedbackBits (sample mem lens) =
      some (stream mode enc (read 16 mem 0) (read 16 mem 16) (load mem 32 lens.sum)) := by
  rw [(sample_carries mode mem few).process_eq, if_pos (sample_fits few)]

/-! ## Results -/

/-- A message is refused exactly if an update has no room or writes into what it has still to read.
How it is cut, on which buffers, and what the context was used for before make no
difference otherwise. -/
theorem stream_cut (h : Carries mode key iv text ctx feedback msg)
    (h' : Carries mode key iv text ctx' feedback' msg') (enc : Bool) :
    (sm4Process mode enc ctx feedback msg = none ↔ ∃ c ∈ msg.updates, ¬ Fits c) ∧
      ∀ out out', sm4Process mode enc ctx feedback msg = some out →
        sm4Process mode enc ctx' feedback' msg' = some out' → out = out' := by
  constructor
  · rw [h.process_eq]
    split_ifs with all
    · exact iff_of_false (by rintro ⟨⟩) fun ⟨c, member, not⟩ => not (all c member)
    · exact iff_of_true rfl (by simpa using all)
  · intro out out' done done'
    rw [h.result done, h'.result done']

theorem stream_cut_two_and_three :
    let feedback := StreamMode.cfb64.feedbackBits
    let refused : Message := { sample sampleMem [5, 15] with
      updates := [⟨sampleMem, 32, 5, 1000, 64⟩, ⟨sampleMem, 37, 15, 1000, 14⟩] }
    sm4Process .cfb64 true sampleCtx feedback (sample sampleMem [5, 15]) =
      sm4Process .cfb64 true sampleCtx feedback (sample sampleMem [7, 0, 13]) ∧
    sm4Process .cfb64 true sampleCtx feedback refused = none := by
  intro feedback refused
  have done := sample_process .cfb64 true sampleMem (by decide : [5, 15].sum ≤ 64)
  have done' := sample_process .cfb64 true sampleMem (by decide : [7, 0, 13].sum ≤ 64)
  have carries' := sample_carries .cfb64 sampleMem (by decide : [7, 0, 13].sum ≤ 64)
  rw [show [7, 0, 13].sum = [5, 15].sum from rfl] at carries'
  have same := (stream_cut (sample_carries .cfb64 sampleMem (by decide : [5, 15].sum ≤ 64))
    carries' true).2 _ _ done done'
  have given : Carries .cfb64 (read 16 sampleMem 0) (read 16 sampleMem 16) refused.text
      sampleCtx feedback refused :=
    ⟨⟨0, rfl, rfl⟩, rfl, rfl, rfl, rfl, rfl, Or.inl rfl, fun _ _ => rfl⟩
  have short : ¬ Fits ⟨sampleMem, 37, 15, 1000, 14⟩ := by decide
  refine ⟨by rw [done, done', same], (stream_cut given given true).1.mpr ⟨_, ?_, short⟩⟩
  exact List.mem_cons_of_mem _ List.mem_cons_self

/-- An update that is refused leaves no trace: the calls put out what they do without it. -/
theorem attempts_eq (h : Carries mode key iv text ctx feedback msg) (enc : Bool) :
    let method := mode.method sm4Method
    let begun :=
      cryptEalCipherInit method ctx msg.mem msg.key msg.keyLen (some msg.iv) msg.ivLen enc
    let set := setFeedback method begun.2 feedback
    sm4Process mode enc ctx feedback { msg with updates := msg.updates.filter Fits } =
      some (attemptAll method set.2 msg.updates).1 := by
  intro method begun set
  obtain ⟨-, -, running⟩ := init_running sm4Method mode enc h.keyed msg.iv h.ivLen h.chosen
  obtain ⟨out, -⟩ := running.attempts sm4Method mode h.short
  have served : ∀ c ∈ msg.updates.filter Fits, Fits c := fun c member => by
    simpa using (List.mem_filter.mp member).2
  have short : ∀ c ∈ msg.updates.filter Fits, mode.reach c.inLen = c.inLen := fun c member =>
    h.short c (List.mem_filter.mp member).1
  have keyed : Keyed sm4Method ctx { msg with updates := msg.updates.filter Fits }
    (keyCtx key) := h.keyed
  rw [sm4Process,
    EalStreamMessages.process_eq sm4Method mode enc keyed h.ivLen h.chosen h.bare short,
    if_pos served]
  exact congrArg some out.symm

theorem attempts_eq_again :
    let method := StreamMode.ctr.method sm4Method
    let msg := sample sampleMem [5, 15]
    let begun := cryptEalCipherInit method sampleCtx msg.mem msg.key msg.keyLen (some msg.iv)
      msg.ivLen false
    sm4Process .ctr false sampleCtx none msg = some (attemptAll method begun.2
      [⟨sampleMem, 32, 5, 1000, 64⟩, ⟨sampleMem, 37, 15, 1000, 14⟩, ⟨sampleMem, 37, 15, 40, 16⟩,
        ⟨sampleMem, 37, 15, 1000, 64⟩]).1 := by
  intro method msg begun
  obtain ⟨calls, hc⟩ : ∃ calls : List UpdateCall, calls =
    [⟨sampleMem, 32, 5, 1000, 64⟩, ⟨sampleMem, 37, 15, 1000, 14⟩, ⟨sampleMem, 37, 15, 40, 16⟩,
      ⟨sampleMem, 37, 15, 1000, 64⟩] := ⟨_, rfl⟩
  have carries : Carries .ctr (read 16 sampleMem 0) (read 16 sampleMem 16)
      (calls.map UpdateCall.piece).flatten sampleCtx none { msg with updates := calls } :=
    ⟨⟨0, rfl, rfl⟩, rfl, rfl, rfl, rfl, rfl, Or.inl rfl, fun _ _ => rfl⟩
  have served : calls.filter Fits = msg.updates := by
    rw [hc]
    rfl
  have same := attempts_eq carries false
  simp only [served] at same
  rw [← hc]
  exact same

/-- Every byte of the output is a byte of the text, mixed with the key stream of the textbook. -/
theorem stream_textbook (h : Carries mode key iv text ctx feedback msg) {out : List Byte}
    (done : sm4Process mode enc ctx feedback msg = some out) :
    out.length = text.length ∧ ∀ i < text.length, out.getD i 0 =
      text.getD i 0 ^^^ keyByte mode key iv (if enc then out else text) i := by
  obtain rfl := h.result done
  have length := length_stream mode enc key iv text
  refine ⟨length, fun i hi => ?_⟩
  rw [List.getD_eq_getElem _ _ (by omega), List.getD_eq_getElem _ _ hi]
  exact stream_getElem mode enc key iv hi (by omega)

theorem stream_textbook_forty_bytes :
    ∃ out, sm4Process .cfb64 false sampleCtx StreamMode.cfb64.feedbackBits
        (sample sampleMem [5, 35]) = some out ∧
      out.length = (load sampleMem 32 [5, 35].sum).length ∧
      ∀ i < (load sampleMem 32 [5, 35].sum).length, out.getD i 0 =
        (load sampleMem 32 [5, 35].sum).getD i 0 ^^^ keyByte .cfb64 (read 16 sampleMem 0)
          (read 16 sampleMem 16) (if false then out else load sampleMem 32 [5, 35].sum) i := by
  have few : [5, 35].sum ≤ 64 := by decide
  have done := sample_process .cfb64 false sampleMem few
  exact ⟨_, done, stream_textbook (sample_carries .cfb64 sampleMem few) done⟩

/-- A message that was encrypted in any number of updates comes back from its ciphertext, in any
number of updates, also through a context that was used for something else. -/
theorem stream_back {cipher out : List Byte} (h : Carries mode key iv text ctx feedback msg)
    (h' : Carries mode key iv cipher ctx' feedback' msg')
    (there : sm4Process mode true ctx feedback msg = some cipher)
    (back : sm4Process mode false ctx' feedback' msg' = some out) : out = text := by
  rw [h'.result back, h.result there]
  exact congrArg Prod.fst (mode.machine_inverse sm4Method _ text (Nat.one_dvd _))

theorem stream_back_twenty_bytes :
    let feedback := StreamMode.cfb1.feedbackBits
    (sm4Process .cfb1 true sampleCtx feedback (sample sampleMem [5, 15])).bind (fun cipher =>
      sm4Process .cfb1 false sampleCtx feedback (sample (store sampleMem 32 cipher) [7, 9, 4])) =
      some (load sampleMem 32 20) := by
  intro feedback
  have few : [5, 15].sum ≤ 64 := by decide
  have few' : [7, 9, 4].sum ≤ 64 := by decide
  have there := sample_process .cfb1 true sampleMem few
  obtain ⟨cipher, hc⟩ : ∃ cipher, cipher = stream .cfb1 true (read 16 sampleMem 0)
    (read 16 sampleMem 16) (load sampleMem 32 [5, 15].sum) := ⟨_, rfl⟩
  have length : cipher.length = [7, 9, 4].sum := by
    rw [hc, length_stream, length_load]
    rfl
  have carries' := sample_carries .cfb1 (store sampleMem 32 cipher) few'
  have back := sample_process .cfb1 false (store sampleMem 32 cipher) few'
  have apart (p : Nat) (low : p + 16 ≤ 32) :
      read 16 (store sampleMem 32 cipher) p = read 16 sampleMem p :=
    read_congr fun i hi => store_of_not_mem _ _ _ _ (by omega)
  rw [load_store _ _ _ length, apart 0 (by decide), apart 16 (by decide)] at carries' back
  rw [← hc] at there
  rw [there, Option.bind_some, back]
  exact congrArg some (stream_back (sample_carries .cfb1 sampleMem few) carries' there back)

/-! ## Errors in the ciphertext -/

def part : StreamMode → Nat
  | .cfb64 => 8
  | .cfb128 => 16
  | _ => 1

theorem keyByte_common (cfb : mode.feedbackBits ≠ none) (key iv iv' : Block) {x x' w : List Byte}
    (aligned : x.length % part mode = x'.length % part mode) {t : Nat} (far : 15 + part mode ≤ t)
    (inside : t < w.length) : keyByte mode key iv (x ++ w) (x.length + t) =
      keyByte mode key iv' (x' ++ w) (x'.length + t) := by
  have bytes {f : Nat} (pos : 0 < f) (aligned : x.length % f = x'.length % f) (far : 15 + f ≤ t)
      (encrypt : Block → Block) : (encrypt (register f iv (x ++ w) (x.length + t)))[
        (x.length + t) % f]! =
      (encrypt (register f iv' (x' ++ w) (x'.length + t)))[(x'.length + t) % f]! := by
    have offset : (x.length + t) % f = (x'.length + t) % f := Nat.ModEq.add_right t aligned
    rw [register_common pos iv iv' w aligned far, offset]
  cases mode with
  | ctr => exact absurd rfl cfb
  | ofb => exact absurd rfl cfb
  | cfb1 =>
    have bit (b : Nat) (hb : b < 8) :
        bitRegister iv ((x ++ w).flatMap bitsOf) (8 * (x.length + t) + b) =
          bitRegister iv' ((x' ++ w).flatMap bitsOf) (8 * (x'.length + t) + b) := by
      have index (x : List Byte) : 8 * (x.length + t) + b =
          (x.flatMap bitsOf).length + (8 * t + b) := by
        rw [length_bits]
        omega
      have far : 15 + 1 ≤ t := far
      rw [index, index, List.flatMap_append, List.flatMap_append]
      exact bitRegister_common iv iv' _ _ _ (by omega) (by rw [length_bits]; omega)
    refine congrArg byteOfBits (List.map_congr_left fun b member => ?_)
    rw [bit b (List.mem_range.mp member)]
  | cfb8 => exact bytes (by decide) aligned far (sm4Enc key)
  | cfb64 => exact bytes (by decide) aligned far (sm4Enc key)
  | cfb128 => exact bytes (by decide) aligned far (sm4Enc key)

/-- A CFB decryption is right again a block and a part after the last byte that was wrong, also with
the wrong chaining value, and after whole parts were lost or added. -/
theorem stream_resync {x x' w out out' : List Byte} {iv' : Block} (cfb : mode.feedbackBits ≠ none)
    (h : Carries mode key iv (x ++ w) ctx feedback msg)
    (h' : Carries mode key iv' (x' ++ w) ctx' feedback' msg')
    (aligned : x.length % part mode = x'.length % part mode)
    (done : sm4Process mode false ctx feedback msg = some out)
    (done' : sm4Process mode false ctx' feedback' msg' = some out') :
    out.drop (x.length + (15 + part mode)) = out'.drop (x'.length + (15 + part mode)) := by
  obtain rfl := h.result done
  obtain rfl := h'.result done'
  have byte (iv : Block) (x : List Byte) {t : Nat} (inside : t < w.length) :
      (stream mode false key iv (x ++ w)).getD (x.length + t) 0 =
        w.getD t 0 ^^^ keyByte mode key iv (x ++ w) (x.length + t) := by
    have place : x.length + t < (x ++ w).length := by
      rw [List.length_append]
      omega
    have place' := place.trans_eq (length_stream mode false key iv (x ++ w)).symm
    have last : x.length + t - x.length = t := Nat.add_sub_cancel_left _ _
    rw [List.getD_eq_getElem _ _ place', stream_getElem mode false key iv place place',
      List.getElem_append_right (Nat.le_add_right _ _), List.getD_eq_getElem _ _ inside]
    simp only [last, Bool.false_eq_true, if_false]
  have length (iv : Block) (x : List Byte) : (stream mode false key iv (x ++ w)).length =
      x.length + w.length := by
    rw [length_stream, List.length_append]
  refine List.ext_getElem ?_ fun i h₁ h₂ => ?_
  · simp only [List.length_drop, length]
    omega
  rw [List.length_drop, length] at h₁
  have inside : 15 + part mode + i < w.length := by omega
  rw [List.getElem_drop, List.getElem_drop, ← List.getD_eq_getElem _ 0, ← List.getD_eq_getElem _ 0,
    Nat.add_assoc x.length, Nat.add_assoc x'.length, byte iv x inside, byte iv' x' inside,
    keyByte_common cfb key iv iv' aligned (Nat.le_add_right _ i) inside]

theorem stream_resync_lost :
    let feedback := StreamMode.cfb8.feedbackBits
    let lost := store sampleMem 34 (load sampleMem 35 40)
    (sm4Process .cfb8 false sampleCtx feedback (sample sampleMem [20, 23])).map (·.drop 19) =
      (sm4Process .cfb8 false sampleCtx feedback (sample lost [42])).map (·.drop 18) := by
  intro feedback lost
  have few : [20, 23].sum ≤ 64 := by decide
  have few' : [42].sum ≤ 64 := by decide
  have carries := sample_carries .cfb8 sampleMem few
  have carries' := sample_carries .cfb8 lost few'
  have cut : load sampleMem 32 [20, 23].sum = load sampleMem 32 3 ++ load sampleMem 35 40 :=
    load_add sampleMem 32 3 40
  have cut' : load lost 32 [42].sum = load lost 32 2 ++ load sampleMem 35 40 := by
    refine (load_add lost 32 2 40).trans (congrArg (load lost 32 2 ++ ·) ?_)
    exact load_store _ _ _ (length_load _ _ _)
  rw [cut] at carries
  rw [cut'] at carries'
  have done := sample_process .cfb8 false sampleMem few
  have done' := sample_process .cfb8 false lost few'
  have same := stream_resync (by decide) carries carries' (by simp [part, Nat.mod_one]) done done'
  rw [length_load, length_load] at same
  rw [done, done']
  exact congrArg some same

/-! ## Long texts in CFB with one bit -/

/-- Of a text of half a gigabyte and more, only the remainder is processed: the update succeeds and
says that it put out everything, but the rest of the output is what it was before. -/
theorem update_tail {s : StreamCore CryptSm4Ctx × Nat} (h : Running .cfb1 ctx enc s)
    {c : UpdateCall} (fits : Fits c) (large : 2 ^ 29 ≤ c.inLen) :
    let r := c.perform (StreamMode.cfb1.method sm4Method) ctx
    r.ret = cryptSuccess ∧ r.outLen = c.inLen ∧ c.inLen % 2 ^ 29 < c.inLen ∧
      ∀ i, c.inLen % 2 ^ 29 ≤ i → r.mem (c.out + i) = c.mem (c.out + i) := by
  intro r
  obtain ⟨ret, outLen, mem, -⟩ := h.update sm4Method .cfb1 fits
  have short : c.inLen % 2 ^ 29 < 2 ^ 29 := Nat.mod_lt _ (by decide)
  refine ⟨ret, outLen, by omega, fun i behind => ?_⟩
  have length := ((StreamMode.cfb1).machine sm4Method enc).length_feed s
    (load c.mem c.inp (c.inLen % 2 ^ 29)) (Nat.one_dvd _)
  rw [length_load] at length
  show r.mem _ = _
  rw [mem]
  exact store_of_not_mem _ _ _ _ (Or.inr (Nat.add_le_add_left (length.trans_le behind) _))

/-- In place, where the rest of the plaintext is left in the output. -/
theorem update_tail_in_place :
    let ctx : CryptEalCipherCtx (StreamModeCtx CryptSm4Ctx) :=
      ⟨.init, { sampleCtx.ctx with feedbackBits := 1 }⟩
    let r := UpdateCall.perform (StreamMode.cfb1.method sm4Method) ctx
      ⟨sampleMem, 100, 2 ^ 29 + 3, 100, 2 ^ 29 + 3⟩
    r.ret = cryptSuccess ∧ r.outLen = 2 ^ 29 + 3 ∧ (2 ^ 29 + 3) % 2 ^ 29 < 2 ^ 29 + 3 ∧
      ∀ i, (2 ^ 29 + 3) % 2 ^ 29 ≤ i → r.mem (100 + i) = sampleMem (100 + i) := by
  intro ctx
  have running : Running .cfb1 ctx true (sampleCtx.ctx.commonCtx.view) :=
    ⟨rfl, rfl, rfl, by rintro _ ⟨⟩; rfl⟩
  obtain ⟨n, hn⟩ : ∃ n, n = 2 ^ 29 + 3 := ⟨_, rfl⟩
  have fits : Fits ⟨sampleMem, 100, n, 100, n⟩ :=
    ⟨fun ahead => Nat.lt_irrefl _ ahead.1, Nat.le_refl n⟩
  have large : 2 ^ 29 ≤ n := by omega
  rw [← hn]
  exact update_tail running fits large

end SystemsLab.EalSm4Streams
