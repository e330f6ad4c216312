import SystemsLab.Modes.StreamCrypt
import Mathlib.Data.List.GetD

/-! CFB with a feedback of one bit (`modes_cfb.c`). The text goes through the chaining value bit by
bit; eight turns of the loop are a step of a machine on bytes. The number of bits is a
`uint32_t`, so that from half a gigabyte on only a part of the text is processed. -/

namespace SystemsLab.ModesCfbBits
open ByteWord Textbook Buffer CountedLoop StreamMachine Sm4OpenHitls ModesBlockCrypt
open ModesStreamCrypt

variable {κ : Type} (m : EalSymMethod κ) (enc : Bool)

/-- The chaining value moves up by a bit, and takes the top of `c` in. -/
def cfb1Shift (iv : Block) (c : Byte) : Block :=
  Vector.ofFn fun j : Fin 16 => (iv[j.val]! <<< 1) |||
    ((if j.val < 15 then iv[j.val + 1]! else c) >>> 7)

def cfb1Crypt (core : StreamCore κ) (x : Byte) : Byte × StreamCore κ :=
  let tmp := m.encryptBlock core.ciphCtx core.iv
  let y := tmp[0]! ^^^ x
  (y, { core with
    buf := tmp
    iv := cfb1Shift core.iv (if enc then y else x) })

def cfb1Turn (p q i : Nat) (t : Memory Byte × ModesStreamCtx κ) :
    Memory Byte × ModesStreamCtx κ :=
  let pos := 7 - i % 8
  let tmp : Byte := if t.1 (p + i / 8) &&& ((1 : Byte) <<< pos) = 0 then 0 else 0x80
  let r := cfb1Crypt m enc t.2.toStreamCore tmp
  let cleared := t.1 (q + i / 8) &&& ~~~((1 : Byte) <<< pos)
  (Function.update t.1 (q + i / 8) (cleared ||| ((r.1 >>> 7) <<< pos)),
    { t.2 with toStreamCore := r.2 })

/-- Here `len` is a number of bits. -/
def modesCfbBitCrypt (p q len : Nat) (t : Memory Byte × ModesStreamCtx κ) :
    Memory Byte × ModesStreamCtx κ :=
  Nat.fold len (fun i _ t => cfb1Turn m enc p q i t) t

/-! ## The machine -/

def bitsOf (x : Byte) : List Bool := (List.range 8).map x.getMsbD

def byteOfBits (bits : List Bool) : Byte := (BitVec.ofBoolListBE (bits.take 8)).setWidth 8

theorem getMsbD_byteOfBits {bits : List Bool} (h : bits.length = 8) (i : Nat) :
    (byteOfBits bits).getMsbD i = bits.getD i false := by
  rw [byteOfBits, List.take_of_length_le (Nat.le_of_eq h), BitVec.getMsbD_setWidth,
    BitVec.getMsbD_ofBoolListBE]
  simp [h]

theorem bitsOf_byteOfBits {bits : List Bool} (h : bits.length = 8) :
    bitsOf (byteOfBits bits) = bits := by
  refine List.ext_getElem (by simp [bitsOf, h]) fun i h₁ h₂ => ?_
  have entry : (bitsOf (byteOfBits bits))[i] = (byteOfBits bits).getMsbD i := by simp [bitsOf]
  rw [entry, getMsbD_byteOfBits h, List.getD_eq_getElem _ _ h₂]

theorem byteOfBits_bitsOf (x : Byte) : byteOfBits (bitsOf x) = x := by
  refine BitVec.eq_of_getMsbD_eq fun i hi => ?_
  rw [getMsbD_byteOfBits (by simp [bitsOf]), bitsOf, List.getD_eq_getElem _ _ (by simpa using hi)]
  simp

def cfb1Step (core : StreamCore κ) (bit : Bool) : Bool × StreamCore κ :=
  let r := cfb1Crypt m enc core (if bit then 0x80 else 0)
  (r.1.getMsbD 0, r.2)

def cfb1Byte (core : StreamCore κ) (x : Byte) : Byte × StreamCore κ :=
  let r := runSteps (cfb1Step m enc) core (bitsOf x)
  (byteOfBits r.1, r.2)

def cfb1Machine : Transducer (StreamCore κ × Nat) Byte 1 :=
  ofStep fun s x =>
    let r := cfb1Byte m enc s.1 x
    (r.1, (r.2, s.2))

theorem cfb1Shift_congr (iv : Block) {c c' : Byte} (same : c >>> 7 = c' >>> 7) :
    cfb1Shift iv c = cfb1Shift iv c' := by
  apply Vector.ext
  intro j hj
  simp only [cfb1Shift, Vector.getElem_ofFn]
  split_ifs
  · rfl
  · rw [same]

theorem cfb1Step_inverse (core : StreamCore κ) (bit : Bool) :
    cfb1Step m false core (cfb1Step m true core bit).1 = (bit, (cfb1Step m true core bit).2) := by
  obtain ⟨tmp, ht⟩ : ∃ tmp, tmp = m.encryptBlock core.ciphCtx core.iv := ⟨_, rfl⟩
  have top : ∀ y : Byte, y >>> 7 = (if y.getMsbD 0 then 0x80 else 0 : Byte) >>> 7 := by decide
  have bits (y : Byte) (bit : Bool) :
      (y ^^^ if bit then 0x80 else 0).getMsbD 0 = (y.getMsbD 0 ^^ bit) := by
    rw [BitVec.getMsbD_xor]
    cases bit <;> rfl
  have back : (tmp[0]!.getMsbD 0 ^^ (tmp[0]!.getMsbD 0 ^^ bit)) = bit := by
    cases bit <;> cases tmp[0]!.getMsbD 0 <;> rfl
  have sent : cfb1Shift core.iv (tmp[0]! ^^^ if bit then 0x80 else 0) =
      cfb1Shift core.iv (if (tmp[0]!.getMsbD 0 ^^ bit) then 0x80 else 0) := by
    refine cfb1Shift_congr core.iv ?_
    rw [top, bits]
  simp only [cfb1Step, cfb1Crypt, if_true, Bool.false_eq_true, if_false, ← ht, bits, back, sent]

theorem cfb1Machine_inverse : (cfb1Machine m true).Inverse (cfb1Machine m false) := by
  refine ofStep_inverse fun s x => ?_
  have bits := ofStep_inverse (cfb1Step_inverse m) s.1 (bitsOf x) (Nat.one_dvd _)
  have length : (runSteps (cfb1Step m true) s.1 (bitsOf x)).1.length = 8 := by
    rw [length_runSteps]
    simp [bitsOf]
  have bits : runSteps (cfb1Step m false) s.1 (runSteps (cfb1Step m true) s.1 (bitsOf x)).1 =
    (bitsOf x, (runSteps (cfb1Step m true) s.1 (bitsOf x)).2) := bits
  simp only [cfb1Byte, bitsOf_byteOfBits length, bits, byteOfBits_bitsOf]

/-! ## The loop -/

theorem bit_of_mask (x : Byte) {pos : Nat} (lt : pos < 8) :
    (if x &&& ((1 : Byte) <<< pos) = 0 then 0 else 0x80 : Byte) =
      if x.getMsbD (7 - pos) then 0x80 else 0 := by
  have mask : x &&& ((1 : Byte) <<< pos) = if x.getLsbD pos then (1 : Byte) <<< pos else 0 :=
    BitVec.and_twoPow x pos
  have top : x.getMsbD (7 - pos) = x.getLsbD pos := by
    rw [BitVec.getMsbD_eq_getLsbD, decide_eq_true (by omega), Bool.true_and]
    congr 1
    omega
  have set : (1 : Byte) <<< pos ≠ 0 := by
    intro zero
    have bit := congrArg (·.getLsbD pos) zero
    simp [lt] at bit
  rw [mask, top]
  cases x.getLsbD pos with
  | false => rfl
  | true => exact if_neg set

theorem put_bit (old y : Byte) {i j : Nat} (hi : i < 8) (hj : j < 8) :
    ((old &&& ~~~((1 : Byte) <<< (7 - i))) ||| ((y >>> 7) <<< (7 - i))).getMsbD j =
      if j = i then y.getMsbD 0 else old.getMsbD j := by
  have one (n : Nat) : ((1 : Byte) <<< (7 - i)).getLsbD n = decide (n < 8 ∧ n = 7 - i) := by
    rw [BitVec.getLsbD_shiftLeft]
    have unit (k : Nat) : (1 : Byte).getLsbD k = decide (k = 0) := by
      rw [show (1 : Byte) = 1#8 from rfl, BitVec.getLsbD_one]
      simp
    rw [unit]
    rw [Bool.eq_iff_iff]
    simp only [Bool.and_eq_true, Bool.not_eq_true', decide_eq_true_eq, decide_eq_false_iff_not]
    omega
  have last (k : Nat) (h : k ≠ 0) : y.getLsbD (7 + k) = false := BitVec.getLsbD_of_ge y _ (by omega)
  simp only [BitVec.getMsbD_eq_getLsbD, BitVec.getLsbD_or, BitVec.getLsbD_and, BitVec.getLsbD_not,
    one, BitVec.getLsbD_shiftLeft, BitVec.getLsbD_ushiftRight]
  rcases Nat.lt_trichotomy j i with before | rfl | behind
  · have apart : 7 - j - (7 - i) ≠ 0 := by omega
    have other : 7 - j ≠ 7 - i := by omega
    have small : 7 - j < 8 := by omega
    simp [last _ apart, other, small, Nat.ne_of_lt before]
  · have small : 7 - j < 8 := by omega
    simp [small, hj]
  · have below : 7 - j < 7 - i := by omega
    have small : 7 - j < 8 := by omega
    simp [below, small, Nat.ne_of_gt behind, Nat.ne_of_lt below]

theorem cfb1Turns_eq (p q k : Nat) (mem : Memory Byte) (ctx : ModesStreamCtx κ) :
    Nat.fold 8 (fun j _ t => cfb1Turn m enc p q (8 * k + j) t) (mem, ctx) =
      let r := cfb1Byte m enc ctx.toStreamCore (mem (p + k))
      (Function.update mem (q + k) r.1, { ctx with toStreamCore := r.2 }) := by
  obtain ⟨bits, hbits⟩ : ∃ bits, bits = bitsOf (mem (p + k)) := ⟨_, rfl⟩
  have length : bits.length = 8 := by simp [hbits, bitsOf]
  -- after `i` turns the output has the first `i` bits of the result, and the others of before
  have inv := fold_inv (fun i (t : Memory Byte × ModesStreamCtx κ) => i ≤ 8 →
      let run := runSteps (cfb1Step m enc) ctx.toStreamCore (bits.take i)
      t.2 = { ctx with toStreamCore := run.2 } ∧
      ∃ b : Byte, t.1 = Function.update mem (q + k) b ∧ ∀ j < 8, b.getMsbD j =
        if j < i then run.1.getD j false else (mem (q + k)).getMsbD j) 8
    (fun j _ t => cfb1Turn m enc p q (8 * k + j) t) (mem, ctx)
    (fun _ => ⟨rfl, mem (q + k), (Function.update_eq_self _ _).symm, fun j _ => rfl⟩) (by
    rintro i hi ⟨mem', ctx'⟩ inv _
    obtain ⟨rfl, b, rfl, known⟩ := inv (Nat.le_of_lt hi)
    obtain ⟨run, hrun⟩ : ∃ run, run = runSteps (cfb1Step m enc) ctx.toStreamCore (bits.take i) :=
      ⟨_, rfl⟩
    rw [← hrun] at known ⊢
    have index : (8 * k + i) / 8 = k ∧ 7 - (8 * k + i) % 8 = 7 - i := by omega
    have input : (Function.update mem (q + k) b (p + k)).getMsbD (7 - (7 - i)) = bits[i] := by
      have back : 7 - (7 - i) = i := by omega
      have bit : bits[i] = (mem (p + k)).getMsbD i := by simp [hbits, bitsOf]
      rw [back, bit]
      by_cases same : p + k = q + k
      · rw [same, Function.update_self, known i hi, if_neg (Nat.lt_irrefl i)]
      · rw [Function.update_of_ne same]
    have more : runSteps (cfb1Step m enc) ctx.toStreamCore (bits.take (i + 1)) =
        (run.1 ++ [(cfb1Step m enc run.2 bits[i]).1], (cfb1Step m enc run.2 bits[i]).2) := by
      rw [List.take_succ_eq_append_getElem (by omega), runSteps_append, ← hrun]
      rfl
    have count : run.1.length = i := by
      rw [hrun, length_runSteps, List.length_take_of_le (by omega)]
    have bit := bit_of_mask (Function.update mem (q + k) b (p + k)) (show 7 - i < 8 by omega)
    rw [input] at bit
    simp only [cfb1Turn, index, bit, more, Function.update_self, Function.update_idem]
    refine ⟨rfl, _, rfl, fun j hj => ?_⟩
    rw [put_bit _ _ hi hj, known j hj]
    rcases Nat.lt_trichotomy j i with before | rfl | behind
    · rw [if_neg (Nat.ne_of_lt before), if_pos before, if_pos (by omega),
        List.getD_append _ _ _ _ (by omega)]
    · rw [if_pos rfl, if_pos (Nat.lt_succ_self j), List.getD_append_right _ _ _ _ (by omega), count,
        Nat.sub_self]
      rfl
    · rw [if_neg (Nat.ne_of_gt behind), if_neg (by omega), if_neg (by omega)])
  obtain ⟨ctx', b, mem', known⟩ := inv (Nat.le_refl 8)
  rw [List.take_of_length_le (Nat.le_of_eq length)] at ctx' known
  have whole : b = byteOfBits (runSteps (cfb1Step m enc) ctx.toStreamCore bits).1 := by
    refine BitVec.eq_of_getMsbD_eq fun i hi => ?_
    rw [known i hi, if_pos hi, getMsbD_byteOfBits (by rw [length_runSteps, length])]
  rw [cfb1Byte, ← hbits]
  exact Prod.ext (by rw [mem', whole]) ctx'

theorem fold_mul {σ : Type*} (n count : Nat) (f : Nat → σ → σ) (s : σ) :
    Nat.fold (n * count) (fun i _ s => f i s) s =
      Nat.fold count (fun k _ s => Nat.fold n (fun j _ s => f (n * k + j) s) s) s := by
  induction count with
  | zero => rfl
  | succ count ih =>
    rw [Nat.fold_succ, ← ih]
    exact Nat.fold_add (fun i _ s => f i s) s

theorem modesCfbBitCrypt_eq {p q count : Nat} (clear : Clear p q count)
    (t : Memory Byte × ModesStreamCtx κ) :
    let r := modesCfbBitCrypt m enc p q (8 * count) t
    (r.1, r.2.view) = (cfb1Machine m enc).call p q count (t.1, t.2.view) := by
  obtain ⟨body, hb⟩ : ∃ body : Nat → Memory Byte × ModesStreamCtx κ → Memory Byte ×
      ModesStreamCtx κ, body = fun k t =>
        Nat.fold 8 (fun j _ t => cfb1Turn m enc p q (8 * k + j) t) t := ⟨_, rfl⟩
  have step (k : Nat) (t : Memory Byte × ModesStreamCtx κ) : body k t =
      let r := cfb1Byte m enc t.2.toStreamCore (t.1 (p + k))
      (Function.update t.1 (q + k) r.1, { t.2 with toStreamCore := r.2 }) := by
    rw [hb]
    exact cfb1Turns_eq m enc p q k t.1 t.2
  have loop := (cfb1Machine m enc).fold_call (Nat.one_dvd 1)
    (fun _ _ (ctx : ModesStreamCtx κ) => ctx.view) (fun _ _ => True)
    (show Clear p q (1 * count) by rwa [Nat.one_mul]) body (by
      intro k hk t _
      refine ⟨?_, trivial⟩
      rw [step, cfb1Machine, ofStep_call_one, Nat.one_mul]
      simp only [ModesStreamCtx.view]) t trivial
  rw [Nat.one_mul] at loop
  have source : modesCfbBitCrypt m enc p q (8 * count) t =
      Nat.fold count (fun k _ t => body k t) t := by
    rw [modesCfbBitCrypt, hb]
    exact fold_mul 8 count (fun i t => cfb1Turn m enc p q i t) t
  rw [source]
  exact loop.1

end SystemsLab.ModesCfbBits
