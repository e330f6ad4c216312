import SystemsLab.General.WindowStream
import SystemsLab.Modes.BlockCrypt
import Mathlib.Data.Nat.Digits.Defs

/-! The stream modes CTR, OFB and CFB of openHiTLS (`modes_ctr.c`, `modes_ofb.c`, `modes_cfb.c`).
Each of them mixes the text with a window of sixteen bytes, byte by byte, in words or in
blocks; the loops are shown to be one call of the machine that reads a byte at a time. -/

namespace SystemsLab.ModesStreamCrypt
open ByteWord Textbook Buffer CountedLoop StreamMachine WindowStream Sm4OpenHitls Sm4PortableCbc
open ModesBlockCrypt

/-- The fields of `MODES_CipherCommonCtx` that the keystream comes from. -/
structure StreamCore (κ : Type) where
  ciphCtx : κ
  iv : Block
  buf : Block

/-- All fields that the modes use, with the addresses of the arrays `iv` and `buf`. -/
structure ModesStreamCtx (κ : Type) extends StreamCore κ where
  ivAt : Nat
  bufAt : Nat
  offset : Nat

structure StreamResult (κ : Type) where
  ret : Int
  ctx : ModesStreamCtx κ
  mem : Memory Byte

variable {κ : Type}

def ModesStreamCtx.view (ctx : ModesStreamCtx κ) : StreamCore κ × Nat :=
  (ctx.toStreamCore, ctx.offset)

/-! ## The counter -/

def incCounterByte (i : Nat) (r : Block × BitVec 16) : Block × BitVec 16 :=
  let carry := r.2 + r.1[i]!.setWidth 16
  (r.1.setIfInBounds i ((carry &&& 0xFF).setWidth 8), carry >>> 8)

def modeIncCounter (counter : Block) : Block :=
  (Nat.fold 16 (fun k _ r => incCounterByte (15 - k) r) (counter, 1)).1

/-- The number in a counter, most significant byte first. -/
def counterValue (counter : Block) : Nat :=
  Nat.ofDigits 256 (counter.toList.reverse.map BitVec.toNat)

def counterBlock (n : Nat) : Block :=
  Vector.ofFn fun i : Fin 16 => BitVec.ofNat 8 (n / 256 ^ (15 - i.val))

theorem counterBlock_counterValue (b : Block) : counterBlock (counterValue b) = b := by
  apply Vector.ext
  intro i hi
  obtain ⟨digits, hd⟩ : ∃ digits, digits = b.toList.reverse.map BitVec.toNat := ⟨_, rfl⟩
  have length : digits.length = 16 := by simp [hd]
  have entry : digits.drop (15 - i) = b[i].toNat :: digits.drop (15 - i + 1) := by
    rw [List.drop_eq_getElem_cons (by omega)]
    congr 1
    subst hd
    simp only [List.getElem_map, List.getElem_reverse, Vector.getElem_toList]
    congr 2
    simp
    omega
  have small : ∀ d ∈ digits, d < 256 := by
    intro d mem
    rw [hd] at mem
    obtain ⟨x, -, rfl⟩ := List.mem_map.mp mem
    exact x.isLt
  rw [counterBlock, Vector.getElem_ofFn, counterValue, ← hd,
    Nat.ofDigits_div_pow_eq_ofDigits_drop _ (by decide) _ small,
    entry, Nat.ofDigits_cons]
  apply BitVec.eq_of_toNat_eq
  have byte := b[i].isLt
  simp only [BitVec.toNat_ofNat]
  omega

theorem modeIncCounter_counterBlock (n : Nat) :
    modeIncCounter (counterBlock n) = counterBlock (n + 1) := by
  have inv := fold_inv (fun k (r : Block × BitVec 16) => k ≤ 16 →
      r.2.toNat = (n + 1) / 256 ^ k - n / 256 ^ k ∧
      ∀ j, (h : j < 16) → r.1[j] =
        BitVec.ofNat 8 ((if 16 - k ≤ j then n + 1 else n) / 256 ^ (15 - j))) 16
    (fun k _ r => incCounterByte (15 - k) r) (counterBlock n, 1)
    (fun _ => ⟨by simp, fun j h => by
      rw [if_neg (by omega), counterBlock, Vector.getElem_ofFn]⟩) (by
    intro k hk r inv _
    obtain ⟨carry, bytes⟩ := inv (by omega)
    have here := bytes (15 - k) (by omega)
    rw [if_neg (by omega), show 15 - (15 - k) = k by omega] at here
    have next : (n + 1) / 256 ^ k ≤ n / 256 ^ k + 1 := by
      rw [Nat.succ_div]
      split_ifs <;> omega
    have mono : n / 256 ^ k ≤ (n + 1) / 256 ^ k := Nat.div_le_div_right (Nat.le_succ n)
    have total : (r.2 + r.1[15 - k]!.setWidth 16).toNat =
        (n + 1) / 256 ^ k - n / 256 ^ k + n / 256 ^ k % 256 := by
      rw [getElem!_pos r.1 (15 - k) (by omega), here, BitVec.toNat_add, BitVec.toNat_setWidth,
        BitVec.toNat_ofNat, carry]
      omega
    constructor
    · show ((r.2 + r.1[15 - k]!.setWidth 16) >>> 8).toNat = _
      have quotient (a : Nat) : a / 256 ^ (k + 1) = a / 256 ^ k / 256 := by
        rw [Nat.pow_succ, Nat.div_div_eq_div_mul]
      rw [BitVec.toNat_ushiftRight, total, Nat.shiftRight_eq_div_pow, quotient, quotient]
      omega
    · intro j h
      show (r.1.setIfInBounds (15 - k) _)[j] = _
      rw [Vector.getElem_setIfInBounds]
      split_ifs with eq low low
      · apply BitVec.eq_of_toNat_eq
        rw [← eq, show 15 - (15 - k) = k by omega, BitVec.toNat_setWidth, BitVec.toNat_and, total,
          BitVec.toNat_ofNat]
        rw [show (0xFF : BitVec 16).toNat = 2 ^ 8 - 1 from rfl, Nat.and_two_pow_sub_one_eq_mod]
        omega
      · omega
      · rw [bytes j h, if_pos (by omega)]
      · rw [bytes j h, if_neg (by omega)])
  obtain ⟨-, bytes⟩ := inv (Nat.le_refl 16)
  apply Vector.ext
  intro j hj
  exact (bytes j hj).trans (by rw [if_pos (by omega), counterBlock, Vector.getElem_ofFn])

theorem modeIncCounter_iterate (counter : Block) (i : Nat) :
    modeIncCounter^[i] counter = counterBlock (counterValue counter + i) := by
  induction i with
  | zero => exact (counterBlock_counterValue counter).symm
  | succ i ih => rw [Function.iterate_succ_apply', ih, modeIncCounter_counterBlock, Nat.add_assoc]

/-! ## The windows -/

section Windows

variable (m : EalSymMethod κ)

/-- CTR: the window is the encrypted counter. -/
def ctrWindow : Window (StreamCore κ) Byte 16 where
  mix x k := x ^^^ k
  first := 0
  refresh s := { s with
    buf := m.encryptBlock s.ciphCtx s.iv
    iv := modeIncCounter s.iv }
  key s t := s.buf[t]!
  absorb s _ _ := s
  cancel a t := by rw [BitVec.xor_assoc, BitVec.xor_self, BitVec.xor_zero]
  first_lt := by decide
  key_absorb _ _ _ _ _ := rfl

/-- OFB: the window is the chaining value, which is encrypted again and again. -/
def ofbWindow : Window (StreamCore κ) Byte 16 where
  mix x k := x ^^^ k
  first := 0
  refresh s := { s with iv := m.encryptBlock s.ciphCtx s.iv }
  key s t := s.iv[t]!
  absorb s _ _ := s
  cancel a t := by rw [BitVec.xor_assoc, BitVec.xor_self, BitVec.xor_zero]
  first_lt := by decide
  key_absorb _ _ _ _ _ := rfl

/-- CFB: the ciphertext is put in the place of the bytes it was made with. -/
def cfbWindow (first : Nat) (lt : first < 16) (refresh : StreamCore κ → StreamCore κ) :
    Window (StreamCore κ) Byte 16 where
  mix x k := x ^^^ k
  first := first
  refresh := refresh
  key s t := s.iv[t]!
  absorb s t c := { s with iv := s.iv.setIfInBounds t c }
  cancel a t := by rw [BitVec.xor_assoc, BitVec.xor_self, BitVec.xor_zero]
  first_lt := lt
  key_absorb s i c j apart := by
    by_cases inside : j < 16
    · rw [getElem!_pos _ j inside, getElem!_pos _ j inside,
        Vector.getElem_setIfInBounds_ne _ (by omega)]
    · rw [getElem!_neg _ j inside, getElem!_neg _ j inside]

end Windows

/-- The text is mixed with a block of the state, and goes nowhere else. -/
structure XorWindow (W : Window (StreamCore κ) Byte 16) (key : StreamCore κ → Block) : Prop where
  mix : W.mix = fun x k => x ^^^ k
  first : W.first = 0
  key : ∀ s t, W.key s t = (key s)[t]!
  still : ∀ s t c, W.absorb s t c = s

theorem ctrWindow_xor (m : EalSymMethod κ) : XorWindow (ctrWindow m) StreamCore.buf :=
  ⟨rfl, rfl, fun _ _ => rfl, fun _ _ _ => rfl⟩

theorem ofbWindow_xor (m : EalSymMethod κ) :
    XorWindow (ofbWindow m) fun s => s.iv :=
  ⟨rfl, rfl, fun _ _ => rfl, fun _ _ _ => rfl⟩

theorem ctrWindow_iterate (m : EalSymMethod κ) (k : κ) (iv buf : Block) (q : Nat) :
    ((ctrWindow m).refresh^[q + 1] ⟨k, iv, buf⟩).buf =
      m.encryptBlock k (counterBlock (counterValue iv + q)) := by
  have next (s : StreamCore κ) : (ctrWindow m).refresh s =
      { s with buf := m.encryptBlock s.ciphCtx s.iv, iv := modeIncCounter s.iv } := rfl
  have counts : ((ctrWindow m).refresh^[q] ⟨k, iv, buf⟩).ciphCtx = k ∧
      ((ctrWindow m).refresh^[q] ⟨k, iv, buf⟩).iv = modeIncCounter^[q] iv := by
    induction q with
    | zero => simp only [Function.iterate_zero, id, and_self]
    | succ q ih =>
      rw [Function.iterate_succ_apply', Function.iterate_succ_apply', next, ih.2]
      simp only [ih.1, and_self]
  rw [Function.iterate_succ_apply', next, counts.1, counts.2, modeIncCounter_iterate]

theorem ofbWindow_iterate (m : EalSymMethod κ) (k : κ) (iv buf : Block) (q : Nat) :
    (ofbWindow m).refresh^[q] ⟨k, iv, buf⟩ = ⟨k, (m.encryptBlock k)^[q] iv, buf⟩ := by
  induction q with
  | zero => rfl
  | succ q ih =>
    rw [Function.iterate_succ_apply', ih, Function.iterate_succ_apply']
    rfl

namespace XorWindow

variable {W : Window (StreamCore κ) Byte 16} {key : StreamCore κ → Block} (h : XorWindow W key)

include h

theorem turn (enc : Bool) (mem : Memory Byte) (s : StreamCore κ) {offset : Nat}
    (used : offset ≠ 0) (p q : Nat) :
    (W.machine enc).call p q 1 (mem, (s, offset)) =
      (Function.update mem q (mem p ^^^ (key s)[offset]!), (s, (offset + 1) % 16)) := by
  rw [W.call_one enc mem s used, W.places_call_one, h.mix, h.key]
  simp only [h.still, Window.wrapCall]

theorem whole (enc : Bool) (mem : Memory Byte) (s : StreamCore κ) (p q : Nat) :
    (W.machine enc).call p q 16 (mem, (s, 0)) =
      (write mem q (sm4XorBlock (read 16 mem p) (key (W.refresh s))), (W.refresh s, 0)) := by
  have mixed : W.mixed (W.refresh s) 0 (load mem p 16) =
      (sm4XorBlock (read 16 mem p) (key (W.refresh s))).toList := by
    refine List.ext_getElem (by simp [Window.length_mixed]) fun i h₁ h₂ => ?_
    have hi : i < 16 := by simpa using h₂
    simp [Window.mixed, h.mix, h.key, sm4XorBlock, hi]
  rw [W.call_refresh enc mem s p q (by decide) (by rw [h.first]), W.places_call]
  simp only [h.first, mixed, Window.absorbed_eq h.still, store_toList, Window.wrapCall]

theorem part (enc : Bool) (mem : Memory Byte) (s : StreamCore κ) {p q len : Nat}
    (nonempty : len ≠ 0) (short : len < 16) (clear : Clear p q len) {τ : Type}
    (view : Nat → τ → StreamCore κ × Nat)
    (body : Nat → Memory Byte × τ → Memory Byte × τ)
    (turn : ∀ i < len, ∀ t, view i t.2 = (W.refresh s, i) → (body i t).1 =
      Function.update t.1 (q + i) (t.1 (p + i) ^^^ (key (W.refresh s))[i]!) ∧
      view (i + 1) (body i t).2 = (W.refresh s, i + 1))
    (t : τ) (start : view 0 t = (W.refresh s, 0)) :
    let r := Nat.fold len (fun i _ t => body i t) (mem, t)
    (r.1, view len r.2) = (W.machine enc).call p q len (mem, (s, 0)) := by
  have loop := (W.places enc).fold_call (Nat.one_dvd 1) (fun i _ => view i)
    (fun i t => view i t = (W.refresh s, i)) (by rwa [Nat.one_mul]) body (by
      intro i hi t good
      obtain ⟨bytes, next⟩ := turn i hi t good
      refine ⟨?_, next⟩
      rw [next, bytes, good, W.places_call_one]
      simp only [h.mix, h.key, h.still, Nat.one_mul]) (mem, t) start
  rw [Nat.one_mul] at loop
  obtain ⟨same, last⟩ := loop
  have fits : W.first + len ≤ 16 := by
    rw [h.first]
    omega
  rw [W.call_refresh enc mem s p q nonempty fits, h.first, ← start, ← same]
  simp only [last, Window.wrapCall, Nat.mod_eq_of_lt short]

end XorWindow

/-! ## CTR -/

section Ctr

variable (m : EalSymMethod κ)

def ctrLastTurn (p q : Nat) (t : Memory Byte × ModesStreamCtx κ) :
    Memory Byte × ModesStreamCtx κ :=
  (Function.update t.1 q (t.1 p ^^^ t.2.buf[t.2.offset]!),
    { t.2 with offset := (t.2.offset + 1) &&& (16 - 1) })

def ctrNext (ctx : ModesStreamCtx κ) : ModesStreamCtx κ :=
  { ctx with
    buf := m.encryptBlock ctx.ciphCtx ctx.iv
    iv := modeIncCounter ctx.iv }

def ctrBlock (p q : Nat) (t : Memory Byte × ModesStreamCtx κ) : Memory Byte × ModesStreamCtx κ :=
  let ctx := ctrNext m t.2
  (dataXor 8 t.1 (.shared p) ctx.buf ctx.bufAt q, ctx)

def ctrRemTurn (p q : Nat) (t : Memory Byte × ModesStreamCtx κ) :
    Memory Byte × ModesStreamCtx κ :=
  let offset := t.2.offset
  (Function.update t.1 (q + offset) (t.1 (p + offset) ^^^ t.2.buf[offset]!),
    { t.2 with offset := offset + 1 })

def modesCtrRemHandle (p q len : Nat) (t : Memory Byte × ModesStreamCtx κ) :
    Memory Byte × ModesStreamCtx κ :=
  Nat.fold len (fun _ _ t => ctrRemTurn p q t) (t.1, { ctrNext m t.2 with offset := 0 })

def ctrLoops : Loops Byte (ModesStreamCtx κ) where
  unit := 16
  busy ctx := ctx.offset ≠ 0
  turn := ctrLastTurn
  whole := ctrBlock m
  part := modesCtrRemHandle m

def modesCtrCrypt (ctx : ModesStreamCtx κ) (mem : Memory Byte) (inp out len : Nat) :
    StreamResult κ :=
  let r := (ctrLoops m).run inp out len (mem, ctx)
  ⟨cryptSuccess, r.2, r.1⟩

theorem ctrLoops_feeds (enc : Bool) :
    (ctrLoops m).Feeds ((ctrWindow m).machine enc) ModesStreamCtx.view where
  unit_pos := Nat.succ_pos 15
  turn p q t busy := by
    have used : t.2.offset ≠ 0 := of_decide_eq_true busy
    have wrap : (t.2.offset + 1) &&& (16 - 1) = (t.2.offset + 1) % 16 :=
      Nat.and_two_pow_sub_one_eq_mod _ 4
    simp only [ModesStreamCtx.view, (ctrWindow_xor m).turn enc t.1 _ used, ctrLoops, ctrLastTurn,
      wrap]
  whole p q t idle clear := by
    obtain ⟨mem, core, ivAt, bufAt, offset⟩ := t
    obtain rfl : offset = 0 := by simpa [ctrLoops] using idle
    have xor := dataXor_eq (by decide : 8 ∣ 16) mem (.shared p)
      (m.encryptBlock core.ciphCtx core.iv) bufAt q (by rintro _ ⟨⟩; exact clear)
    refine ⟨?_, rfl⟩
    refine Eq.trans ?_ ((ctrWindow_xor m).whole enc mem core p q).symm
    simp only [ctrLoops, ctrBlock, ctrNext, xor]
    rfl
  part p q len t idle pos short clear := by
    obtain ⟨mem, core, ivAt, bufAt, offset⟩ := t
    obtain rfl : offset = 0 := by simpa [ctrLoops] using idle
    refine (ctrWindow_xor m).part enc mem core (Nat.ne_of_gt pos) short clear
      (fun _ => ModesStreamCtx.view) (fun _ => ctrRemTurn p q) ?_ _ rfl
    rintro i hi ⟨mem', core', ivAt', bufAt', offset'⟩ good
    obtain ⟨rfl, rfl⟩ := Prod.mk.inj good
    exact ⟨rfl, rfl⟩

end Ctr

/-! ## OFB -/

section Ofb

variable (m : EalSymMethod κ)

def ofbTurn (p q : Nat) (t : Memory Byte × ModesStreamCtx κ) : Memory Byte × ModesStreamCtx κ :=
  (Function.update t.1 q (t.2.iv[t.2.offset]! ^^^ t.1 p),
    { t.2 with offset := (t.2.offset + 1) % 16 })

def encryptIv (ctx : ModesStreamCtx κ) : ModesStreamCtx κ :=
  { ctx with iv := m.encryptBlock ctx.ciphCtx ctx.iv }

def ofbBlock (p q : Nat) (t : Memory Byte × ModesStreamCtx κ) : Memory Byte × ModesStreamCtx κ :=
  let ctx := encryptIv m t.2
  (dataXor 4 t.1 (.shared p) ctx.iv ctx.ivAt q, ctx)

def ofbPart (p q len : Nat) (t : Memory Byte × ModesStreamCtx κ) :
    Memory Byte × ModesStreamCtx κ :=
  let r := Nat.fold len (fun i _ (t : Memory Byte × ModesStreamCtx κ) =>
    (Function.update t.1 (q + i) (t.1 (p + i) ^^^ t.2.iv[i]!), t.2)) (t.1, encryptIv m t.2)
  (r.1, { r.2 with offset := len })

def ofbLoops : Loops Byte (ModesStreamCtx κ) where
  unit := 16
  busy ctx := 0 < ctx.offset
  turn := ofbTurn
  whole := ofbBlock m
  part := ofbPart m

def modesOfbCrypt (ctx : ModesStreamCtx κ) (mem : Memory Byte) (inp out len : Nat) :
    StreamResult κ :=
  let r := (ofbLoops m).run inp out len (mem, ctx)
  ⟨cryptSuccess, r.2, r.1⟩

theorem ofbLoops_feeds (enc : Bool) :
    (ofbLoops m).Feeds ((ofbWindow m).machine enc) ModesStreamCtx.view where
  unit_pos := Nat.succ_pos 15
  turn p q t busy := by
    have used : t.2.offset ≠ 0 := Nat.ne_of_gt (of_decide_eq_true busy)
    simp only [ModesStreamCtx.view, (ofbWindow_xor m).turn enc t.1 _ used, ofbLoops, ofbTurn,
      BitVec.xor_comm (t.1 p)]
  whole p q t idle clear := by
    obtain ⟨mem, core, ivAt, bufAt, offset⟩ := t
    obtain rfl : offset = 0 := by simpa [ofbLoops] using idle
    have xor := dataXor_eq (by decide : 4 ∣ 16) mem (.shared p)
      (m.encryptBlock core.ciphCtx core.iv) ivAt q (by rintro _ ⟨⟩; exact clear)
    refine ⟨?_, rfl⟩
    refine Eq.trans ?_ ((ofbWindow_xor m).whole enc mem core p q).symm
    simp only [ofbLoops, ofbBlock, encryptIv, xor]
    rfl
  part p q len t idle pos short clear := by
    obtain ⟨mem, core, ivAt, bufAt, offset⟩ := t
    obtain rfl : offset = 0 := by simpa [ofbLoops] using idle
    refine (ofbWindow_xor m).part enc mem core (Nat.ne_of_gt pos) short clear
      (fun i (ctx : ModesStreamCtx κ) => (ctx.toStreamCore, i)) (fun i t =>
        (Function.update t.1 (q + i) (t.1 (p + i) ^^^ t.2.iv[i]!), t.2)) ?_
      (encryptIv m ⟨core, ivAt, bufAt, 0⟩) rfl
    rintro i hi ⟨mem', core', ivAt', bufAt', offset'⟩ good
    obtain ⟨rfl, -⟩ := Prod.mk.inj good
    exact ⟨rfl, rfl⟩

end Ofb

/-! ## CFB -/

section Cfb

variable (m : EalSymMethod κ) (enc : Bool)

def cfbByte (i p q : Nat) (t : Memory Byte × ModesStreamCtx κ) : Memory Byte × ModesStreamCtx κ :=
  let x := t.1 p
  let y := t.2.iv[i]! ^^^ x
  (Function.update t.1 q y,
    { t.2 with iv := t.2.iv.setIfInBounds i (if enc then y else x) })

def cfbLastTurn (p q : Nat) (t : Memory Byte × ModesStreamCtx κ) :
    Memory Byte × ModesStreamCtx κ :=
  let r := cfbByte enc t.2.offset p q t
  (r.1, { r.2 with offset := (t.2.offset + 1) % 16 })

/-! ### Eight bits and sixty-four -/

/-- The chaining value moves up by `f` bytes; `memmove_s` leaves the last ones as they are. -/
def cfbShift (f : Nat) (iv : Block) : Block :=
  Vector.ofFn fun j : Fin 16 => if j.val < 16 - f then iv[j.val + f]! else iv[j.val]!

/-- The places behind the first `k` bytes of the feedback, filled with what is left of `tmp`. -/
def cfbFill (f k : Nat) (iv tmp : Block) : Block :=
  Vector.ofFn fun j : Fin 16 => if 16 - f + k ≤ j.val then tmp[j.val - (16 - f)]! else iv[j.val]!

def cfbNext (f : Nat) (ctx : ModesStreamCtx κ) : ModesStreamCtx κ :=
  { ctx with
    buf := m.encryptBlock ctx.ciphCtx ctx.iv
    iv := cfbShift f ctx.iv }

def cfbTurn (f p q k : Nat) (t : Memory Byte × ModesStreamCtx κ) :
    Memory Byte × ModesStreamCtx κ :=
  let x := t.1 (p + k)
  let y := x ^^^ t.2.buf[k]!
  (Function.update t.1 (q + k) y,
    { t.2 with iv := t.2.iv.setIfInBounds (16 - f + k) (if enc then y else x) })

def cfbWhole (f p q : Nat) (t : Memory Byte × ModesStreamCtx κ) : Memory Byte × ModesStreamCtx κ :=
  Nat.fold f (fun k _ t => cfbTurn enc f p q k t) (t.1, cfbNext m f t.2)

def cfbPart (f p q len : Nat) (t : Memory Byte × ModesStreamCtx κ) :
    Memory Byte × ModesStreamCtx κ :=
  let r := Nat.fold len (fun k _ t => cfbTurn enc f p q k t) (t.1, cfbNext m f t.2)
  (r.1, { r.2 with
    iv := cfbFill f len r.2.iv r.2.buf
    offset := 16 - f + len })

def cfbLoops (f : Nat) : Loops Byte (ModesStreamCtx κ) where
  unit := f
  busy ctx := 0 < ctx.offset
  turn := cfbLastTurn enc
  whole := cfbWhole m enc f
  part := cfbPart m enc f

def cfbBytesWindow (f : Nat) (pos : 0 < f) : Window (StreamCore κ) Byte 16 :=
  cfbWindow (16 - f) (by omega) fun s =>
    let buf := m.encryptBlock s.ciphCtx s.iv
    { s with
      buf := buf
      iv := cfbFill f 0 (cfbShift f s.iv) buf }

theorem cfbFill_key {f k : Nat} (lt : k < f) (le : f ≤ 16) (iv tmp : Block) :
    (cfbFill f k iv tmp)[16 - f + k]! = tmp[k]! := by
  rw [getElem!_pos _ _ (by omega), cfbFill, Vector.getElem_ofFn, if_pos (Nat.le_refl _)]
  show tmp[16 - f + k - (16 - f)]! = _
  rw [Nat.add_sub_cancel_left]

theorem cfbFill_set {f : Nat} (k : Nat) (le : f ≤ 16) (iv tmp : Block) (c : Byte) :
    (cfbFill f k iv tmp).setIfInBounds (16 - f + k) c =
      cfbFill f (k + 1) (iv.setIfInBounds (16 - f + k) c) tmp := by
  apply Vector.ext
  intro j hj
  simp only [Vector.getElem_setIfInBounds, cfbFill, Vector.getElem_ofFn, getElemBang_eq _ hj]
  split_ifs <;> first | rfl | omega

theorem cfbFill_full (f : Nat) (le : f ≤ 16) (iv tmp : Block) : cfbFill f f iv tmp = iv := by
  apply Vector.ext
  intro j hj
  rw [cfbFill, Vector.getElem_ofFn, if_neg (by omega), getElemBang_eq _ hj]

theorem cfbTurns_eq {f len : Nat} (pos : 0 < f) (le : f ≤ 16) (few : len ≤ f) {p q : Nat}
    (clear : Clear p q len) (mem : Memory Byte) (ctx : ModesStreamCtx κ) :
    let r := Nat.fold len (fun k _ t => cfbTurn enc f p q k t) (mem, cfbNext m f ctx)
    let W := cfbBytesWindow m f pos
    (r.1, ({ r.2.toStreamCore with iv := cfbFill f len r.2.iv r.2.buf }, 16 - f + len)) =
        (W.places enc).call p q len (mem, (W.refresh ctx.toStreamCore, W.first)) ∧
      r.2.offset = ctx.offset := by
  have loop := ((cfbBytesWindow m f pos).places enc).fold_call (Nat.one_dvd 1)
    (fun k _ (ctx : ModesStreamCtx κ) =>
      ({ ctx.toStreamCore with iv := cfbFill f k ctx.iv ctx.buf }, 16 - f + k))
    (fun _ ctx' => ctx'.offset = ctx.offset) (by rwa [Nat.one_mul])
    (fun k t => cfbTurn enc f p q k t) (by
      intro k hk t same
      refine ⟨?_, same⟩
      rw [Window.places_call_one]
      simp only [cfbBytesWindow, cfbWindow, cfbFill_key (by omega : k < f) le,
        cfbFill_set k le, Nat.one_mul, cfbTurn, Nat.add_assoc])
    (mem, cfbNext m f ctx) (by simp only [cfbNext])
  have begun : (({ (cfbNext m f ctx).toStreamCore with
        iv := cfbFill f 0 (cfbNext m f ctx).iv (cfbNext m f ctx).buf } : StreamCore κ),
        16 - f + 0) =
      ((cfbBytesWindow m f pos).refresh ctx.toStreamCore, (cfbBytesWindow m f pos).first) := by
    simp only [cfbNext, cfbBytesWindow, cfbWindow, Nat.add_zero]
  simp only [Nat.one_mul, begun] at loop
  exact loop

theorem cfbLoops_feeds {f : Nat} (pos : 0 < f) (le : f ≤ 16) :
    (cfbLoops m enc f).Feeds ((cfbBytesWindow m f pos).machine enc) ModesStreamCtx.view where
  unit_pos := pos
  turn p q t busy := by
    have used : t.2.offset ≠ 0 := Nat.ne_of_gt (of_decide_eq_true busy)
    simp only [ModesStreamCtx.view]
    rw [Window.call_one _ _ _ _ used, Window.places_call_one]
    simp only [cfbLoops, cfbLastTurn, cfbByte, cfbBytesWindow, cfbWindow, Window.wrapCall,
      BitVec.xor_comm (t.1 p)]
  whole p q t idle clear := by
    obtain ⟨mem, core, ivAt, bufAt, offset⟩ := t
    obtain rfl : offset = 0 := by simpa [cfbLoops] using idle
    have clear : Clear p q f := clear
    obtain ⟨same, fresh⟩ :=
      cfbTurns_eq m enc pos le (Nat.le_refl f) clear mem ⟨core, ivAt, bufAt, 0⟩
    have full : 16 - f + f = 16 := Nat.sub_add_cancel le
    have call := (cfbBytesWindow m f pos).call_refresh enc mem core p q (Nat.ne_of_gt pos)
      (Nat.le_of_eq full)
    obtain ⟨r, hr⟩ : ∃ r, r = Nat.fold f (fun k _ t => cfbTurn enc f p q k t)
      (mem, cfbNext m f ⟨core, ivAt, bufAt, 0⟩) := ⟨_, rfl⟩
    rw [← hr, cfbFill_full f le, full] at same
    rw [← hr] at fresh
    have result : (cfbLoops m enc f).whole p q (mem, ⟨core, ivAt, bufAt, 0⟩) = r := hr.symm
    rw [result]
    refine ⟨?_, by simp [cfbLoops, fresh]⟩
    refine Eq.trans ?_ call.symm
    simp only [← same, Window.wrapCall, ModesStreamCtx.view, fresh, Nat.mod_self]
  part p q len t idle nonempty short clear := by
    obtain ⟨mem, core, ivAt, bufAt, offset⟩ := t
    obtain rfl : offset = 0 := by simpa [cfbLoops] using idle
    have short : len < f := short
    obtain ⟨same, -⟩ :=
      cfbTurns_eq m enc pos le (Nat.le_of_lt short) clear mem ⟨core, ivAt, bufAt, 0⟩
    have inside : 16 - f + len < 16 := by omega
    have call := (cfbBytesWindow m f pos).call_refresh enc mem core p q (Nat.ne_of_gt nonempty)
      (Nat.le_of_lt inside)
    refine Eq.trans ?_ call.symm
    rw [← same, Window.wrapCall]
    simp only [Nat.mod_eq_of_lt inside]
    rfl

/-! ### A hundred and twenty-eight bits -/

def setWord (iv : Block) (i : Nat) (w : Vector Byte 8) : Block :=
  Vector.ofFn fun j : Fin 16 => if i ≤ j.val ∧ j.val < i + 8 then w[j.val - i]! else iv[j.val]!

def cfb128Word (p q i : Nat) (t : Memory Byte × ModesStreamCtx κ) :
    Memory Byte × ModesStreamCtx κ :=
  let ti := read 8 t.1 (p + i)
  let x : Vector Byte 8 := Vector.ofFn fun j : Fin 8 => t.2.iv[i + j.val]! ^^^ ti[j.val]!
  (write t.1 (q + i) x, { t.2 with iv := setWord t.2.iv i (if enc then x else ti) })

def cfb128Block (p q : Nat) (t : Memory Byte × ModesStreamCtx κ) :
    Memory Byte × ModesStreamCtx κ :=
  Nat.fold 2 (fun i _ t => cfb128Word enc p q (8 * i) t) (t.1, encryptIv m t.2)

def cfb128Part (p q len : Nat) (t : Memory Byte × ModesStreamCtx κ) :
    Memory Byte × ModesStreamCtx κ :=
  let r := Nat.fold len (fun i _ t => cfbByte enc i (p + i) (q + i) t) (t.1, encryptIv m t.2)
  (r.1, { r.2 with offset := len })

def cfb128Loops : Loops Byte (ModesStreamCtx κ) where
  unit := 16
  busy ctx := 0 < ctx.offset
  turn := cfbLastTurn enc
  whole := cfb128Block m enc
  part := cfb128Part m enc

def cfb128Window : Window (StreamCore κ) Byte 16 :=
  cfbWindow 0 (by decide) fun s => { s with iv := m.encryptBlock s.ciphCtx s.iv }

theorem cfb128Window_absorbed (s : StreamCore κ) (p : Nat) (a : List Byte) :
    (cfb128Window m).absorbed s p a = { s with
      iv := Vector.ofFn fun j : Fin 16 =>
        if p ≤ j.val ∧ j.val < p + a.length then a.getD (j.val - p) 0 else s.iv[j.val]! } := by
  induction a generalizing s p with
  | nil =>
    have same : (Vector.ofFn fun j : Fin 16 => if p ≤ j.val ∧ j.val < p + ([] : List Byte).length
        then ([] : List Byte).getD (j.val - p) 0 else s.iv[j.val]!) = s.iv := by
      apply Vector.ext
      intro j hj
      rw [Vector.getElem_ofFn, if_neg (by simp), getElemBang_eq _ hj]
    rw [same]
    rfl
  | cons c a ih =>
    have next : ((cfb128Window m).absorb s p c).iv = s.iv.setIfInBounds p c := rfl
    rw [Window.absorbed, ih, next]
    have bytes : (Vector.ofFn fun j : Fin 16 => if p + 1 ≤ j.val ∧ j.val < p + 1 + a.length
        then a.getD (j.val - (p + 1)) 0 else (s.iv.setIfInBounds p c)[j.val]!) =
        Vector.ofFn fun j : Fin 16 => if p ≤ j.val ∧ j.val < p + (c :: a).length
          then (c :: a).getD (j.val - p) 0 else s.iv[j.val]! := by
      apply Vector.ext
      intro j hj
      simp only [Vector.getElem_ofFn, getElemBang_eq _ hj, Vector.getElem_setIfInBounds,
        List.length_cons]
      rcases Nat.lt_trichotomy j p with before | rfl | behind
      · rw [if_neg (by omega), if_neg (by omega), if_neg (by omega)]
      · rw [if_neg (by omega), if_pos rfl, if_pos (by omega), Nat.sub_self, List.getD_cons_zero]
      · rw [if_neg (by omega : ¬ p = j), show j - p = j - (p + 1) + 1 by omega,
          List.getD_cons_succ]
        exact if_congr (by omega) rfl rfl
    rw [bytes]
    rfl

theorem cfb128Word_eq (mem : Memory Byte) (ctx : ModesStreamCtx κ) (i p q : Nat) :
    let r := cfb128Word enc p q i (mem, ctx)
    (r.1, (r.2.toStreamCore, i + 8)) =
      ((cfb128Window m).places enc).call (p + i) (q + i) 8 (mem, (ctx.toStreamCore, i)) := by
  intro r
  obtain ⟨x, hx⟩ : ∃ x : Vector Byte 8,
    x = Vector.ofFn fun j : Fin 8 => ctx.iv[i + j.val]! ^^^ (read 8 mem (p + i))[j.val]! := ⟨_, rfl⟩
  have mixed : (cfb128Window m).mixed ctx.toStreamCore i (load mem (p + i) 8) = x.toList := by
    refine List.ext_getElem (by simp [Window.length_mixed]) fun j h₁ h₂ => ?_
    simp [hx, Window.mixed, cfb128Window, cfbWindow, BitVec.xor_comm]
  have word (w : Vector Byte 8) : (Vector.ofFn fun j : Fin 16 =>
      if i ≤ j.val ∧ j.val < i + w.toList.length then w.toList.getD (j.val - i) 0
      else ctx.iv[j.val]!) = setWord ctx.iv i w := by
    apply Vector.ext
    intro j hj
    simp only [setWord, Vector.getElem_ofFn, Vector.length_toList]
    split_ifs with inside
    · have lt : j - i < 8 := by omega
      simp [lt]
    · rfl
  rw [Window.places_call]
  simp only [mixed, store_toList]
  cases enc with
  | true =>
    simp only [if_true, cfb128Window_absorbed, word]
    simp only [r, cfb128Word, ← hx, if_true]
  | false =>
    simp only [Bool.false_eq_true, if_false, cfb128Window_absorbed, ← toList_read, word]
    simp only [r, cfb128Word, ← hx, Bool.false_eq_true, if_false]

theorem cfb128Loops_feeds :
    (cfb128Loops m enc).Feeds ((cfb128Window m).machine enc) ModesStreamCtx.view where
  unit_pos := Nat.succ_pos 15
  turn p q t busy := by
    have used : t.2.offset ≠ 0 := Nat.ne_of_gt (of_decide_eq_true busy)
    simp only [ModesStreamCtx.view]
    rw [Window.call_one _ _ _ _ used, Window.places_call_one]
    simp only [cfb128Loops, cfbLastTurn, cfbByte, cfb128Window, cfbWindow, Window.wrapCall,
      BitVec.xor_comm (t.1 p)]
  whole p q t idle clear := by
    obtain ⟨mem, core, ivAt, bufAt, offset⟩ := t
    obtain rfl : offset = 0 := by simpa [cfb128Loops] using idle
    have clear : Clear p q 16 := clear
    have call :=
      (cfb128Window m).call_refresh enc mem core p q (by decide : 16 ≠ 0) (Nat.le_refl 16)
    obtain ⟨same, fresh⟩ := ((cfb128Window m).places enc).fold_call (Nat.one_dvd 8)
      (fun i _ (ctx : ModesStreamCtx κ) => (ctx.toStreamCore, 8 * i))
      (fun _ ctx => ctx.offset = 0) (show Clear p q (8 * 2) from clear)
      (fun i t => cfb128Word enc p q (8 * i) t) (by
        intro i hi t same
        exact ⟨cfb128Word_eq m enc t.1 t.2 (8 * i) p q, same⟩)
      (mem, encryptIv m ⟨core, ivAt, bufAt, 0⟩) rfl
    obtain ⟨r, hr⟩ : ∃ r, r = Nat.fold 2 (fun i _ t => cfb128Word enc p q (8 * i) t)
      (mem, encryptIv m ⟨core, ivAt, bufAt, 0⟩) := ⟨_, rfl⟩
    rw [← hr] at same fresh
    have result : (cfb128Loops m enc).whole p q (mem, ⟨core, ivAt, bufAt, 0⟩) = r := hr.symm
    rw [result]
    refine ⟨?_, by simp [cfb128Loops, fresh]⟩
    refine Eq.trans ?_ call.symm
    have start :
        (cfb128Window m).refresh core = (encryptIv m ⟨core, ivAt, bufAt, 0⟩).toStreamCore := rfl
    have first : (cfb128Window m).first = 8 * 0 := rfl
    rw [start, first, ← same]
    simp only [Window.wrapCall, ModesStreamCtx.view, fresh, Nat.mod_self]
  part p q len t idle nonempty short clear := by
    obtain ⟨mem, core, ivAt, bufAt, offset⟩ := t
    obtain rfl : offset = 0 := by simpa [cfb128Loops] using idle
    have short : len < 16 := short
    have call := (cfb128Window m).call_refresh enc mem core p q (Nat.ne_of_gt nonempty)
      (show 0 + len ≤ 16 by omega)
    obtain ⟨same, -⟩ := ((cfb128Window m).places enc).fold_call (Nat.one_dvd 1)
      (fun i _ (ctx : ModesStreamCtx κ) => (ctx.toStreamCore, i))
      (fun _ _ => True) (show Clear p q (1 * len) by rwa [Nat.one_mul])
      (fun i t => cfbByte enc i (p + i) (q + i) t) (by
        intro i hi t _
        refine ⟨?_, trivial⟩
        rw [Window.places_call_one]
        simp only [cfb128Window, cfbWindow, cfbByte, Nat.one_mul, BitVec.xor_comm (t.1 _)])
      (mem, encryptIv m ⟨core, ivAt, bufAt, 0⟩) trivial
    rw [Nat.one_mul] at same
    have start :
        (cfb128Window m).refresh core = (encryptIv m ⟨core, ivAt, bufAt, 0⟩).toStreamCore := rfl
    have first : (cfb128Window m).first = 0 := rfl
    refine Eq.trans ?_ call.symm
    rw [start, first, ← same]
    simp only [Window.wrapCall, Nat.mod_eq_of_lt short]
    rfl

end Cfb

end SystemsLab.ModesStreamCrypt
