import SystemsLab.Modes.CfbBits

/-! The CFB modes by their textbook description: the chaining value followed by the ciphertext is
one row, and every part of the text is mixed with the encryption of the sixteen bytes of the
row in front of it. This holds in both directions, so a lost part of the ciphertext does
no more harm than its own length and a block. -/

namespace SystemsLab.ModesFeedbackRegister
open ByteWord Textbook Buffer StreamMachine WindowStream ModesBlockCrypt ModesStreamCrypt
open ModesCfbBits

variable {κ : Type}

/-! ## Feedback of bytes -/

/-- The sixteen bytes in front of the part of `f` bytes of the ciphertext that has byte `i`. -/
def register (f : Nat) (iv : Block) (c : List Byte) (i : Nat) : Block :=
  block 16 ((iv.toList ++ c).drop (f * (i / f)))

theorem getElem_register (f : Nat) (iv : Block) (c : List Byte) (i : Nat) {j : Nat} (h : j < 16) :
    (register f iv c i)[j] = (iv.toList ++ c).getD (f * (i / f) + j) 0 := by
  simp only [register, block, Vector.getElem_ofFn, List.getD_eq_getElem?_getD, List.getElem?_drop]
  rfl

theorem register_append (f : Nat) (iv : Block) (c later : List Byte) {i : Nat}
    (inside : i ≤ c.length) : register f iv (c ++ later) i = register f iv c i := by
  have front : f * (i / f) ≤ i := Nat.mul_div_le i f
  have length : (iv.toList ++ c).length = 16 + c.length := by simp
  rw [register, register, ← List.append_assoc, List.drop_append_of_le_length (by omega),
    block_append _ _ (by rw [List.length_drop]; omega)]

theorem register_common {f : Nat} (pos : 0 < f) (iv iv' : Block) {x x' : List Byte} (w : List Byte)
    (aligned : x.length % f = x'.length % f) {t : Nat} (far : 15 + f ≤ t) :
    register f iv (x ++ w) (x.length + t) = register f iv' (x' ++ w) (x'.length + t) := by
  have same : (x.length + t) % f = (x'.length + t) % f := Nat.ModEq.add_right t aligned
  have short := Nat.mod_lt (x.length + t) pos
  have split := Nat.div_add_mod (x.length + t) f
  have split' := Nat.div_add_mod (x'.length + t) f
  have behind (iv : Block) (x : List Byte) {p : Nat} (h : 16 + x.length ≤ p) :
      (iv.toList ++ (x ++ w)).getD p 0 = w.getD (p - (16 + x.length)) 0 := by
    have length : (iv.toList ++ x).length = 16 + x.length := by simp
    rw [← List.append_assoc, List.getD_append_right _ _ _ _ (by omega), length]
  apply Vector.ext
  intro j hj
  rw [getElem_register _ _ _ _ hj, getElem_register _ _ _ _ hj, behind iv x (by omega),
    behind iv' x' (by omega)]
  congr 1
  omega

/-- A window with the chaining value in it, moved up by `f` bytes at each refresh. -/
structure FeedbackWindow (W : Window (StreamCore κ) Byte 16) (encrypt : κ → Block → Block)
    (f : Nat) : Prop where
  pos : 0 < f
  le : f ≤ 16
  mix : W.mix = fun x k => x ^^^ k
  first : W.first = 16 - f
  key : ∀ s t, W.key s t = s.iv[t]!
  absorb : ∀ s t c, W.absorb s t c = { s with iv := s.iv.setIfInBounds t c }
  ciphCtx : ∀ s, (W.refresh s).ciphCtx = s.ciphCtx
  iv : ∀ s j, (h : j < 16) → (W.refresh s).iv[j] =
    if j < 16 - f then s.iv[j + f]! else (encrypt s.ciphCtx s.iv)[j - (16 - f)]!

theorem cfbBytesWindow_feedback (m : EalSymMethod κ) {f : Nat} (pos : 0 < f) (le : f ≤ 16) :
    FeedbackWindow (cfbBytesWindow m f pos) m.encryptBlock f where
  pos := pos
  le := le
  mix := rfl
  first := rfl
  key _ _ := rfl
  absorb _ _ _ := rfl
  ciphCtx s := by simp only [cfbBytesWindow, cfbWindow]
  iv s j h := by
    show (cfbFill f 0 (cfbShift f s.iv) (m.encryptBlock s.ciphCtx s.iv))[j] = _
    rw [cfbFill, Vector.getElem_ofFn]
    by_cases moved : j < 16 - f
    · rw [if_neg (by simp; omega), if_pos moved]
      simp only [cfbShift, getElemBang_eq _ h, Vector.getElem_ofFn, moved, if_true]
    · rw [if_pos (by simp; omega), if_neg moved]

theorem cfb128Window_feedback (m : EalSymMethod κ) :
    FeedbackWindow (cfb128Window m) m.encryptBlock 16 where
  pos := by decide
  le := Nat.le_refl 16
  mix := rfl
  first := rfl
  key _ _ := rfl
  absorb _ _ _ := rfl
  ciphCtx _ := rfl
  iv s j h := by
    show (m.encryptBlock s.ciphCtx s.iv)[j] = _
    rw [if_neg (by omega), Nat.sub_self, Nat.sub_zero, getElem!_pos _ j h]

/-- The window that the next byte finds, when the ciphertext so far is `c`: the row up to there,
and what is left of the last encryption. -/
def Found (encrypt : κ → Block → Block) (f : Nat) (k : κ) (iv : Block) (c : List Byte)
    (s : StreamCore κ × Nat) : Prop :=
  s.2 = 16 - f + c.length % f ∧ s.1.ciphCtx = k ∧ ∀ j, (hj : j < 16) → s.1.iv[j] =
    if j < s.2 then (iv.toList ++ c).getD (f * (c.length / f) + f + j) 0
    else (encrypt k (register f iv c c.length))[j - (16 - f)]!

namespace FeedbackWindow

variable {W : Window (StreamCore κ) Byte 16} {encrypt : κ → Block → Block} {f : Nat}
  (h : FeedbackWindow W encrypt f)

include h

theorem found_start (k : κ) (iv buf : Block) :
    Found encrypt f k iv [] (W.ready (⟨k, iv, buf⟩, 0)) := by
  have here : W.ready (⟨k, iv, buf⟩, 0) = (W.refresh ⟨k, iv, buf⟩, W.first) := if_pos rfl
  have whole : register f iv [] 0 = iv := by
    rw [register, Nat.zero_div, Nat.mul_zero, List.drop_zero, List.append_nil, block_toList]
  rw [here]
  refine ⟨by simp [h.first], h.ciphCtx _, fun j hj => ?_⟩
  have le := h.le
  rw [h.iv _ j hj, h.first, List.length_nil, whole]
  split_ifs with moved
  · have inside : j + f < 16 := by omega
    rw [getElem!_pos iv _ inside, List.append_nil, Nat.zero_div, Nat.mul_zero, Nat.zero_add,
      Nat.add_comm f j, List.getD_eq_getElem _ _ (by simpa using inside), Vector.getElem_toList]
  · rfl

theorem found_key {k : κ} {iv : Block} {c : List Byte} {s : StreamCore κ × Nat}
    (found : Found encrypt f k iv c s) :
    W.key s.1 s.2 = (encrypt k (register f iv c c.length))[c.length % f]! := by
  obtain ⟨place, -, bytes⟩ := found
  have short := Nat.mod_lt c.length h.pos
  have le := h.le
  have inside : s.2 < 16 := by omega
  have offset : s.2 - (16 - f) = c.length % f := by omega
  rw [h.key, getElem!_pos s.1.iv _ inside, bytes _ inside, if_neg (Nat.lt_irrefl _), offset]

theorem found_next {k : κ} {iv : Block} {c : List Byte} {s : StreamCore κ × Nat}
    (found : Found encrypt f k iv c s) (y : Byte) :
    Found encrypt f k iv (c ++ [y]) (W.ready (W.absorb s.1 s.2 y, (s.2 + 1) % 16)) := by
  obtain ⟨place, key, bytes⟩ := found
  have short := Nat.mod_lt c.length h.pos
  have le := h.le
  have pos := h.pos
  have inside : s.2 < 16 := by omega
  have length : (iv.toList ++ c).length = 16 + c.length := by simp
  have split := Nat.div_add_mod c.length f
  have row (j : Nat) (hj : j < 16) (lt : j < s.2 + 1) : (W.absorb s.1 s.2 y).iv[j] =
      (iv.toList ++ (c ++ [y])).getD (f * (c.length / f) + f + j) 0 := by
    simp only [h.absorb, Vector.getElem_setIfInBounds]
    rw [← List.append_assoc]
    split_ifs with new
    · rw [List.getD_append_right _ _ _ _ (by omega), length]
      have last : f * (c.length / f) + f + j - (16 + c.length) = 0 := by omega
      rw [last]
      rfl
    · rw [bytes j hj, if_pos (by omega), List.getD_append (iv.toList ++ c) _ _ _ (by omega)]
  have same : register f iv (c ++ [y]) c.length = register f iv c c.length :=
    register_append f iv c [y] (Nat.le_refl _)
  have kept : (W.absorb s.1 s.2 y).ciphCtx = k := by
    rw [h.absorb]
    exact key
  rw [Found, List.length_append, List.length_singleton]
  have after := Nat.div_add_mod (c.length + 1) f
  by_cases full : (c.length + 1) % f = 0
  · have next : (c.length + 1) / f = c.length / f + 1 :=
      Nat.succ_div_of_dvd (Nat.dvd_of_mod_eq_zero full)
    rw [next, full, Nat.mul_succ] at after
    have zero : (s.2 + 1) % 16 = 0 := by
      have end_ : s.2 + 1 = 16 := by omega
      rw [end_]
    have here : W.ready (W.absorb s.1 s.2 y, (s.2 + 1) % 16) =
        (W.refresh (W.absorb s.1 s.2 y), W.first) := if_pos zero
    have block : register f iv (c ++ [y]) (c.length + 1) = (W.absorb s.1 s.2 y).iv := by
      apply Vector.ext
      intro j hj
      rw [getElem_register _ _ _ _ hj, row j hj (by omega), next, Nat.mul_succ]
    rw [here]
    refine ⟨by rw [h.first, full, Nat.add_zero], (h.ciphCtx _).trans kept, fun j hj => ?_⟩
    rw [h.iv _ j hj, h.first, kept, block, next]
    split_ifs with moved
    · have reach : j + f < 16 := by omega
      rw [getElem!_pos (W.absorb s.1 s.2 y).iv _ reach, row _ reach (by omega), Nat.mul_succ]
      congr 1
      omega
    · rfl
  · have next : (c.length + 1) / f = c.length / f :=
      Nat.succ_div_of_not_dvd fun whole => full (Nat.mod_eq_zero_of_dvd whole)
    have rest := Nat.mod_lt (c.length + 1) pos
    rw [next] at after
    have more : (c.length + 1) % f = c.length % f + 1 := by omega
    have going : (s.2 + 1) % 16 = s.2 + 1 := Nat.mod_eq_of_lt (by omega)
    have here : W.ready (W.absorb s.1 s.2 y, (s.2 + 1) % 16) =
        (W.absorb s.1 s.2 y, s.2 + 1) := by
      rw [going]
      exact if_neg (Nat.succ_ne_zero _)
    have block : register f iv (c ++ [y]) (c.length + 1) = register f iv c c.length := by
      rw [← same, register, register, next]
    rw [here]
    refine ⟨by rw [more, place, Nat.add_assoc], kept, fun j hj => ?_⟩
    rw [next, block]
    split_ifs with moved
    · exact row j hj moved
    · have apart : s.2 ≠ j := by omega
      have before : ¬ j < s.2 := by omega
      simp only [h.absorb, Vector.getElem_setIfInBounds_ne _ apart]
      rw [bytes j hj, if_neg before]

theorem found_run (enc : Bool) (k : κ) (iv buf : Block) (a : List Byte) :
    let r := runSteps (W.step enc) (⟨k, iv, buf⟩, 0) a
    Found encrypt f k iv (if enc then r.1 else a) (W.ready r.2) := by
  induction a using List.reverseRecOn with
  | nil => cases enc <;> exact h.found_start k iv buf
  | append_singleton a x ih =>
    obtain ⟨r, hr⟩ : ∃ r, r = runSteps (W.step enc) (⟨k, iv, buf⟩, 0) a := ⟨_, rfl⟩
    simp only [runSteps_append, ← hr, runSteps, Window.step, Window.place, Window.wrap] at ih ⊢
    cases enc with
    | true => exact h.found_next ih _
    | false => exact h.found_next ih _

theorem runSteps_getElem (enc : Bool) (k : κ) (iv buf : Block) {a : List Byte} {i : Nat}
    (inside : i < a.length)
    (inside' : i < (runSteps (W.step enc) (⟨k, iv, buf⟩, 0) a).1.length) :
    let out := (runSteps (W.step enc) (⟨k, iv, buf⟩, 0) a).1
    out[i] = a[i] ^^^ (encrypt k (register f iv (if enc then out else a) i))[i % f]! := by
  have front : (a.take i).length = i := List.length_take_of_le (Nat.le_of_lt inside)
  have cut : a = a.take i ++ a[i] :: a.drop (i + 1) := by
    rw [List.getElem_cons_drop, List.take_append_drop]
  have found := h.found_run enc k iv buf (a.take i)
  have run := runSteps_append (W.step enc) (⟨k, iv, buf⟩, 0) (a.take i) (a[i] :: a.drop (i + 1))
  rw [← cut] at run
  obtain ⟨r, hr⟩ : ∃ r, r = runSteps (W.step enc) (⟨k, iv, buf⟩, 0) (a.take i) := ⟨_, rfl⟩
  have length : r.1.length = i := by rw [hr, length_runSteps, front]
  simp only [← hr] at found run
  have count : (if enc then r.1 else a.take i).length = i := by
    cases enc
    · exact front
    · exact length
  have byte := h.found_key found
  rw [count] at byte
  obtain ⟨later, whole⟩ : ∃ later, (if enc then (runSteps (W.step enc) (⟨k, iv, buf⟩, 0) a).1
      else a) = (if enc then r.1 else a.take i) ++ later := by
    cases enc with
    | true => exact ⟨_, congrArg Prod.fst run⟩
    | false => exact ⟨a.drop i, (List.take_append_drop i a).symm⟩
  simp only [whole, register_append f iv _ later (Nat.le_of_eq count.symm)]
  simp only [run, runSteps, Window.step, Window.place, Window.wrap, h.mix]
  rw [List.getElem_append_right (by omega)]
  simp only [length, Nat.sub_self, List.getElem_cons_zero, byte]

end FeedbackWindow

/-! ## Feedback of bits -/

def blockBits (b : Block) : List Bool := (List.range 128).map fun i => b[i / 8]!.getMsbD (i % 8)

def blockOfBits (bits : List Bool) : Block :=
  Vector.ofFn fun j : Fin 16 => byteOfBits (bits.drop (8 * j.val))

theorem length_blockBits (b : Block) : (blockBits b).length = 128 := by simp [blockBits]

theorem getMsbD_blockOfBits {bits : List Bool} (long : 128 ≤ bits.length) {j i : Nat} (hj : j < 16)
    (hi : i < 8) : (blockOfBits bits)[j].getMsbD i = bits.getD (8 * j + i) false := by
  have byte : byteOfBits (bits.drop (8 * j)) = byteOfBits ((bits.drop (8 * j)).take 8) := by
    rw [byteOfBits, byteOfBits, List.take_take, Nat.min_self]
  have length : ((bits.drop (8 * j)).take 8).length = 8 := by
    rw [List.length_take_of_le (by rw [List.length_drop]; omega)]
  rw [blockOfBits, Vector.getElem_ofFn, byte, getMsbD_byteOfBits length]
  simp only [List.getD_eq_getElem?_getD, List.getElem?_take_of_lt hi, List.getElem?_drop]

theorem getD_blockBits (b : Block) {j i : Nat} (hj : j < 16) (hi : i < 8) :
    (blockBits b).getD (8 * j + i) false = b[j].getMsbD i := by
  have quotient : (8 * j + i) / 8 = j ∧ (8 * j + i) % 8 = i := by omega
  rw [List.getD_eq_getElem _ _ (by rw [length_blockBits]; omega)]
  simp [blockBits, quotient, hj]

theorem block_ext_bits {a b : Block}
    (same : ∀ j, (hj : j < 16) → ∀ i < 8, a[j].getMsbD i = b[j].getMsbD i) : a = b :=
  Vector.ext fun j hj => BitVec.eq_of_getMsbD_eq fun i hi => same j hj i hi

def bitRegister (iv : Block) (c : List Bool) (i : Nat) : Block :=
  blockOfBits ((blockBits iv ++ c).drop i)

theorem getMsbD_bitRegister (iv : Block) (c : List Bool) {i j b : Nat} (inside : i ≤ c.length)
    (hj : j < 16) (hb : b < 8) : (bitRegister iv c i)[j].getMsbD b =
      (blockBits iv ++ c).getD (i + (8 * j + b)) false := by
  have long : 128 ≤ ((blockBits iv ++ c).drop i).length := by
    rw [List.length_drop, List.length_append, length_blockBits]
    omega
  simp only [bitRegister, getMsbD_blockOfBits long hj hb, List.getD_eq_getElem?_getD,
    List.getElem?_drop]

theorem bitRegister_append (iv : Block) (c later : List Bool) {i : Nat} (inside : i ≤ c.length) :
    bitRegister iv (c ++ later) i = bitRegister iv c i := by
  have length : (blockBits iv ++ c).length = 128 + c.length := by
    rw [List.length_append, length_blockBits]
  refine block_ext_bits fun j hj b hb => ?_
  rw [getMsbD_bitRegister iv c inside hj hb, getMsbD_bitRegister iv (c ++ later) (by
    rw [List.length_append]
    omega) hj hb, ← List.append_assoc, List.getD_append _ _ _ _ (by omega)]

theorem bitRegister_zero (iv : Block) : bitRegister iv [] 0 = iv := by
  refine block_ext_bits fun j hj b hb => ?_
  rw [getMsbD_bitRegister iv [] (Nat.le_refl 0) hj hb, List.append_nil, Nat.zero_add,
    getD_blockBits iv hj hb]

theorem bitRegister_common (iv iv' : Block) (x x' w : List Bool) {t : Nat} (far : 128 ≤ t)
    (inside : t ≤ w.length) :
    bitRegister iv (x ++ w) (x.length + t) = bitRegister iv' (x' ++ w) (x'.length + t) := by
  have behind (iv : Block) (x : List Bool) {p : Nat} (h : 128 + x.length ≤ p) :
      (blockBits iv ++ (x ++ w)).getD p false = w.getD (p - (128 + x.length)) false := by
    have length : (blockBits iv ++ x).length = 128 + x.length := by
      rw [List.length_append, length_blockBits]
    rw [← List.append_assoc, List.getD_append_right _ _ _ _ (by omega), length]
  refine block_ext_bits fun j hj b hb => ?_
  rw [getMsbD_bitRegister iv _ (by rw [List.length_append]; omega) hj hb,
    getMsbD_bitRegister iv' _ (by rw [List.length_append]; omega) hj hb, behind iv x (by omega),
    behind iv' x' (by omega)]
  congr 1
  omega

theorem getMsbD_shift (x y : Byte) {i : Nat} (hi : i < 8) :
    ((x <<< 1) ||| (y >>> 7)).getMsbD i = if i < 7 then x.getMsbD (i + 1) else y.getMsbD 0 := by
  rw [BitVec.getMsbD_or, BitVec.getMsbD_shiftLeft, BitVec.getMsbD_ushiftRight]
  by_cases front : i < 7
  · simp [front, hi]
  · have last : i = 7 := by omega
    subst last
    simp

theorem cfb1Shift_bitRegister (iv : Block) (c : List Bool) (y : Byte) :
    cfb1Shift (bitRegister iv c c.length) y =
      bitRegister iv (c ++ [y.getMsbD 0]) (c.length + 1) := by
  have length : (blockBits iv ++ c).length = 128 + c.length := by
    rw [List.length_append, length_blockBits]
  have more : c.length + 1 ≤ (c ++ [y.getMsbD 0]).length := by simp
  -- every bit of the row but the new one was there before
  have old (p : Nat) (inside : p < 128 + c.length) : (blockBits iv ++ c).getD p false =
      (blockBits iv ++ (c ++ [y.getMsbD 0])).getD p false := by
    rw [← List.append_assoc, List.getD_append (blockBits iv ++ c) _ _ _ (by omega)]
  refine block_ext_bits fun j hj i hi => ?_
  rw [getMsbD_bitRegister _ _ more hj hi, cfb1Shift, Vector.getElem_ofFn, getMsbD_shift _ _ hi,
    getElemBang_eq _ hj]
  by_cases front : i < 7
  · rw [if_pos front]
    refine (getMsbD_bitRegister iv c (Nat.le_refl _) hj (by omega)).trans ?_
    rw [old _ (by omega)]
    congr 1
    omega
  rw [if_neg front]
  by_cases row : j < 15
  · have next : j + 1 < 16 := by omega
    rw [if_pos row, getElem!_pos (bitRegister iv c c.length) _ next]
    refine (getMsbD_bitRegister iv c (Nat.le_refl _) next (by decide)).trans ?_
    rw [old _ (by omega)]
    congr 1
    omega
  · have last : c.length + 1 + (8 * j + i) = (blockBits iv ++ c).length := by omega
    rw [if_neg row, last, ← List.append_assoc, List.getD_append_right _ _ _ _ (Nat.le_refl _),
      Nat.sub_self]
    rfl

variable (m : EalSymMethod κ)

theorem cfb1_run (enc : Bool) (k : κ) (iv buf : Block) (a : List Bool) :
    let r := runSteps (cfb1Step m enc) ⟨k, iv, buf⟩ a
    r.2.ciphCtx = k ∧ r.2.iv = bitRegister iv (if enc then r.1 else a) a.length := by
  induction a using List.reverseRecOn with
  | nil => cases enc <;> exact ⟨rfl, (bitRegister_zero iv).symm⟩
  | append_singleton a x ih =>
    obtain ⟨r, hr⟩ : ∃ r, r = runSteps (cfb1Step m enc) ⟨k, iv, buf⟩ a := ⟨_, rfl⟩
    have length : r.1.length = a.length := by rw [hr, length_runSteps]
    simp only [runSteps_append, ← hr, runSteps, cfb1Step, cfb1Crypt] at ih ⊢
    obtain ⟨key, row⟩ := ih
    refine ⟨key, ?_⟩
    rw [List.length_append, List.length_singleton]
    cases enc with
    | true =>
      have next := cfb1Shift_bitRegister iv r.1
        ((m.encryptBlock r.2.ciphCtx r.2.iv)[0]! ^^^ if x then 0x80 else 0)
      rw [length, show bitRegister iv r.1 a.length = r.2.iv from row.symm] at next
      exact next
    | false =>
      have top : (if x then 0x80 else 0 : Byte).getMsbD 0 = x := by cases x <;> rfl
      have next := cfb1Shift_bitRegister iv a (if x then 0x80 else 0)
      rw [top, show bitRegister iv a a.length = r.2.iv from row.symm] at next
      exact next

theorem cfb1_getElem (enc : Bool) (k : κ) (iv buf : Block) {a : List Bool} {i : Nat}
    (inside : i < a.length)
    (inside' : i < (runSteps (cfb1Step m enc) ⟨k, iv, buf⟩ a).1.length) :
    let out := (runSteps (cfb1Step m enc) ⟨k, iv, buf⟩ a).1
    out[i] = (a[i] ^^
      (m.encryptBlock k (bitRegister iv (if enc then out else a) i))[0]!.getMsbD 0) := by
  have front : (a.take i).length = i := List.length_take_of_le (Nat.le_of_lt inside)
  have cut : a = a.take i ++ a[i] :: a.drop (i + 1) := by
    rw [List.getElem_cons_drop, List.take_append_drop]
  obtain ⟨key, row⟩ := cfb1_run m enc k iv buf (a.take i)
  have run := runSteps_append (cfb1Step m enc) ⟨k, iv, buf⟩ (a.take i) (a[i] :: a.drop (i + 1))
  rw [← cut] at run
  obtain ⟨r, hr⟩ : ∃ r, r = runSteps (cfb1Step m enc) ⟨k, iv, buf⟩ (a.take i) := ⟨_, rfl⟩
  have length : r.1.length = i := by rw [hr, length_runSteps, front]
  simp only [← hr, front] at key row run
  have count : (if enc then r.1 else a.take i).length = i := by
    cases enc
    · exact front
    · exact length
  obtain ⟨later, whole⟩ : ∃ later, (if enc then (runSteps (cfb1Step m enc) ⟨k, iv, buf⟩ a).1
      else a) = (if enc then r.1 else a.take i) ++ later := by
    cases enc with
    | true => exact ⟨_, congrArg Prod.fst run⟩
    | false => exact ⟨a.drop i, (List.take_append_drop i a).symm⟩
  have bits (y : Byte) (bit : Bool) :
      (y ^^^ if bit then 0x80 else 0).getMsbD 0 = (bit ^^ y.getMsbD 0) := by
    rw [BitVec.getMsbD_xor, Bool.xor_comm]
    cases bit <;> rfl
  simp only [whole, bitRegister_append iv _ later (Nat.le_of_eq count.symm)]
  simp only [run, runSteps, cfb1Step, cfb1Crypt, key, row]
  rw [List.getElem_append_right (by omega)]
  simp only [length, Nat.sub_self, List.getElem_cons_zero, bits]

theorem cfb1_bytes (enc : Bool) (s : StreamCore κ × Nat) (a : List Byte) :
    ((cfb1Machine m enc).feed s a).1.flatMap bitsOf =
      (runSteps (cfb1Step m enc) s.1 (a.flatMap bitsOf)).1 := by
  show (runSteps _ s a).1.flatMap bitsOf = _
  induction a generalizing s with
  | nil => rfl
  | cons x a ih =>
    obtain ⟨r, hr⟩ : ∃ r, r = runSteps (cfb1Step m enc) s.1 (bitsOf x) := ⟨_, rfl⟩
    have length : r.1.length = 8 := by
      rw [hr, length_runSteps]
      simp [bitsOf]
    rw [runSteps, List.flatMap_cons, List.flatMap_cons, runSteps_append, ih, cfb1Byte, ← hr]
    dsimp only
    rw [bitsOf_byteOfBits length]

theorem length_bits (l : List Byte) : (l.flatMap bitsOf).length = 8 * l.length := by
  induction l with
  | nil => rfl
  | cons x l ih =>
    rw [List.flatMap_cons, List.length_append, ih, List.length_cons]
    simp [bitsOf]
    omega

theorem getD_bits {l : List Byte} {i b : Nat} (hi : i < l.length) (hb : b < 8) :
    (l.flatMap bitsOf).getD (8 * i + b) false = l[i].getMsbD b := by
  induction l generalizing i with
  | nil => cases hi
  | cons x l ih =>
    have length : (bitsOf x).length = 8 := by simp [bitsOf]
    rw [List.flatMap_cons]
    cases i with
    | zero =>
      rw [Nat.mul_zero, Nat.zero_add, List.getD_append _ _ _ _ (by omega)]
      rw [List.getD_eq_getElem _ _ (by omega)]
      simp [bitsOf]
    | succ i =>
      have behind : 8 * (i + 1) + b - 8 = 8 * i + b := by omega
      rw [List.getD_append_right _ _ _ _ (by omega), length, behind]
      exact ih (Nat.lt_of_succ_lt_succ hi)

theorem cfb1_feed_getElem (enc : Bool) (k : κ) (iv buf : Block) {a : List Byte} {i : Nat}
    (inside : i < a.length)
    (inside' : i < ((cfb1Machine m enc).feed (⟨k, iv, buf⟩, 0) a).1.length) :
    let out := ((cfb1Machine m enc).feed (⟨k, iv, buf⟩, 0) a).1
    out[i] = a[i] ^^^ byteOfBits ((List.range 8).map fun b => (m.encryptBlock k
      (bitRegister iv ((if enc then out else a).flatMap bitsOf) (8 * i + b)))[0]!.getMsbD 0) := by
  intro out
  have bits : out.flatMap bitsOf =
      (runSteps (cfb1Step m enc) ⟨k, iv, buf⟩ (a.flatMap bitsOf)).1 := cfb1_bytes m enc _ a
  have count : ((runSteps (cfb1Step m enc) ⟨k, iv, buf⟩ (a.flatMap bitsOf)).1).length =
      8 * a.length := by
    rw [length_runSteps, length_bits]
  refine BitVec.eq_of_getMsbD_eq fun b hb => ?_
  have first : 8 * i + b < (a.flatMap bitsOf).length := by
    rw [length_bits]
    omega
  have bit := cfb1_getElem m enc k iv buf first (by omega)
  have sent : (if enc then out else a).flatMap bitsOf =
      if enc then (runSteps (cfb1Step m enc) ⟨k, iv, buf⟩ (a.flatMap bitsOf)).1
      else a.flatMap bitsOf := by
    cases enc
    · rfl
    · exact bits
  rw [← getD_bits inside' hb, bits, List.getD_eq_getElem _ _ (by omega), bit, BitVec.getMsbD_xor,
    getMsbD_byteOfBits (by simp), ← getD_bits inside hb, List.getD_eq_getElem _ _ first, sent]
  congr 1
  rw [List.getD_eq_getElem _ _ (by simpa using hb)]
  simp

end SystemsLab.ModesFeedbackRegister
