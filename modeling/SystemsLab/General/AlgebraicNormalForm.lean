import Mathlib.Data.Nat.Bitwise
import Mathlib.Tactic.Ring

/-! Algebraic normal forms of Boolean functions. Inputs and monomials are both
bit masks below `2 ^ n`; a monomial `m` is true at `x` when every bit of `m`
is set in `x`. The in-place butterfly over the bits turns a truth table into
the coefficients of its normal form. -/

namespace SystemsLab.AlgebraicNormalForm

def xorUpTo (h : Nat → Bool) : Nat → Bool
  | 0 => false
  | n + 1 => xor (xorUpTo h n) (h n)

theorem xorUpTo_congr {h g : Nat → Bool} (n : Nat) (eq : ∀ i < n, h i = g i) :
    xorUpTo h n = xorUpTo g n := by
  induction n with
  | zero => rfl
  | succ n ih =>
    rw [xorUpTo, xorUpTo, ih fun i hi => eq i (Nat.lt_succ_of_lt hi), eq n (Nat.lt_succ_self n)]

theorem xorUpTo_false (n : Nat) : xorUpTo (fun _ => false) n = false := by
  induction n with
  | zero => rfl
  | succ n ih => rw [xorUpTo, ih]; rfl

theorem xorUpTo_xor (h g : Nat → Bool) (n : Nat) :
    xorUpTo (fun i => xor (h i) (g i)) n = xor (xorUpTo h n) (xorUpTo g n) := by
  induction n with
  | zero => rfl
  | succ n ih =>
    simp only [xorUpTo, ih, Bool.xor_assoc]
    rw [Bool.xor_left_comm (xorUpTo g n)]

theorem xorUpTo_add (h : Nat → Bool) (n m : Nat) :
    xorUpTo h (n + m) = xor (xorUpTo h n) (xorUpTo (fun i => h (n + i)) m) := by
  induction m with
  | zero => simp [xorUpTo]
  | succ m ih => rw [← Nat.add_assoc, xorUpTo, ih, xorUpTo, Bool.xor_assoc]

/-- `m` is a monomial that is true at `x`. -/
def covers (m x : Nat) : Bool := m &&& x == m

/-- The butterfly of one bit: every mask with the bit takes in its partner without it. -/
def butterfly (bit : Nat) (f : Nat → Bool) (m : Nat) : Bool :=
  if m.testBit bit then xor (f m) (f (m ^^^ 2 ^ bit)) else f m

def transform : Nat → (Nat → Bool) → Nat → Bool
  | 0, f => f
  | n + 1, f => butterfly n (transform n f)

def eval (n : Nat) (a : Nat → Bool) (x : Nat) : Bool := xorUpTo (fun m => a m && covers m x) (2 ^ n)

/-! ## The top bit of a mask -/

theorem testBit_top {n m : Nat} (h : m < 2 ^ n) (i : Nat) :
    (2 ^ n + m).testBit i = (m.testBit i || decide (i = n)) := by
  have joined : 2 ^ n + m = 2 ^ n ||| m := by
    simpa using Nat.two_pow_add_eq_or_of_lt h 1
  rw [joined, Nat.testBit_or, Nat.testBit_two_pow, Bool.or_comm]
  congr 1
  simp [eq_comm]

theorem top_xor_top {n m : Nat} (h : m < 2 ^ n) : (2 ^ n + m) ^^^ 2 ^ n = m := by
  apply Nat.eq_of_testBit_eq
  intro i
  rw [Nat.testBit_xor, testBit_top h, Nat.testBit_two_pow]
  by_cases hi : i = n
  · subst hi
    simp [Nat.testBit_lt_two_pow h]
  · simp [hi, Ne.symm hi]

theorem top_xor_low {n m b : Nat} (h : m < 2 ^ n) (hb : b < n) :
    (2 ^ n + m) ^^^ 2 ^ b = 2 ^ n + (m ^^^ 2 ^ b) := by
  have low : m ^^^ 2 ^ b < 2 ^ n := Nat.xor_lt_two_pow h (Nat.pow_lt_pow_right (by decide) hb)
  apply Nat.eq_of_testBit_eq
  intro i
  rw [Nat.testBit_xor, testBit_top h, testBit_top low, Nat.testBit_xor, Nat.testBit_two_pow]
  by_cases hi : i = n
  · subst hi
    simp [Nat.testBit_lt_two_pow h, Nat.ne_of_lt hb]
  · simp [hi]

theorem covers_iff (m x : Nat) :
    covers m x = true ↔ ∀ i, m.testBit i = true → x.testBit i = true := by
  rw [covers, beq_iff_eq]
  constructor
  · intro h i hi
    rw [← h, Nat.testBit_and] at hi
    exact (Bool.and_eq_true_iff.mp hi).2
  · intro h
    apply Nat.eq_of_testBit_eq
    intro i
    rw [Nat.testBit_and]
    cases hi : m.testBit i
    · rfl
    · rw [h i hi]; rfl

theorem covers_low_top {n m x : Nat} (hm : m < 2 ^ n) (hx : x < 2 ^ n) :
    covers m (2 ^ n + x) = covers m x := by
  rw [Bool.eq_iff_iff, covers_iff, covers_iff]
  refine forall_congr' fun i => ?_
  rw [testBit_top hx]
  by_cases hi : i = n
  · subst hi
    simp [Nat.testBit_lt_two_pow hm]
  · simp [hi]

theorem covers_top_low {n m x : Nat} (hm : m < 2 ^ n) (hx : x < 2 ^ n) :
    covers (2 ^ n + m) x = false := by
  rw [Bool.eq_false_iff, ne_eq, covers_iff]
  intro h
  have top := h n (by simp [testBit_top hm])
  rw [Nat.testBit_lt_two_pow hx] at top
  exact Bool.false_ne_true top

theorem covers_top_top {n m x : Nat} (hm : m < 2 ^ n) (hx : x < 2 ^ n) :
    covers (2 ^ n + m) (2 ^ n + x) = covers m x := by
  rw [Bool.eq_iff_iff, covers_iff, covers_iff]
  refine forall_congr' fun i => ?_
  rw [testBit_top hm, testBit_top hx]
  by_cases hi : i = n
  · subst hi
    simp [Nat.testBit_lt_two_pow hm]
  · simp [hi]

/-! ## The transform computes the normal form -/

theorem transform_top {n : Nat} (f : Nat → Bool) (k : Nat) (hk : k ≤ n) (m : Nat) (hm : m < 2 ^ n) :
    transform k f (2 ^ n + m) = transform k (fun i => f (2 ^ n + i)) m := by
  induction k generalizing m with
  | zero => rfl
  | succ k ih =>
    have low : m ^^^ 2 ^ k < 2 ^ n := Nat.xor_lt_two_pow hm (Nat.pow_lt_pow_right (by decide) hk)
    have bit : (2 ^ n + m).testBit k = m.testBit k := by
      simp [testBit_top hm, Nat.ne_of_lt hk]
    simp only [transform, butterfly, bit, top_xor_low hm hk, ih (Nat.le_of_lt hk) m hm,
      ih (Nat.le_of_lt hk) _ low]

theorem transform_succ_low {n m : Nat} (f : Nat → Bool) (hm : m < 2 ^ n) :
    transform (n + 1) f m = transform n f m := by
  simp [transform, butterfly, Nat.testBit_lt_two_pow hm]

theorem transform_succ_top {n m : Nat} (f : Nat → Bool) (hm : m < 2 ^ n) :
    transform (n + 1) f (2 ^ n + m) =
      xor (transform n (fun i => f (2 ^ n + i)) m) (transform n f m) := by
  simp only [transform, butterfly, testBit_top hm, top_xor_top hm, decide_true,
    Bool.or_true, if_true]
  rw [transform_top f n (Nat.le_refl n) m hm]

theorem eval_transform (n : Nat) (f : Nat → Bool) (x : Nat) (hx : x < 2 ^ n) :
    eval n (transform n f) x = f x := by
  induction n generalizing f x with
  | zero =>
    have hx0 : x = 0 := by simpa using hx
    subst hx0
    simp [eval, xorUpTo, transform, covers]
  | succ n ih =>
    rw [eval, show 2 ^ (n + 1) = 2 ^ n + 2 ^ n by ring, xorUpTo_add]
    rcases Nat.lt_or_ge x (2 ^ n) with low | high
    · have first : xorUpTo (fun m => transform (n + 1) f m && covers m x) (2 ^ n) = f x := by
        rw [← ih f x low, eval]
        exact xorUpTo_congr _ fun m hm => by rw [transform_succ_low f hm]
      have second :
        xorUpTo (fun m => transform (n + 1) f (2 ^ n + m) && covers (2 ^ n + m) x) (2 ^ n)
          = false := by
        rw [← xorUpTo_false (2 ^ n)]
        exact xorUpTo_congr _ fun m hm => by rw [covers_top_low hm low, Bool.and_false]
      rw [first, second, Bool.xor_false]
    · obtain ⟨y, rfl⟩ := Nat.exists_eq_add_of_le high
      have hy : y < 2 ^ n := by
        rw [pow_succ] at hx
        omega
      have first : xorUpTo (fun m => transform (n + 1) f m && covers m (2 ^ n + y)) (2 ^ n) =
          eval n (transform n f) y :=
        xorUpTo_congr _ fun m hm => by rw [transform_succ_low f hm, covers_low_top hm hy]
      have second : xorUpTo (fun m => transform (n + 1) f (2 ^ n + m) &&
          covers (2 ^ n + m) (2 ^ n + y)) (2 ^ n) =
          xor (eval n (transform n fun i => f (2 ^ n + i)) y) (eval n (transform n f) y) := by
        rw [eval, eval, ← xorUpTo_xor]
        exact xorUpTo_congr _ fun m hm => by
          rw [transform_succ_top f hm, covers_top_top hm hy, Bool.and_xor_distrib_right]
      rw [first, second, Bool.xor_left_comm, Bool.xor_self, Bool.xor_false]
      exact ih _ y hy

end SystemsLab.AlgebraicNormalForm
