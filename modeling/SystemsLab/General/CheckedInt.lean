import SystemsLab.General.CountedLoop

/-! Programs over 32-bit `int` values, in the arithmetic of C: an expression outside of the range
overflows, a division needs a divisor, an element must lie in its array. A program stops at its
first fault. A loop variable is stepped, and checked, also after its last iteration. The numbers
of a command line come from `atoi`. -/

namespace SystemsLab.CheckedInt
open CountedLoop

inductive Fault where
  | overflow
  | divisionByZero
  | outOfBounds
  | arrayLength
  deriving DecidableEq

abbrev Checked := Except Fault

abbrev InInt (x : Int) : Prop := -2 ^ 31 ≤ x ∧ x < 2 ^ 31

def int (x : Int) : Checked Int := if InInt x then .ok x else .error .overflow

theorem inInt_toInt (x : Int32) : InInt x.toInt := ⟨x.le_toInt, x.toInt_lt⟩

def divide (a b : Int) : Checked Int :=
  if b = 0 then .error .divisionByZero else int (a.tdiv b)

def access (count index : Int) : Checked Unit :=
  if 0 ≤ index ∧ index < count then .ok () else .error .outOfBounds

/-- An array of variable length; GNU C also takes an empty one. -/
def declare (length : Int) : Checked Unit :=
  if length < 0 then .error .arrayLength else .ok ()

def intRange (lo hi : Int) (step : Nat) : List Int :=
  (indices 0 (hi - lo).toNat step).map fun n : Nat => lo + (n : Int)

def intAfter (lo hi : Int) (step : Nat) : Int := lo + step * (intRange lo hi step).length

def forInt (lo hi : Int) (step : Nat) (body : Int → Checked Unit) : Checked Unit :=
  (intRange lo hi step).forM fun i => do
    body i
    let _ ← int (i + (step : Int))

/-! ## Numbers of the command line -/

def isspace (c : Char) : Bool := c = ' ' || ('\t' ≤ c && c ≤ '\r')

def digitsValue (s : List Char) : Nat :=
  (s.takeWhile Char.isDigit).foldl (fun n c => 10 * n + (c.toNat - '0'.toNat)) 0

/-- `strtol` in base ten, with a 64-bit `long`. -/
def strtol (s : String) : Int :=
  match s.toList.dropWhile isspace with
  | '-' :: digits => max (-2 ^ 63) (-(digitsValue digits : Int))
  | '+' :: digits => min (2 ^ 63 - 1) (digitsValue digits : Int)
  | digits => min (2 ^ 63 - 1) (digitsValue digits : Int)

def atoi (s : String) : Int32 := Int32.ofInt (strtol s)

example : (atoi " -12x").toInt = -12 ∧ (atoi "4294967297").toInt = 1 := by decide

/-! ## The values of a loop variable -/

variable {lo hi i : Int} {step : Nat}

theorem mem_intRange (pos : 0 < step) :
    i ∈ intRange lo hi step ↔ lo ≤ i ∧ i < hi ∧ (step : Int) ∣ i - lo := by
  simp only [intRange, List.mem_map, mem_indices pos]
  constructor
  · rintro ⟨n, ⟨-, lt, multiple⟩, rfl⟩
    rw [Nat.sub_zero] at multiple
    refine ⟨by omega, by omega, ?_⟩
    rw [show lo + (n : Int) - lo = (n : Int) by omega]
    exact Int.natCast_dvd_natCast.mpr multiple
  · rintro ⟨ge, lt, multiple⟩
    have value : ((i - lo).toNat : Int) = i - lo := by omega
    refine ⟨(i - lo).toNat, ⟨Nat.zero_le _, by omega, ?_⟩, by omega⟩
    rw [Nat.sub_zero]
    exact Int.natCast_dvd_natCast.mp (value.symm ▸ multiple)

theorem mem_intRange_one : i ∈ intRange lo hi 1 ↔ lo ≤ i ∧ i < hi := by
  rw [mem_intRange Nat.one_pos]
  exact ⟨fun h => ⟨h.1, h.2.1⟩, fun h => ⟨h.1, h.2, one_dvd _⟩⟩

theorem le_intAfter : lo ≤ intAfter lo hi step :=
  Int.le_add_of_nonneg_right (Int.mul_nonneg (Int.natCast_nonneg _) (Int.natCast_nonneg _))

theorem nodup_intRange (pos : 0 < step) : (intRange lo hi step).Nodup :=
  (List.nodup_range' step pos).map fun _ _ same => Int.ofNat.inj (Int.add_left_cancel same)

/-! ## Runs without a fault -/

section Ok

variable {ε α β : Type} {a b : Int}

theorem ok_bind (x : α) (f : α → Except ε β) : (Except.ok x >>= f) = f x := rfl

theorem error_bind (e : ε) (f : α → Except ε β) : (Except.error e >>= f) = .error e := rfl

@[simp] theorem bind_eq_ok {x : Except ε α} {f : α → Except ε β} {y : β} :
    (x >>= f) = .ok y ↔ ∃ v, x = .ok v ∧ f v = .ok y := by
  cases x with
  | error e =>
    constructor
    · intro h
      cases h
    · rintro ⟨v, h, -⟩
      cases h
  | ok v =>
    constructor
    · exact fun h => ⟨v, rfl, h⟩
    · rintro ⟨w, h, rest⟩
      cases h
      exact rest

@[simp] theorem pure_eq_ok {x y : α} : (pure x : Except ε α) = .ok y ↔ x = y :=
  ⟨fun h => Except.ok.inj h, fun h => congrArg _ h⟩

theorem forM_eq_ok {l : List α} {f : α → Except ε Unit} :
    l.forM f = .ok () ↔ ∀ x ∈ l, f x = .ok () := by
  induction l with
  | nil => exact ⟨fun _ _ mem => absurd mem List.not_mem_nil, fun _ => rfl⟩
  | cons x l ih =>
    rw [List.forM_eq_forM, List.forM_cons, bind_eq_ok, List.forall_mem_cons, ← ih]
    exact ⟨fun ⟨_, first, rest⟩ => ⟨first, rest⟩, fun ⟨first, rest⟩ => ⟨_, first, rest⟩⟩

@[simp] theorem int_eq_ok : int a = .ok b ↔ InInt a ∧ a = b := by
  unfold int
  split
  case isTrue inside => rw [Except.ok.injEq, and_iff_right inside]
  case isFalse outside => simp [outside]

@[simp] theorem divide_eq_ok {d : Int} :
    divide a d = .ok b ↔ d ≠ 0 ∧ InInt (a.tdiv d) ∧ a.tdiv d = b := by
  unfold divide
  split
  case isTrue zero => simp [zero]
  case isFalse divisor => rw [int_eq_ok, and_iff_right divisor]

@[simp] theorem access_eq_ok {count index : Int} {u : Unit} :
    access count index = .ok u ↔ 0 ≤ index ∧ index < count := by
  unfold access
  split
  case isTrue inside => simp [inside]
  case isFalse outside => simp only [reduceCtorEq, false_iff]; exact outside

@[simp] theorem declare_eq_ok {length : Int} {u : Unit} : declare length = .ok u ↔ 0 ≤ length := by
  unfold declare
  split
  case isTrue negative => simp [negative]
  case isFalse ge => simp [Int.not_lt.mp ge]

variable {body : Int → Checked Unit}

theorem forInt_eq_ok (pos : 0 < step) : forInt lo hi step body = .ok () ↔
    ∀ i, lo ≤ i → i < hi → (step : Int) ∣ i - lo → body i = .ok () ∧ InInt (i + step) := by
  unfold forInt
  rw [forM_eq_ok]
  simp only [mem_intRange pos, bind_eq_ok, int_eq_ok, pure_eq_ok]
  constructor
  · intro h i ge lt multiple
    obtain ⟨_, first, _, ⟨inside, -⟩, -⟩ := h i ⟨ge, lt, multiple⟩
    exact ⟨first, inside⟩
  · rintro h i ⟨ge, lt, multiple⟩
    obtain ⟨first, inside⟩ := h i ge lt multiple
    exact ⟨_, first, _, ⟨inside, rfl⟩, trivial⟩

theorem forInt_one_eq_ok (low : -2 ^ 31 ≤ lo) (high : hi < 2 ^ 31) :
    forInt lo hi 1 body = .ok () ↔ ∀ i, lo ≤ i → i < hi → body i = .ok () := by
  rw [forInt_eq_ok Nat.one_pos]
  constructor
  · exact fun h i ge lt => (h i ge lt (one_dvd _)).1
  · exact fun h i ge lt _ => ⟨h i ge lt, by constructor <;> omega⟩

end Ok

end SystemsLab.CheckedInt
