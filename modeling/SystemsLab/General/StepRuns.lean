import Mathlib.Algebra.BigOperators.Group.Finset.Basic
import Mathlib.Algebra.Order.BigOperators.Group.Finset
import Mathlib.Data.Option.Basic
import Mathlib.Tactic.Linarith

/-! Runs of a system whose parties take steps in an order that the scheduler chooses. A schedule is
a list of actions, and `step` says what an action does in a state, or that it is not possible
there. Invariants, a bound on the length of runs and their completion follow from what
one step does. The second part sums weights over a pool of threads, of which a step
changes one. -/

namespace SystemsLab.StepRuns

variable {S A : Type*} (step : S → A → Option S)

/-- The state after a schedule, when all of its actions are possible in turn. -/
def run (s : S) : List A → Option S
  | [] => some s
  | a :: rest => (step s a).bind fun s' => run s' rest

/-- Every action of the schedule meets the condition in the state before it. -/
def Meets (ok : S → A → Prop) (s : S) : List A → Prop
  | [] => True
  | a :: rest => ok s a ∧ ∀ s', step s a = some s' → Meets ok s' rest

instance decidableMeets {ok : S → A → Prop} [∀ s a, Decidable (ok s a)] :
    (s : S) → (schedule : List A) → Decidable (Meets step ok s schedule)
  | _, [] => isTrue trivial
  | s, a :: rest =>
    match h : step s a with
    | none => decidable_of_iff (ok s a) (by simp [Meets, h])
    | some t =>
      have : Decidable (Meets step ok t rest) := decidableMeets t rest
      decidable_of_iff (ok s a ∧ Meets step ok t rest) (by simp [Meets, h])

variable {step} {s s' : S} {schedule : List A}

theorem run_append (s : S) (first later : List A) :
    run step s (first ++ later) = (run step s first).bind fun s' => run step s' later := by
  induction first generalizing s with
  | nil => rfl
  | cons a rest ih =>
    rw [List.cons_append, run, run]
    cases h : step s a with
    | none => rfl
    | some s' => exact ih s'

theorem run_trans {first later : List A} {s'' : S} (h : run step s first = some s')
    (h' : run step s' later = some s'') : run step s (first ++ later) = some s'' := by
  rw [run_append, h, Option.bind_some, h']

theorem run_snoc {a : A} {s'' : S} (h : run step s schedule = some s') (h' : step s' a = some s'') :
    run step s (schedule ++ [a]) = some s'' :=
  run_trans h (by rw [run, h', Option.bind_some, run])

theorem run_inv_of_meets {motive : S → Prop} {ok : S → A → Prop}
    (next : ∀ s a s', motive s → ok s a → step s a = some s' → motive s') (start : motive s)
    (meets : Meets step ok s schedule) (h : run step s schedule = some s') : motive s' := by
  induction schedule generalizing s with
  | nil =>
    cases h
    exact start
  | cons a rest ih =>
    obtain ⟨t, first, later⟩ := Option.bind_eq_some_iff.mp h
    exact ih (next s a t start meets.1 first) (meets.2 t first) later

/-- An invariant that implies the condition makes every run of the system meet it. -/
theorem meets_of_inv {motive : S → Prop} {ok : S → A → Prop}
    (next : ∀ s a s', motive s → step s a = some s' → motive s')
    (implies : ∀ s a, motive s → ok s a)
    (start : motive s) (schedule : List A) : Meets step ok s schedule := by
  induction schedule generalizing s with
  | nil => trivial
  | cons a rest ih => exact ⟨implies s a start, fun t first => ih (next s a t start first)⟩

theorem run_inv {motive : S → Prop} (next : ∀ s a s', motive s → step s a = some s' → motive s')
    (start : motive s) (h : run step s schedule = some s') : motive s' := by
  have meets : Meets step (fun _ _ => True) s schedule :=
    meets_of_inv next (fun _ _ _ => trivial) start schedule
  exact run_inv_of_meets (fun s a s' inv _ => next s a s' inv) start meets h

section Measure

variable {motive : S → Prop} {measure : S → Nat}
  (next : ∀ s a s', motive s → step s a = some s' → motive s')
  (lower : ∀ s a s', motive s → step s a = some s' → measure s' < measure s)

include next lower

theorem run_length_le (start : motive s) (h : run step s schedule = some s') :
    schedule.length + measure s' ≤ measure s := by
  induction schedule generalizing s with
  | nil =>
    cases h
    rw [List.length_nil, Nat.zero_add]
  | cons a rest ih =>
    obtain ⟨t, first, later⟩ := Option.bind_eq_some_iff.mp h
    have tail := ih (next s a t start first) later
    have head := lower s a t start first
    rw [List.length_cons]
    omega

theorem exists_run_done {done : S → Prop}
    (progress : ∀ s, motive s → ¬ done s → ∃ a s', step s a = some s')
    (start : motive s) : ∃ schedule s', run step s schedule = some s' ∧ done s' := by
  induction left : measure s using Nat.strongRecOn generalizing s with
  | ind n ih =>
    by_cases finished : done s
    · exact ⟨[], s, rfl, finished⟩
    · obtain ⟨a, t, first⟩ := progress s start finished
      obtain ⟨schedule, s', later, finished⟩ :=
        ih (measure t) (left ▸ lower s a t start first) (next s a t start first) rfl
      refine ⟨a :: schedule, s', ?_, finished⟩
      rw [run, first, Option.bind_some, later]

end Measure

/-! ## Pools of threads -/

section Pool

variable {φ : Type*} {n t : Nat} (weight : Nat → φ → Nat) (threads : Nat → φ)

def total (n : Nat) : Nat := ∑ t ∈ Finset.range n, weight t (threads t)

theorem total_update (created : t < n) (x : φ) :
    total weight (Function.update threads t x) n + weight t (threads t) =
      total weight threads n + weight t x := by
  have mem : t ∈ Finset.range n := Finset.mem_range.mpr created
  have others : ∑ u ∈ (Finset.range n).erase t, weight u (Function.update threads t x u) =
      ∑ u ∈ (Finset.range n).erase t, weight u (threads u) := by
    refine Finset.sum_congr rfl fun u inside => ?_
    rw [Function.update_of_ne (Finset.ne_of_mem_erase inside)]
  have before := Finset.add_sum_erase (Finset.range n) (fun u => weight u (threads u)) mem
  have after := Finset.add_sum_erase (Finset.range n)
    (fun u => weight u (Function.update threads t x u)) mem
  rw [others, Function.update_self] at after
  unfold total
  omega

theorem total_const {c : Nat} (same : ∀ t < n, weight t (threads t) = c) :
    total weight threads n = n * c := by
  rw [total, Finset.sum_const_nat fun t mem => same t (Finset.mem_range.mp mem), Finset.card_range]

theorem total_eq_iff (small : ∀ t x, weight t x ≤ 1) :
    total weight threads n = n ↔ ∀ t < n, weight t (threads t) = 1 := by
  constructor
  · intro full t created
    by_contra less
    have none : weight t (threads t) < 1 := Nat.lt_of_le_of_ne (small ..) less
    have strict : total weight threads n < ∑ _u ∈ Finset.range n, 1 :=
      Finset.sum_lt_sum (fun u _ => small ..) ⟨t, Finset.mem_range.mpr created, none⟩
    rw [Finset.sum_const_nat fun _ _ => rfl, Finset.card_range, Nat.mul_one, full] at strict
    exact Nat.lt_irrefl n strict
  · intro all
    rw [total_const weight threads all, Nat.mul_one]

end Pool

end SystemsLab.StepRuns
