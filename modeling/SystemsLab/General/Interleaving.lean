import Mathlib.Logic.Function.Basic
import Mathlib.Data.List.Basic

/-! Threads as lists of the steps they still have to take, and the traces that a scheduler can
make of them. A trace seen through a filter that lets only one thread's steps pass
is that thread's list seen through the filter, whatever the schedule was. -/

namespace SystemsLab.Interleaving

variable {ι σ : Type*} [DecidableEq ι]

/-- `trace` takes the threads' steps in some order that respects each thread. -/
inductive Scheduled : (ι → List σ) → List σ → Prop where
  | idle : Scheduled (fun _ => []) []
  | step {threads : ι → List σ} {trace rest : List σ} {x : σ} (t : ι) (next : threads t = x :: rest)
      (later : Scheduled (Function.update threads t rest) trace) : Scheduled threads (x :: trace)

variable {threads : ι → List σ} {trace : List σ}

theorem Scheduled.mem (h : Scheduled threads trace) {x : σ} (inside : x ∈ trace) :
    ∃ t, x ∈ threads t := by
  induction h with
  | idle => exact absurd inside List.not_mem_nil
  | @step threads trace rest y t next _ ih =>
    rcases List.mem_cons.mp inside with rfl | later
    · exact ⟨t, next ▸ List.mem_cons_self⟩
    · obtain ⟨u, mem⟩ := ih later
      by_cases same : u = t
      · subst same
        rw [Function.update_self] at mem
        exact ⟨u, next ▸ List.mem_cons_of_mem y mem⟩
      · rw [Function.update_of_ne same] at mem
        exact ⟨u, mem⟩

theorem Scheduled.filter_eq (h : Scheduled threads trace) (p : σ → Bool) (owner : ι)
    (others : ∀ t, t ≠ owner → (threads t).filter p = []) :
    trace.filter p = (threads owner).filter p := by
  induction h with
  | idle => rfl
  | @step threads trace rest x t next _ ih =>
    by_cases own : t = owner
    · subst own
      have tail := ih fun u ne => by
        rw [Function.update_of_ne ne]
        exact others u ne
      rw [Function.update_self] at tail
      rw [next, List.filter_cons, List.filter_cons, tail]
    · have silent := others t own
      rw [next] at silent
      have skip : ¬ p x = true := fun hx => by
        rw [List.filter_cons_of_pos hx] at silent
        exact absurd silent (List.cons_ne_nil _ _)
      rw [List.filter_cons_of_neg skip] at silent ⊢
      rw [ih fun u ne => ?_, Function.update_of_ne (Ne.symm own)]
      by_cases same : u = t
      · rw [same, Function.update_self, silent]
      · rw [Function.update_of_ne same]
        exact others u ne

/-- A thread may run to its end before the others go on. -/
theorem Scheduled.run_first (t : ι) (later : Scheduled (Function.update threads t []) trace) :
    Scheduled threads (threads t ++ trace) := by
  generalize own : threads t = steps
  induction steps generalizing threads with
  | nil =>
    rwa [← own, Function.update_eq_self] at later
  | cons x steps ih =>
    refine .step t own (ih ?_ (Function.update_self ..))
    rwa [Function.update_idem]

theorem exists_scheduled (n : Nat) (threads : Nat → List σ) (idle : ∀ t, n ≤ t → threads t = []) :
    ∃ trace, Scheduled threads trace := by
  induction n generalizing threads with
  | zero =>
    have none : threads = fun _ => [] := funext fun t => idle t (Nat.zero_le t)
    exact ⟨[], none ▸ .idle⟩
  | succ n ih =>
    obtain ⟨trace, later⟩ := ih (Function.update threads n []) fun t ge => by
      by_cases last : t = n
      · rw [last, Function.update_self]
      · rw [Function.update_of_ne last, idle t (by omega)]
    exact ⟨_, later.run_first n⟩

end SystemsLab.Interleaving
