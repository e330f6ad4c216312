import Mathlib.Algebra.BigOperators.Group.Finset.Basic
import Mathlib.Algebra.BigOperators.Group.Finset.Piecewise

/-! Machines that answer every input, and a family of them of which each input reaches one.
A member of the family sees its own inputs in their order, so its state is that of a run on these
alone, and the answers of the family are counted member by member. -/

namespace SystemsLab.Routing

variable {ι σ τ ρ α : Type*} (step : σ → ρ → α × σ)

def run (s : σ) : List ρ → List α × σ
  | [] => ([], s)
  | x :: rest =>
    let r := step s x
    let rs := run r.2 rest
    (r.1 :: rs.1, rs.2)

variable {step} {step' : τ → ρ → α × τ}

theorem run_related (rel : σ → τ → Prop)
    (next : ∀ s t x, rel s t → (step s x).1 = (step' t x).1 ∧ rel (step s x).2 (step' t x).2)
    {s : σ} {t : τ} (start : rel s t) (xs : List ρ) :
    (run step s xs).1 = (run step' t xs).1 ∧ rel (run step s xs).2 (run step' t xs).2 := by
  induction xs generalizing s t with
  | nil => exact ⟨rfl, start⟩
  | cons x rest ih =>
    obtain ⟨answer, related⟩ := next s t x start
    obtain ⟨answers, last⟩ := ih related
    exact ⟨congrArg₂ List.cons answer answers, last⟩

section Family

variable [DecidableEq ι] (route : ρ → ι) (step)

def routed (parts : ι → σ) (x : ρ) : α × (ι → σ) :=
  let r := step (parts (route x)) x
  (r.1, Function.update parts (route x) r.2)

def inputsOf (k : ι) (xs : List ρ) : List ρ := xs.filter fun x => decide (route x = k)

variable {step route}

theorem routed_self (parts : ι → σ) (x : ρ) :
    (routed step route parts x).2 (route x) = (step (parts (route x)) x).2 :=
  Function.update_self ..

theorem routed_of_ne (parts : ι → σ) {k : ι} {x : ρ} (other : route x ≠ k) :
    (routed step route parts x).2 k = parts k :=
  Function.update_of_ne other.symm ..

theorem inputsOf_self (x : ρ) (rest : List ρ) :
    inputsOf route (route x) (x :: rest) = x :: inputsOf route (route x) rest :=
  List.filter_cons_of_pos (decide_eq_true rfl)

theorem inputsOf_of_ne {k : ι} {x : ρ} (other : route x ≠ k) (rest : List ρ) :
    inputsOf route k (x :: rest) = inputsOf route k rest :=
  List.filter_cons_of_neg (by simpa using other)

theorem run_routed_part (parts : ι → σ) (xs : List ρ) (k : ι) :
    (run (routed step route) parts xs).2 k = (run step (parts k) (inputsOf route k xs)).2 := by
  induction xs generalizing parts with
  | nil => rfl
  | cons x rest ih =>
    rw [run]
    refine (ih _).trans ?_
    by_cases own : route x = k
    · subst own
      rw [inputsOf_self, routed_self, run]
    · rw [inputsOf_of_ne own, routed_of_ne parts own]

theorem count_run_routed [DecidableEq α] (parts : ι → σ) (xs : List ρ) (a : α) (members : Finset ι)
    (inside : ∀ x ∈ xs, route x ∈ members) :
    (run (routed step route) parts xs).1.count a =
      ∑ k ∈ members, (run step (parts k) (inputsOf route k xs)).1.count a := by
  induction xs generalizing parts with
  | nil => exact (Finset.sum_const_zero).symm
  | cons x rest ih =>
    have member (k : ι) : (run step (parts k) (inputsOf route k (x :: rest))).1.count a =
        (run step ((routed step route parts x).2 k) (inputsOf route k rest)).1.count a +
          if route x = k then (if (step (parts (route x)) x).1 == a then 1 else 0) else 0 := by
      by_cases own : route x = k
      · subst own
        rw [inputsOf_self, routed_self, if_pos rfl, run]
        exact List.count_cons
      · rw [inputsOf_of_ne own, routed_of_ne parts own, if_neg own, Nat.add_zero]
    have first := inside x List.mem_cons_self
    rw [Finset.sum_congr rfl fun k _ => member k, Finset.sum_add_distrib, Finset.sum_ite_eq,
      if_pos first, ← ih _ fun y mem => inside y (List.mem_cons_of_mem x mem), run]
    exact List.count_cons

theorem perm_of_inputsOf [DecidableEq ρ] (route : ρ → ι) {xs ys : List ρ}
    (same : ∀ k, inputsOf route k xs = inputsOf route k ys) : xs.Perm ys := by
  rw [List.perm_iff_count]
  intro x
  have own (zs : List ρ) : (inputsOf route (route x) zs).count x = zs.count x :=
    List.count_filter (decide_eq_true rfl)
  rw [← own xs, ← own ys, same]

end Family

end SystemsLab.Routing
