import Mathlib.Data.List.Basic
import Mathlib.Data.Vector.Basic

/-! Four-word feedback registers: one word leaves the window, is mixed with a
keyed function of the other three, and comes back as the newest word. The
network needs no inverse of the feedback function; reversing the window and
the keys runs it backwards. -/

namespace SystemsLab.ShiftRegister

/-- A window of four consecutive words, oldest first. -/
structure Window (α : Type*) where
  a : α
  b : α
  c : α
  d : α
deriving DecidableEq

namespace Window

def rev {α : Type*} (w : Window α) : Window α := ⟨w.d, w.c, w.b, w.a⟩

def map {α β : Type*} (g : α → β) (w : Window α) : Window β := ⟨g w.a, g w.b, g w.c, g w.d⟩

@[simp] theorem rev_rev {α : Type*} (w : Window α) : w.rev.rev = w := rfl

end Window

section Register

variable {α κ : Type*} (mix : α → α → α) (f : κ → α → α → α → α)

def shift (k : κ) (w : Window α) : Window α :=
  ⟨w.b, w.c, w.d, mix w.a (f k w.b w.c w.d)⟩

def run (keys : List κ) (w : Window α) : Window α :=
  keys.foldl (fun w k => shift mix f k w) w

def outputs : List κ → Window α → List α
  | [], _ => []
  | k :: keys, w => (shift mix f k w).d :: outputs keys (shift mix f k w)

@[simp] theorem run_nil (w : Window α) : run mix f [] w = w := rfl

@[simp] theorem run_cons (k : κ) (keys : List κ) (w : Window α) :
    run mix f (k :: keys) w = run mix f keys (shift mix f k w) := rfl

theorem run_append (first second : List κ) (w : Window α) :
    run mix f (first ++ second) w = run mix f second (run mix f first w) :=
  List.foldl_append

theorem outputs_append (first second : List κ) (w : Window α) :
    outputs mix f (first ++ second) w =
      outputs mix f first w ++ outputs mix f second (run mix f first w) := by
  induction first generalizing w with
  | nil => rfl
  | cons k first ih => simp only [List.cons_append, outputs, ih, run_cons]

/-- A sequence that satisfies the recurrence of the register passes through its window. -/
theorem run_eq_of_recurrence (keys : List κ) (x : Nat → α)
    (next : ∀ i (h : i < keys.length),
      x (i + 4) = mix (x i) (f keys[i] (x (i + 1)) (x (i + 2)) (x (i + 3)))) :
    run mix f keys ⟨x 0, x 1, x 2, x 3⟩ =
      ⟨x keys.length, x (keys.length + 1), x (keys.length + 2), x (keys.length + 3)⟩ := by
  induction keys generalizing x with
  | nil => rfl
  | cons k keys ih =>
    have first : x 4 = mix (x 0) (f k (x 1) (x 2) (x 3)) := next 0 (Nat.zero_lt_succ _)
    have rest := ih (fun i => x (i + 1)) fun i h => next (i + 1) (Nat.succ_lt_succ h)
    simp only [run_cons, shift, ← first]
    exact rest

variable (cancel : ∀ a t, mix (mix a t) t = a) (symmetric : ∀ k b c d, f k b c d = f k d c b)

include cancel symmetric in
theorem shift_rev_shift (k : κ) (w : Window α) :
    shift mix f k (shift mix f k w).rev = w.rev := by
  simp only [shift, Window.rev, symmetric k w.d w.c w.b, cancel]

include cancel symmetric in
/-- A run with the keys reversed undoes a run, on the reversed window. -/
theorem run_reverse_rev (keys : List κ) (w : Window α) :
    run mix f keys.reverse (run mix f keys w).rev = w.rev := by
  induction keys generalizing w with
  | nil => rfl
  | cons k keys ih =>
    rw [List.reverse_cons, run_append, run_cons mix f k keys w, ih, run_cons, run_nil]
    exact shift_rev_shift mix f cancel symmetric k w

end Register

section Homomorphism

variable {α β κ μ : Type*} (mix : α → α → α) (f : κ → α → α → α → α)
  (mix' : β → β → β) (f' : μ → β → β → β → β) (g : α → β) (h : κ → μ)
  (map_mix : ∀ a t, g (mix a t) = mix' (g a) (g t))
  (map_f : ∀ k b c d, g (f k b c d) = f' (h k) (g b) (g c) (g d))

include map_mix map_f in
theorem map_run (keys : List κ) (w : Window α) :
    (run mix f keys w).map g = run mix' f' (keys.map h) (w.map g) := by
  induction keys generalizing w with
  | nil => rfl
  | cons k keys ih =>
    rw [run_cons, ih, List.map_cons, run_cons]
    congr 1
    simp only [shift, Window.map, map_mix, map_f]

end Homomorphism

section Agreement

variable {α κ : Type*} (mix : α → α → α) (f f' : κ → α → α → α → α)

def feeds : List κ → Window α → List (κ × α × α × α)
  | [], _ => []
  | k :: keys, w => (k, w.b, w.c, w.d) :: feeds keys (shift mix f k w)

theorem run_congr (keys : List κ) (w : Window α)
    (agree : ∀ x ∈ feeds mix f keys w, f' x.1 x.2.1 x.2.2.1 x.2.2.2 = f x.1 x.2.1 x.2.2.1 x.2.2.2) :
    run mix f' keys w = run mix f keys w := by
  induction keys generalizing w with
  | nil => rfl
  | cons k keys ih =>
    have head := agree (k, w.b, w.c, w.d) List.mem_cons_self
    have step : shift mix f' k w = shift mix f k w := by simp only [shift, head]
    rw [run_cons, run_cons, step]
    exact ih _ fun x hx => agree x (List.mem_cons_of_mem _ hx)

theorem outputs_eq_iff (injective : ∀ a s t, mix a s = mix a t → s = t)
    (keys : List κ) (w : Window α) :
    outputs mix f' keys w = outputs mix f keys w ↔
      ∀ x ∈ feeds mix f keys w, f' x.1 x.2.1 x.2.2.1 x.2.2.2 = f x.1 x.2.1 x.2.2.1 x.2.2.2 := by
  induction keys generalizing w with
  | nil => simp [outputs, feeds]
  | cons k keys ih =>
    simp only [outputs, feeds, List.cons.injEq, List.forall_mem_cons]
    constructor
    · rintro ⟨head, tail⟩
      have agree : f' k w.b w.c w.d = f k w.b w.c w.d := injective _ _ _ head
      have step : shift mix f' k w = shift mix f k w := by simp only [shift, agree]
      rw [step] at tail
      exact ⟨agree, (ih _).mp tail⟩
    · rintro ⟨agree, rest⟩
      have step : shift mix f' k w = shift mix f k w := by simp only [shift, agree]
      rw [step]
      exact ⟨rfl, (ih _).mpr rest⟩

end Agreement

end SystemsLab.ShiftRegister
