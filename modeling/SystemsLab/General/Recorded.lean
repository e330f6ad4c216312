import SystemsLab.General.CountedLoop

/-! Runs with a record of what they did. A run is its value and the list of its events in order; a
run of several parts has the events of the parts one after the other. The events never
influence a value. -/

namespace SystemsLab.Recorded
open CountedLoop

structure Run (ω β : Type) where
  value : β
  events : List ω

variable {ω β γ σ : Type}

protected def Run.pure (x : β) : Run ω β := ⟨x, []⟩

protected def Run.bind (x : Run ω β) (f : β → Run ω γ) : Run ω γ :=
  ⟨(f x.value).value, x.events ++ (f x.value).events⟩

instance : Monad (Run ω) where
  pure := Run.pure
  bind := Run.bind

@[simp] theorem pure_eq (x : β) : (pure x : Run ω β) = ⟨x, []⟩ := rfl

@[simp] theorem mk_bind (x : β) (events : List ω) (f : β → Run ω γ) :
    ((⟨x, events⟩ : Run ω β) >>= f) = ⟨(f x).value, events ++ (f x).events⟩ := rfl

@[simp] theorem value_bind (x : Run ω β) (f : β → Run ω γ) :
    (x >>= f).value = (f x.value).value := rfl

@[simp] theorem events_bind (x : Run ω β) (f : β → Run ω γ) :
    (x >>= f).events = x.events ++ (f x.value).events := rfl

def collect {n : Nat} (f : Fin n → Run ω β) : Run ω (Vector β n) :=
  ⟨Vector.ofFn fun j => (f j).value, (List.finRange n).flatMap fun j => (f j).events⟩

def loopArray (n : Nat) (body : (i : Nat) → i < n → σ → Run ω σ) (s : σ) : Run ω σ :=
  n.fold (fun i h r => r >>= body i h) (pure s)

/-- `for (i = lo; i < hi; i += step) body`. -/
def loop (lo hi step : Nat) (body : Nat → σ → Run ω σ) (s : σ) : Run ω σ :=
  forLoop lo hi step (fun i r => r >>= body i) (pure s)

/-- `while (count--) body`. -/
def countDown : Nat → (σ → Run ω σ) → σ → Run ω σ
  | 0, _, s => pure s
  | count + 1, body, s => do
      let s ← body s
      countDown count body s

theorem loop_inv (motive : Nat → Run ω σ → Prop) (lo count step : Nat)
    (body : Nat → σ → Run ω σ) (s : σ) (pos : 0 < step) (start : motive 0 (pure s))
    (next : ∀ n r, n < count → motive n r → motive (n + 1) (r >>= body (lo + step * n))) :
    motive count (loop lo (lo + step * count) step body s) :=
  forLoop_inv motive lo count step _ _ pos start next

theorem countDown_inv (motive : Nat → Run ω σ → Prop) (count : Nat) (body : σ → Run ω σ) (s : σ)
    (start : motive 0 (pure s))
    (next : ∀ n r, n < count → motive n r → motive (n + 1) (r >>= body)) :
    motive count (countDown count body s) := by
  -- what comes before the loop is part of the run that the motive is about
  have after : ∀ n k (r : Run ω σ), n + k = count → motive k r →
      motive count (r >>= countDown n body) := by
    intro n
    induction n with
    | zero =>
      intro k r last inv
      have done : (r >>= countDown 0 body) = r := by
        simp [bind, Run.bind, countDown]
      rw [done, ← last, Nat.zero_add]
      exact inv
    | succ n ih =>
      intro k r more inv
      have step : (r >>= countDown (n + 1) body) = (r >>= body) >>= countDown n body := by
        simp [bind, Run.bind, countDown, List.append_assoc]
      rw [step]
      exact ih (k + 1) _ (by omega) (next k r (by omega) inv)
  exact after count 0 (pure s) (Nat.add_zero count) start

/-! ## Loops that do the same in every iteration -/

section Same

variable {events : List ω}

theorem loopArray_value {n : Nat} (body : (i : Nat) → i < n → σ → Run ω σ) (s : σ) :
    (loopArray n body s).value = n.fold (fun i h s => (body i h s).value) s := by
  induction n with
  | zero => rfl
  | succ n ih =>
    rw [loopArray, Nat.fold_succ, Nat.fold_succ, value_bind, ← ih]
    rfl

theorem loopArray_events {n : Nat} {body : (i : Nat) → i < n → σ → Run ω σ} (s : σ)
    (same : ∀ i h s, (body i h s).events = events) :
    (loopArray n body s).events = (List.replicate n events).flatten :=
  fold_inv (fun k (r : Run ω σ) => r.events = (List.replicate k events).flatten) n _ _ rfl (by
    intro k hk r done
    rw [events_bind, same, done, List.replicate_succ', List.flatten_append]
    simp)

theorem loop_value (lo hi step : Nat) (body : Nat → σ → Run ω σ) (s : σ) :
    (loop lo hi step body s).value = forLoop lo hi step (fun i s => (body i s).value) s :=
  forLoop_hom Run.value (fun _ _ => rfl) _

theorem loop_events {body : Nat → σ → Run ω σ} (lo hi step : Nat) (s : σ)
    (same : ∀ i s, (body i s).events = events) : (loop lo hi step body s).events =
      (List.replicate (indices lo hi step).length events).flatten := by
  have steps : (loop lo hi step body s).events = forLoop lo hi step (fun _ l => l ++ events) [] :=
    forLoop_hom Run.events (fun i r => by rw [events_bind, same]) _
  rw [steps, forLoop, List.foldl_append_eq_append, List.nil_append, List.map_const']

end Same

end SystemsLab.Recorded
