import SystemsLab.General.StepRuns
import SystemsLab.Matmul.Agreement

/-! The final version of the matrix product (`matmul_multithread_final`), whose threads share a
transposed `B` that the first of them makes. A thread tests the static pointer, publishes a
fresh array in it, writes the elements one after the other, and only then multiplies; a
thread that finds the pointer set multiplies at once. -/

namespace SystemsLab.LazyTranspose
open CountedLoop LoopNest Interleaving RowMajor StepRuns Matmul

/-- Where a thread stands in `thread_final_optimize`; a loop is what it still has to do. -/
inductive Phase where
  | test
  | publish
  | fill (elements : List (Nat × Nat))
  | multiply (visits : List Visit)
deriving DecidableEq

/-- `B_T` names one of the arrays that `malloc` has returned; `heap` has what was written into them.
-/
structure State (α : Type*) where
  BT : Option Nat
  arrays : Nat
  heap : Nat → Nat → Option α
  C : Nat → α
  threads : Nat → Phase

namespace State

variable {α : Type*} (s : State α)

def goto (t : Nat) (phase : Phase) : State α :=
  { s with threads := Function.update s.threads t phase }

def store (id a : Nat) (x : α) : State α :=
  { s with heap := Function.update s.heap id (Function.update (s.heap id) a (some x)) }

/-- An element that nobody has written holds what `malloc` left there. -/
def load (junk : Nat → Nat → α) (id a : Nat) : α := (s.heap id a).getD (junk id a)

@[simp] theorem goto_threads (t : Nat) (phase : Phase) :
    (s.goto t phase).threads = Function.update s.threads t phase := rfl

end State

section Steps

variable {α : Type*} [Add α] [Mul α] (g : Globals α) (junk : Nat → Nat → α)

def elements (K N : Nat) : List (Nat × Nat) := emit 0 K 1 fun k => emit 0 N 1 fun j => [(k, j)]

def finalVisits (t : Nat) : List Visit := threadFuncBlocked g (threadData g t)

/-- One step of thread `t`; `none` when it has finished. -/
def step (s : State α) (t : Nat) : Option (State α) :=
  match s.threads t with
  | .test => some (s.goto t (if s.BT = none then .publish else .multiply (finalVisits g t)))
  | .publish => some ({ s with BT := some s.arrays, arrays := s.arrays + 1 }.goto t
      (.fill (elements g.K g.N)))
  | .fill [] => some (s.goto t (.multiply (finalVisits g t)))
  | .fill ((k, j) :: rest) =>
    s.BT.map fun id => (s.store id (j * g.K + k) (g.B (k * g.N + j))).goto t (.fill rest)
  | .multiply [] => none
  | .multiply (v :: rest) =>
    s.BT.map fun id =>
      { s with
        C :=
          addTo s.C (v.i * g.N + v.j)
            (g.A (v.i * g.K + v.k) * s.load junk id (v.j * g.K + v.k)) }.goto t
        (.multiply rest)

inductive Moves (s : State α) (t : Nat) : State α → Prop where
  | unset (here : s.threads t = .test) (unset : s.BT = none) : Moves s t (s.goto t .publish)
  | set (here : s.threads t = .test) (set : s.BT ≠ none) : Moves s t
      (s.goto t (.multiply (finalVisits g t)))
  | publish (here : s.threads t = .publish) :
      Moves s t ({ s with BT := some s.arrays, arrays := s.arrays + 1 }.goto t
        (.fill (elements g.K g.N)))
  | write {k j id : Nat} {rest : List (Nat × Nat)} (here : s.threads t = .fill ((k, j) :: rest))
      (array : s.BT = some id) :
      Moves s t ((s.store id (j * g.K + k) (g.B (k * g.N + j))).goto t (.fill rest))
  | filled (here : s.threads t = .fill []) : Moves s t (s.goto t (.multiply (finalVisits g t)))
  | add {v : Visit} {id : Nat} {rest : List Visit} (here : s.threads t = .multiply (v :: rest))
      (array : s.BT = some id) :
      Moves s t ({ s with
        C := addTo s.C (v.i * g.N + v.j)
          (g.A (v.i * g.K + v.k) * s.load junk id (v.j * g.K + v.k)) }.goto t (.multiply rest))

theorem step_moves {s s' : State α} {t : Nat} (h : step g junk s t = some s') :
    Moves g junk s t s' := by
  unfold step at h
  split at h
  case h_1 here =>
    cases h
    split
    case isTrue unset => exact .unset here unset
    case isFalse set => exact .set here set
  case h_2 here =>
    cases h
    exact .publish here
  case h_3 here =>
    cases h
    exact .filled here
  case h_4 here =>
    obtain ⟨id, array, rfl⟩ := Option.map_eq_some_iff.mp h
    exact .write here array
  case h_5 => cases h
  case h_6 here =>
    obtain ⟨id, array, rfl⟩ := Option.map_eq_some_iff.mp h
    exact .add here array

end Steps

/-! ## What every run preserves -/

section Invariant

variable {α : Type*} (g : Globals α) (junk : Nat → Nat → α) (C : Nat → α)

/-- The first call, on a cleared `C`, once its threads are created. -/
def start [Zero α] : State α where
  BT := none
  arrays := 0
  heap _ _ := none
  C := clearC g C
  threads t := if t < g.numThreads then .test else .multiply []

def Finished (s : State α) : Prop := ∀ t < g.numThreads, s.threads t = .multiply []

instance (s : State α) : Decidable (Finished g s) :=
  inferInstanceAs (Decidable (∀ t < g.numThreads, s.threads t = .multiply []))

/-- When thread `t` is about to multiply, the element that it reads has been written. -/
def ReadsWritten (s : State α) (t : Nat) : Prop :=
  ∀ v rest id, s.threads t = .multiply (v :: rest) → s.BT = some id →
    (s.heap id (v.j * g.K + v.k)).isSome

instance (s : State α) (t : Nat) : Decidable (ReadsWritten g s t) :=
  match here : s.threads t, array : s.BT with
  | .multiply (v :: _), some id =>
    decidable_of_iff ((s.heap id (v.j * g.K + v.k)).isSome) ⟨fun h w _ id' here' array' => by
      rw [here, Phase.multiply.injEq, List.cons.injEq] at here'
      rw [array, Option.some.injEq] at array'
      rwa [← here'.1, ← array'], fun h => h v _ id here array⟩
  | .multiply (_ :: _), none => isTrue fun _ _ _ _ array' => by cases array.symm.trans array'
  | .multiply [], _ | .test, _ | .publish, _ | .fill _, _ =>
    isTrue fun _ _ _ here' _ => by cases here.symm.trans here'

def rest (t : Nat) : Phase → List Visit
  | .multiply visits => visits
  | .test | .publish | .fill _ => if t < g.numThreads then finalVisits g t else []

def remaining (s : State α) (t : Nat) : List Visit := rest g t (s.threads t)

def Phase.Fits (BT : Option Nat) (t : Nat) : Phase → Prop
  | .test | .publish => t < g.numThreads
  | .fill elements => t < g.numThreads ∧ BT.isSome ∧ ∀ e ∈ elements, e.1 < g.K ∧ e.2 < g.N
  | .multiply visits => ∀ v ∈ visits, t < g.numThreads ∧ BT.isSome ∧ v.k < g.K ∧ v.j < g.N

/-- The arrays hold elements of `B` in their places, as far as they are written. -/
structure Built (s : State α) : Prop where
  fits : ∀ t, (s.threads t).Fits g s.BT t
  written : ∀ id k j x, k < g.K → j < g.N → s.heap id (j * g.K + k) = some x → x = g.B (k * g.N + j)

/-- The rest of the multiply-adds would complete the product, in whatever order they come, if they
read `B`. -/
def Completes [Zero α] [Add α] [Mul α] (s : State α) : Prop :=
  ∀ trace, Scheduled (remaining g s) trace →
    runVisits g (plainB g) s.C trace = matmulNaive g (clearC g C)

variable {g junk C} {s s' : State α} {t : Nat}

theorem Phase.Fits.lt {BT : Option Nat} {phase : Phase} (h : phase.Fits g BT t)
    (active : phase ≠ .multiply []) : t < g.numThreads := by
  cases phase with
  | test => exact h
  | publish => exact h
  | fill left => exact h.1
  | multiply visits =>
    obtain ⟨v, mem⟩ :=
      List.exists_mem_of_ne_nil visits fun none => active (congrArg Phase.multiply none)
    exact (h v mem).1

theorem finalVisits_fits (someBlock : 1 ≤ g.blockSize) (created : t < g.numThreads)
    {BT : Option Nat} (array : BT.isSome) :
    (Phase.multiply (finalVisits g t)).Fits g BT t := by
  have cover :=
    blockedVisits_covers someBlock g.K g.N (threadData g t).startRow (threadData g t).endRow
  intro v mem
  exact ⟨created, array, cover.small mem, (cover.inside v mem).2.2⟩

theorem mem_elements {K N k j : Nat} : (k, j) ∈ elements K N ↔ k < K ∧ j < N := by
  simp [elements, mem_emit, mem_indices_one]

theorem remaining_goto (phase : Phase) :
    remaining g (s.goto t phase) = Function.update (remaining g s) t (rest g t phase) := by
  funext u
  by_cases same : u = t
  · subst same
    simp [remaining]
  · simp [remaining, same]

theorem remaining_goto_of_eq {phase : Phase} (same : rest g t phase = rest g t (s.threads t)) :
    remaining g (s.goto t phase) = remaining g s := by
  rw [remaining_goto, same]
  exact Function.update_eq_self t (remaining g s)

theorem Phase.Fits.mono {BT BT' : Option Nat} {phase : Phase} (later : BT.isSome → BT'.isSome)
    (h : phase.Fits g BT t) : phase.Fits g BT' t := by
  cases phase with
  | test => exact h
  | publish => exact h
  | fill elements => exact ⟨h.1, later h.2.1, h.2.2⟩
  | multiply visits => exact fun v mem => ⟨(h v mem).1, later (h v mem).2.1, (h v mem).2.2⟩

theorem fits_goto {BT : Option Nat} {phase : Phase} (later : s.BT.isSome → BT.isSome)
    (fits : ∀ u, (s.threads u).Fits g s.BT u) (own : phase.Fits g BT t) (u : Nat) :
    (Function.update s.threads t phase u).Fits g BT u := by
  by_cases same : u = t
  · subst same
    rwa [Function.update_self]
  · rw [Function.update_of_ne same]
    exact (fits u).mono later

theorem start_built [Zero α] : Built g (start g C) where
  fits t := by
    rw [start]
    dsimp only
    split
    case isTrue created => exact created
    case isFalse => exact fun v mem => absurd mem List.not_mem_nil
  written id k j x _ _ here := by cases here

theorem start_completes [Zero α] [Add α] [Mul α] (someThread : 1 ≤ g.numThreads)
    (someBlock : 1 ≤ g.blockSize) :
    Completes g C (start g C) := by
  intro trace run
  have all : remaining g (start g C) = threads g (threadFuncBlocked g) := by
    funext t
    rw [remaining, start, threads]
    dsimp only
    split
    case isTrue created => rw [rest, if_pos created, finalVisits]
    case isFalse => rfl
  rw [all] at run
  exact runVisits_eq_naive g
    (scheduled_covers g someThread (fun _ => blockedVisits_covers someBlock ..) run)
    (fun _ _ _ _ => rfl) C

theorem rest_of_not_created {BT : Option Nat} {phase : Phase} (fits : phase.Fits g BT t)
    (none : g.numThreads ≤ t) : rest g t phase = [] := by
  have done : phase = .multiply [] := by
    by_contra active
    exact absurd (fits.lt active) (Nat.not_lt.mpr none)
  rw [done, rest]

theorem written_store {id k j : Nat}
    (written : ∀ id k j x, k < g.K → j < g.N → s.heap id (j * g.K + k) = some x →
      x = g.B (k * g.N + j))
    (hk : k < g.K) (id' k' j' : Nat) (x : α) (hk' : k' < g.K) (hj' : j' < g.N)
    (here : (s.store id (j * g.K + k) (g.B (k * g.N + j))).heap id' (j' * g.K + k') = some x) :
    x = g.B (k' * g.N + j') := by
  rw [State.store] at here
  dsimp only at here
  by_cases array : id' = id
  · subst array
    rw [Function.update_self] at here
    by_cases place : j' * g.K + k' = j * g.K + k
    · obtain ⟨col, row⟩ := cell_eq hk' hk place
      rw [place, Function.update_self, Option.some.injEq] at here
      rw [← here, col, row]
    · rw [Function.update_of_ne place] at here
      exact written id' k' j' x hk' hj' here
  · rw [Function.update_of_ne array] at here
    exact written id' k' j' x hk' hj' here

section Step

variable [Add α] [Mul α]

theorem step_built (someBlock : 1 ≤ g.blockSize) (inv : Built g s) (h : step g junk s t = some s') :
    Built g s' := by
  have fits := inv.fits t
  cases step_moves g junk h with
  | unset here unset =>
    rw [here] at fits
    exact ⟨fits_goto (fun h => h) inv.fits fits, inv.written⟩
  | set here set =>
    rw [here] at fits
    have array := Option.isSome_iff_ne_none.mpr set
    exact ⟨fits_goto (fun h => h) inv.fits (finalVisits_fits someBlock fits array), inv.written⟩
  | publish here =>
    rw [here] at fits
    refine ⟨fits_goto (fun h => h) (fun u => (inv.fits u).mono fun _ => rfl) ?_, inv.written⟩
    exact ⟨fits, rfl, fun e mem => mem_elements.mp mem⟩
  | @write k j id more here array =>
    rw [here] at fits
    have range := fits.2.2 (k, j) List.mem_cons_self
    refine ⟨fits_goto (fun h => h) inv.fits ?_, written_store inv.written range.1⟩
    exact ⟨fits.1, fits.2.1, fun e mem => fits.2.2 e (List.mem_cons_of_mem _ mem)⟩
  | filled here =>
    rw [here] at fits
    exact ⟨fits_goto (fun h => h) inv.fits (finalVisits_fits someBlock fits.1 fits.2.1),
      inv.written⟩
  | @add v id more here array =>
    rw [here] at fits
    exact ⟨fits_goto (fun h => h) inv.fits fun w mem => fits w (List.mem_cons_of_mem v mem),
      inv.written⟩

theorem exists_step (inv : Built g s) (more : s.threads t ≠ .multiply []) :
    ∃ s', step g junk s t = some s' := by
  have fits := inv.fits t
  unfold step
  split
  case h_1 => exact ⟨_, rfl⟩
  case h_2 => exact ⟨_, rfl⟩
  case h_3 => exact ⟨_, rfl⟩
  case h_4 here =>
    rw [here] at fits
    obtain ⟨id, array⟩ := Option.isSome_iff_exists.mp fits.2.1
    exact ⟨_, by rw [array]; rfl⟩
  case h_5 here => exact absurd here more
  case h_6 here =>
    rw [here] at fits
    obtain ⟨id, array⟩ := Option.isSome_iff_exists.mp (fits _ List.mem_cons_self).2.1
    exact ⟨_, by rw [array]; rfl⟩

theorem Built.exists_unfinished (inv : Built g s) (unfinished : ¬ Finished g s) :
    ∃ t s', step g junk s t = some s' := by
  unfold Finished at unfinished
  push Not at unfinished
  obtain ⟨t, -, more⟩ := unfinished
  exact ⟨t, exists_step inv more⟩

theorem step_remaining (inv : Built g s) (h : step g junk s t = some s') :
    (remaining g s' = remaining g s ∧ s'.C = s.C) ∨
      ∃ v more id, s.threads t = .multiply (v :: more) ∧ s.BT = some id ∧
        remaining g s' = Function.update (remaining g s) t more ∧
        s'.C = addTo s.C (v.i * g.N + v.j)
          (g.A (v.i * g.K + v.k) * s.load junk id (v.j * g.K + v.k)) := by
  have fits := inv.fits t
  cases step_moves g junk h with
  | unset here unset => exact Or.inl ⟨remaining_goto_of_eq (by rw [here]; rfl), rfl⟩
  | set here set =>
    rw [here] at fits
    have created : t < g.numThreads := fits
    exact Or.inl ⟨remaining_goto_of_eq (by rw [here, rest, rest, if_pos created]), rfl⟩
  | publish here => exact Or.inl ⟨remaining_goto_of_eq (by dsimp only; rw [here]; rfl), rfl⟩
  | write here array => exact Or.inl ⟨remaining_goto_of_eq (by rw [State.store, here]; rfl), rfl⟩
  | filled here =>
    rw [here] at fits
    exact Or.inl ⟨remaining_goto_of_eq (by rw [here, rest, rest, if_pos fits.1]), rfl⟩
  | @add v id more here array => exact Or.inr ⟨v, more, id, here, array, remaining_goto _, rfl⟩

end Step

section Product

variable [Zero α] [Add α] [Mul α]

theorem step_completes (inv : Built g s) (completes : Completes g C s) (ok : ReadsWritten g s t)
    (h : step g junk s t = some s') : Completes g C s' := by
  intro trace run
  rcases step_remaining inv h with ⟨same, kept⟩ | ⟨v, more, id, here, array, left, added⟩
  · rw [kept]
    exact completes trace (same ▸ run)
  · have fits := inv.fits t
    rw [here] at fits
    obtain ⟨-, -, hk, hj⟩ := fits v List.mem_cons_self
    obtain ⟨x, there⟩ := Option.isSome_iff_exists.mp (ok v more id here array)
    have value : s.load junk id (v.j * g.K + v.k) = plainB g v.k v.j := by
      rw [State.load, there, Option.getD_some]
      exact inv.written id v.k v.j x hk hj there
    have next : remaining g s t = v :: more := by rw [remaining, here, rest]
    rw [left] at run
    rw [← completes (v :: trace) (.step t next run), added, value]
    rfl

theorem finished_product (inv : Built g s) (completes : Completes g C s) (finished : Finished g s) :
    s.C = matmulNaive g (clearC g C) := by
  have none : remaining g s = fun _ => [] := by
    funext t
    rcases Nat.lt_or_ge t g.numThreads with created | not_created
    · rw [remaining, finished t created, rest]
    · exact rest_of_not_created (inv.fits t) not_created
  exact completes [] (none ▸ .idle)

end Product

/-! ## A single thread -/

section Single

def HasElement (g : Globals α) (s : State α) (e : Nat × Nat) : Prop :=
  ∀ id, s.BT = some id → (s.heap id (e.2 * g.K + e.1)).isSome

def Phase.Alone (g : Globals α) (s : State α) : Phase → Prop
  | .test => s.BT = none
  | .publish => True
  | .fill left => ∀ e ∈ elements g.K g.N, e ∈ left ∨ HasElement g s e
  | .multiply _ => ∀ e ∈ elements g.K g.N, HasElement g s e

theorem HasElement.store {e : Nat × Nat} (h : HasElement g s e) (id a : Nat) (x : α) :
    HasElement g (s.store id a x) e := by
  intro id' array
  have before := h id' array
  rw [State.store]
  dsimp only
  by_cases same : id' = id
  · subst same
    rw [Function.update_self]
    by_cases place : e.2 * g.K + e.1 = a
    · rw [place, Function.update_self]
      rfl
    · rwa [Function.update_of_ne place]
  · rwa [Function.update_of_ne same]

theorem hasElement_store {k j id : Nat} (array : s.BT = some id) (x : α) :
    HasElement g (s.store id (j * g.K + k) x) (k, j) := by
  intro id' array'
  have same : id' = id := Option.some.inj (array'.symm.trans array)
  rw [State.store, same]
  dsimp only
  rw [Function.update_self, Function.update_self]
  rfl

theorem Built.single (inv : Built g s) (one : g.numThreads = 1)
    (more : s.threads t ≠ .multiply []) : t = 0 :=
  Nat.lt_one_iff.mp (one ▸ (inv.fits t).lt more)

theorem Built.readsWritten (inv : Built g s) (one : g.numThreads = 1)
    (alone : (s.threads 0).Alone g s) (t : Nat) :
    ReadsWritten g s t := by
  intro v more id here array
  have fits := inv.fits t
  obtain rfl := inv.single one (by rw [here]; simp)
  rw [here] at fits alone
  exact alone (v.k, v.j) (mem_elements.mpr (fits v List.mem_cons_self).2.2) id array

variable [Add α] [Mul α]

theorem step_alone (inv : Built g s) (one : g.numThreads = 1) (alone : (s.threads 0).Alone g s)
    (h : step g junk s t = some s') : (s'.threads 0).Alone g s' := by
  have active : s.threads t ≠ .multiply [] := by
    intro done
    rw [step, done] at h
    cases h
  obtain rfl := inv.single one active
  cases step_moves g junk h with
  | unset here unset =>
    rw [State.goto_threads, Function.update_self]
    trivial
  | set here set =>
    rw [here] at alone
    exact absurd alone set
  | publish here =>
    rw [State.goto_threads, Function.update_self]
    exact fun e mem => Or.inl mem
  | @write k j id more here array =>
    rw [here] at alone
    rw [State.goto_threads, Function.update_self]
    intro e mem
    rcases alone e mem with left | has
    · rcases List.mem_cons.mp left with rfl | later
      · exact Or.inr (hasElement_store array _)
      · exact Or.inl later
    · exact Or.inr (has.store id _ _)
  | filled here =>
    rw [here] at alone
    rw [State.goto_threads, Function.update_self]
    exact fun e mem => (alone e mem).resolve_left List.not_mem_nil
  | add here array =>
    rw [here] at alone
    rw [State.goto_threads, Function.update_self]
    exact alone

end Single

/-! ## Several threads -/

theorem exists_first_visit (someBlock : 1 ≤ g.blockSize) (inner : 0 < g.K) (cols : 0 < g.N)
    {r i : Nat} (created : r < g.numThreads) (top : (threadData g r).startRow ≤ i)
    (bottom : i < (threadData g r).endRow) :
    ∃ v later, finalVisits g r = v :: later ∧ v.i < g.M ∧ v.j < g.N := by
  have cover := blockedVisits_covers someBlock g.K g.N (threadData g r).startRow
    (threadData g r).endRow
  obtain ⟨v, later, visits⟩ : ∃ v later, finalVisits g r = v :: later := by
    refine List.exists_cons_of_ne_nil fun none => ?_
    have cell := cover.cell i 0 top bottom cols
    rw [show blockedVisits .. = [] from none, cellVisits, indices_of_lt Nat.one_pos inner] at cell
    cases cell
  have inside := cover.inside v (show v ∈ finalVisits g r by rw [visits]; exact List.mem_cons_self)
  exact ⟨v, later, visits, Nat.lt_of_lt_of_le inside.2.1 (threadData_endRow_le g created),
    inside.2.2⟩

section Several

variable [Add α] [Mul α]

def Phase.work (g : Globals α) (t : Nat) : Phase → Nat
  | .test => (elements g.K g.N).length + (finalVisits g t).length + 3
  | .publish => (elements g.K g.N).length + (finalVisits g t).length + 2
  | .fill left => left.length + (finalVisits g t).length + 1
  | .multiply visits => visits.length

theorem step_work (inv : Built g s) (h : step g junk s t = some s') :
    total (Phase.work g) s'.threads g.numThreads < total (Phase.work g) s.threads g.numThreads := by
  obtain ⟨phase, threads, less⟩ : ∃ phase, s'.threads = Function.update s.threads t phase ∧
      phase.work g t < (s.threads t).work g t := by
    cases step_moves g junk h with
    | unset here unset => exact ⟨_, rfl, by simp only [here, Phase.work]; omega⟩
    | set here set => exact ⟨_, rfl, by simp only [here, Phase.work]; omega⟩
    | publish here => exact ⟨_, rfl, by simp only [here, Phase.work]; omega⟩
    | write here array =>
      exact ⟨_, rfl, by simp only [here, Phase.work, List.length_cons]; omega⟩
    | filled here => exact ⟨_, rfl, by simp only [here, Phase.work, List.length_nil]; omega⟩
    | add here array => exact ⟨_, rfl, by simp only [here, Phase.work, List.length_cons]; omega⟩
  have created : t < g.numThreads := by
    refine (inv.fits t).lt fun done => ?_
    rw [done, Phase.work, List.length_nil] at less
    exact Nat.not_lt_zero _ less
  have sum := total_update (Phase.work g) s.threads created phase
  rw [threads]
  omega

end Several

section Race

variable {g : Globals Int} {s s' : State Int}

/-- With ones for `A`, zeros for `B` and ones in the fresh memory no cell ever decreases. -/
theorem cell_mono (ones : g.A = fun _ => 1) (zeros : g.B = fun _ => 0) (inv : Built g s)
    (h : step g (fun _ _ => 1) s t = some s') (a : Nat) : s.C a ≤ s'.C a := by
  rcases step_remaining inv h with ⟨-, kept⟩ | ⟨v, more, id, here, -, -, added⟩
  · rw [kept]
  · have fits := inv.fits t
    rw [here] at fits
    obtain ⟨-, -, hk, hj⟩ := fits v List.mem_cons_self
    have loaded : 0 ≤ s.load (fun _ _ => 1) id (v.j * g.K + v.k) := by
      rw [State.load]
      cases there : s.heap id (v.j * g.K + v.k) with
      | none => exact Int.one_nonneg
      | some x => rw [Option.getD_some, inv.written id v.k v.j x hk hj there, zeros]
    rw [added, addTo]
    by_cases own : a = v.i * g.N + v.j
    · rw [own, Function.update_self, ones, one_mul]
      omega
    · rw [Function.update_of_ne own]

theorem entry_zeros (zeros : g.B = fun _ => 0) (i j : Nat) : entry g i j = 0 := by
  simp [entry, forLoop, zeros, List.foldl_fixed]

/-- One thread publishes the array, and another one multiplies by what it finds in there. -/
theorem exists_early_reader (ones : g.A = fun _ => 1) (several : 1 < g.numThreads)
    (someBlock : 1 ≤ g.blockSize) (rows : 0 < g.M) (inner : 0 < g.K) (cols : 0 < g.N)
    (C : Nat → Int) :
    ∃ schedule s' i j, run (step g fun _ _ => 1) (start g C) schedule = some s' ∧
      i < g.M ∧ j < g.N ∧ s'.C (i * g.N + j) = 1 := by
  obtain ⟨r, created, top, bottom, -⟩ := exists_thread g (Nat.le_of_lt several) rows
  obtain ⟨p, created', other⟩ : ∃ p < g.numThreads, p ≠ r := by
    by_cases zero : r = 0
    · exact ⟨1, several, by omega⟩
    · exact ⟨0, by omega, by omega⟩
  obtain ⟨v, later, visits, row, col⟩ := exists_first_visit someBlock inner cols created top bottom
  have cleared : clearC g C (v.i * g.N + v.j) = 0 := if_pos (cell_lt row col)
  let published : State Int :=
    { (start g C).goto p .publish with BT := some 0, arrays := 1 }.goto p
      (.fill (elements g.K g.N))
  have unset : step g (fun _ _ => 1) (start g C) p = some ((start g C).goto p .publish) := by
    simp [step, start, created']
  have publish : step g (fun _ _ => 1) ((start g C).goto p .publish) p = some published := by
    simp [step, start, State.goto, published]
  have set : step g (fun _ _ => 1) published r =
      some (published.goto r (.multiply (v :: later))) := by
    simp [step, published, start, State.goto, other.symm, created, visits]
  let wrong : State Int :=
    { published.goto r (.multiply (v :: later)) with
      C := addTo (clearC g C) (v.i * g.N + v.j) 1 }.goto r (.multiply later)
  have add : step g (fun _ _ => 1) (published.goto r (.multiply (v :: later))) r = some wrong := by
    simp [step, published, wrong, start, State.goto, State.load, ones]
  refine ⟨[p, p, r, r], wrong, v.i, v.j, ?_, row, col, ?_⟩
  · rw [run, unset, Option.bind_some, run, publish, Option.bind_some, run, set, Option.bind_some,
      run, add, Option.bind_some, run]
  · simp [wrong, State.goto, addTo, cleared]

theorem exists_wrong_run (ones : g.A = fun _ => 1) (zeros : g.B = fun _ => 0)
    (several : 1 < g.numThreads) (someBlock : 1 ≤ g.blockSize) (rows : 0 < g.M) (inner : 0 < g.K)
    (cols : 0 < g.N) (C : Nat → Int) :
    ∃ schedule s', run (step g fun _ _ => 1) (start g C) schedule = some s' ∧ Finished g s' ∧
      s'.C ≠ matmulNaive g (clearC g C) := by
  obtain ⟨first, s, i, j, early, row, col, wrong⟩ :=
    exists_early_reader ones several someBlock rows inner cols C
  have begun : Built g s :=
    run_inv (motive := Built g) (fun s t s' inv => step_built someBlock inv) start_built early
  have next : ∀ s t s', (Built g s ∧ 1 ≤ s.C (i * g.N + j)) → step g (fun _ _ => 1) s t = some s' →
      Built g s' ∧ 1 ≤ s'.C (i * g.N + j) := fun s t s' inv moved =>
    ⟨step_built someBlock inv.1 moved, inv.2.trans (cell_mono ones zeros inv.1 moved _)⟩
  have positive : Built g s ∧ 1 ≤ s.C (i * g.N + j) := ⟨begun, wrong.ge⟩
  obtain ⟨later, s', done, finished⟩ : ∃ later s', run (step g fun _ _ => 1) s later = some s' ∧
      Finished g s' :=
    exists_run_done next (fun s t s' inv => step_work inv.1)
      (fun s inv => inv.1.exists_unfinished) positive
  refine ⟨first ++ later, s', run_trans early done, finished, fun right => ?_⟩
  have still := (run_inv next positive done).2
  rw [right, matmulNaive_cell g _ row col, entry_zeros zeros] at still
  exact absurd still (by decide)

end Race

section Product

variable [Zero α] [Add α] [Mul α] {C : Nat → α}

theorem product_of_meets (someThread : 1 ≤ g.numThreads) (someBlock : 1 ≤ g.blockSize)
    {schedule : List Nat} (meets : Meets (step g junk) (ReadsWritten g) (start g C) schedule)
    (h : run (step g junk) (start g C) schedule = some s') (finished : Finished g s') :
    s'.C = matmulNaive g (clearC g C) := by
  have inv := run_inv_of_meets (motive := fun s => Built g s ∧ Completes g C s)
    (fun s t s' inv ok moved =>
      ⟨step_built someBlock inv.1 moved, step_completes inv.1 inv.2 ok moved⟩)
    ⟨start_built, start_completes someThread someBlock⟩ meets h
  exact finished_product inv.1 inv.2 finished

theorem single_meets (one : g.numThreads = 1) (someBlock : 1 ≤ g.blockSize)
    (schedule : List Nat) : Meets (step g junk) (ReadsWritten g) (start g C) schedule := by
  have first : (start g C).threads 0 = .test := if_pos one.ge
  refine meets_of_inv (motive := fun s => Built g s ∧ (s.threads 0).Alone g s)
    (fun s t s' inv moved => ⟨step_built someBlock inv.1 moved, step_alone inv.1 one inv.2 moved⟩)
    (fun s t inv => inv.1.readsWritten one inv.2 t) ⟨start_built, ?_⟩ schedule
  rw [first]
  rfl

end Product

def withData (g : Globals α) (A B : Nat → Int) : Globals Int := { g with A := A, B := B }

def AlwaysProduct (g : Globals α) : Prop :=
  ∀ A B junk C schedule s',
    run (step (withData g A B) junk) (start (withData g A B) C) schedule = some s' →
    Finished (withData g A B) s' →
    s'.C = matmulNaive (withData g A B) (clearC (withData g A B) C)

theorem alwaysProduct_iff (someThread : 1 ≤ g.numThreads) (someBlock : 1 ≤ g.blockSize)
    (rows : 1 ≤ g.M) (inner : 1 ≤ g.K) (cols : 1 ≤ g.N) :
    AlwaysProduct g ↔ g.numThreads = 1 := by
  constructor
  · intro always
    by_contra several
    obtain ⟨schedule, s', done, finished, wrong⟩ :=
      exists_wrong_run (g := withData g (fun _ => 1) fun _ => 0) rfl rfl
        (Nat.lt_of_le_of_ne someThread (Ne.symm several)) someBlock rows inner cols fun _ => 0
    exact wrong (always _ _ _ _ schedule s' done finished)
  · intro one A B junk C schedule s' done finished
    exact product_of_meets (g := withData g A B) someThread someBlock
      (single_meets (g := withData g A B) one someBlock schedule) done finished

/-- When every multiply-add reads an element that has been written, the threads leave the plain
product, and no run is stuck before they have finished; a single thread always reads so. With
several threads some run on some data leaves another matrix. -/
theorem matmulMultithreadFinal_correct [Zero α] [Add α] [Mul α] (g : Globals α)
    (someThread : 1 ≤ g.numThreads)
    (someBlock : 1 ≤ g.blockSize) (junk : Nat → Nat → α) (C : Nat → α) :
    (∀ schedule s', Meets (step g junk) (ReadsWritten g) (start g C) schedule →
        run (step g junk) (start g C) schedule = some s' → Finished g s' →
        s'.C = matmulNaive g (clearC g C)) ∧
      (∀ schedule s', run (step g junk) (start g C) schedule = some s' → ¬ Finished g s' →
        ∃ t s'', step g junk s' t = some s'') ∧
      (g.numThreads = 1 → ∀ schedule,
        Meets (step g junk) (ReadsWritten g) (start g C) schedule) ∧
      (1 ≤ g.M → 1 ≤ g.K → 1 ≤ g.N → (AlwaysProduct g ↔ g.numThreads = 1)) := by
  refine ⟨fun schedule s' meets => product_of_meets someThread someBlock meets,
    fun schedule s' h unfinished => ?_, fun one => single_meets one someBlock,
    alwaysProduct_iff someThread someBlock⟩
  have inv :=
    run_inv (motive := Built g) (fun s t s' inv => step_built someBlock inv) start_built h
  exact inv.exists_unfinished unfinished

end Invariant

def twoRows (numThreads : Nat) : Globals Int where
  M := 2
  K := 1
  N := 1
  numThreads := numThreads
  blockSize := 1
  A _ := 1
  B _ := 1

/-- The first thread has filled the array before the second one starts. -/
theorem matmulMultithreadFinal_correct_two_threads :
    ∃ s', run (step (twoRows 2) fun _ _ => 7) (start (twoRows 2) fun _ => 9)
      [0, 0, 0, 0, 0, 1, 1] = some s' ∧
      s'.C = matmulNaive (twoRows 2) (clearC (twoRows 2) fun _ => 9) := by
  obtain ⟨correct, -, -, -⟩ := matmulMultithreadFinal_correct (twoRows 2) (by decide) (by decide)
    (fun _ _ => 7) (fun _ => 9)
  exact ⟨_, rfl, correct [0, 0, 0, 0, 0, 1, 1] _ (by decide) rfl (by decide)⟩

/-- One thread publishes the array, the other multiplies by what `malloc` left in it before the
first has written its element. -/
theorem matmulMultithreadFinal_early_reader :
    ∃ s', run (step (twoRows 2) fun _ _ => 7) (start (twoRows 2) fun _ => 9)
      [0, 0, 1, 1, 0, 0, 0] = some s' ∧
      Finished (twoRows 2) s' ∧ s'.C 1 = 7 ∧
      matmulNaive (twoRows 2) (clearC (twoRows 2) fun _ => 9) 1 = 1 :=
  ⟨_, rfl, by decide, by decide, by decide⟩

end SystemsLab.LazyTranspose
