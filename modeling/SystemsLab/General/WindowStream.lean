import SystemsLab.General.StreamMachine

/-! Stream ciphers that take their key elements from a window. When the window is used up it is
refreshed, and what was sent may be put in the place of the key element it was mixed with.
Both directions are machines on single elements, and they undo each other. Programs run
them in loops: over the rest of a window, over whole windows, and over a last part. -/

namespace SystemsLab.WindowStream
open StreamMachine Buffer

/-- Places run from `first` to the end of the window, which is at `n`. -/
structure Window (σ α : Type*) (n : Nat) where
  mix : α → α → α
  first : Nat
  refresh : σ → σ
  key : σ → Nat → α
  absorb : σ → Nat → α → σ
  cancel : ∀ a t, mix (mix a t) t = a
  first_lt : first < n
  key_absorb : ∀ s i c j, i < j → key (absorb s i c) j = key s j

namespace Window

variable {σ α : Type*} {n : Nat} (W : Window σ α n)

def place (enc : Bool) (s : σ × Nat) (x : α) : α × (σ × Nat) :=
  let y := W.mix x (W.key s.1 s.2)
  (y, (W.absorb s.1 s.2 (if enc then y else x), s.2 + 1))

/-- The window and the place of the next element; place `0` asks for a new window. -/
def ready (s : σ × Nat) : σ × Nat := if s.2 = 0 then (W.refresh s.1, W.first) else s

def wrap {β : Type*} (n : Nat) (r : β × (σ × Nat)) : β × (σ × Nat) := (r.1, (r.2.1, r.2.2 % n))

def step (enc : Bool) (s : σ × Nat) (x : α) : α × (σ × Nat) := wrap n (W.place enc (W.ready s) x)

def machine (enc : Bool) : Transducer (σ × Nat) α 1 := ofStep (W.step enc)

theorem machine_inverse : (W.machine true).Inverse (W.machine false) :=
  ofStep_inverse fun s x => by simp [step, place, wrap, W.cancel]

/-! ## Inside of a window -/

theorem runSteps_window (enc : Bool) (s : σ) {p : Nat} (used : p ≠ 0) (a : List α)
    (fits : p + a.length ≤ n) :
    runSteps (W.step enc) (s, p % n) a = wrap n (runSteps (W.place enc) (s, p) a) := by
  induction a generalizing s p with
  | nil => rfl
  | cons x a ih =>
    rw [List.length_cons] at fits
    have inside : p % n = p := Nat.mod_eq_of_lt (by omega)
    have here : W.ready (s, p % n) = (s, p) := by rw [ready, inside, if_neg used]
    have rest := ih (W.place enc (s, p) x).2.1 (p := p + 1) (Nat.succ_ne_zero p) (by omega)
    rw [runSteps, step, here]
    exact congrArg (fun r => ((W.place enc (s, p) x).1 :: r.1, r.2)) rest

theorem runSteps_refresh (enc : Bool) (s : σ) {a : List α} (some : a ≠ [])
    (fits : W.first + a.length ≤ n) : runSteps (W.step enc) (s, 0) a =
      wrap n (runSteps (W.place enc) (W.refresh s, W.first) a) := by
  obtain ⟨x, b, rfl⟩ := List.exists_cons_of_ne_nil some
  rw [List.length_cons] at fits
  have here : W.ready (s, 0) = (W.refresh s, W.first) := if_pos rfl
  have rest := W.runSteps_window enc (W.place enc (W.refresh s, W.first) x).2.1
    (p := W.first + 1) (Nat.succ_ne_zero _) b (by omega)
  rw [runSteps, step, here]
  exact congrArg (fun r => ((W.place enc (W.refresh s, W.first) x).1 :: r.1, r.2)) rest

def mixed (s : σ) (p : Nat) (a : List α) : List α := a.mapIdx fun i x => W.mix x (W.key s (p + i))

def absorbed (s : σ) : Nat → List α → σ
  | _, [] => s
  | p, c :: a => absorbed (W.absorb s p c) (p + 1) a

theorem length_mixed (s : σ) (p : Nat) (a : List α) : (W.mixed s p a).length = a.length :=
  List.length_mapIdx

theorem runSteps_place (enc : Bool) (s : σ) (p : Nat) (a : List α) :
    runSteps (W.place enc) (s, p) a =
      (W.mixed s p a,
        (W.absorbed s p (if enc then W.mixed s p a else a), p + a.length)) := by
  induction a generalizing s p with
  | nil => cases enc <;> rfl
  | cons x a ih =>
    have same (c : α) : W.mixed (W.absorb s p c) (p + 1) a =
        a.mapIdx fun i x => W.mix x (W.key s (p + (i + 1))) := by
      refine List.mapIdx_eq_mapIdx_iff.mpr fun i h => ?_
      rw [W.key_absorb s p c _ (by omega), Nat.add_assoc, Nat.add_comm 1]
    have cut : W.mixed s p (x :: a) =
        W.mix x (W.key s p) :: a.mapIdx fun i x => W.mix x (W.key s (p + (i + 1))) := by
      rw [mixed, List.mapIdx_cons, Nat.add_zero]
    rw [runSteps, cut]
    simp only [place, ih, same, List.length_cons]
    cases enc <;> simp only [absorbed, Nat.add_assoc, Nat.add_comm 1, Bool.false_eq_true,
      if_true, if_false]

/-! ## Calls -/

/-- The machine that goes from place to place and never refreshes. -/
def places (enc : Bool) : Transducer (σ × Nat) α 1 := ofStep (W.place enc)

def wrapCall (n : Nat) (r : Memory α × (σ × Nat)) : Memory α × (σ × Nat) :=
  (r.1, (r.2.1, r.2.2 % n))

theorem call_refresh (enc : Bool) (mem : Memory α) (s : σ) (inp out : Nat) {len : Nat}
    (some : len ≠ 0) (fits : W.first + len ≤ n) :
    (W.machine enc).call inp out len (mem, (s, 0)) =
      wrapCall n ((W.places enc).call inp out len (mem, (W.refresh s, W.first))) := by
  have read : load mem inp len ≠ [] := fun none =>
    some (by rw [← length_load mem inp len, none]; rfl)
  have run := W.runSteps_refresh enc s read (by rwa [length_load])
  simp only [Transducer.call, machine, places, ofStep, run]
  rfl

theorem call_one (enc : Bool) (mem : Memory α) (s : σ) {p : Nat} (used : p ≠ 0) (inp out : Nat) :
    (W.machine enc).call inp out 1 (mem, (s, p)) =
      wrapCall n ((W.places enc).call inp out 1 (mem, (s, p))) := by
  simp only [machine, places, ofStep_call_one, step, ready, if_neg used]
  rfl

theorem places_call_one (enc : Bool) (mem : Memory α) (s : σ) (p inp out : Nat) :
    (W.places enc).call inp out 1 (mem, (s, p)) =
      let y := W.mix (mem inp) (W.key s p)
      (Function.update mem out y, (W.absorb s p (if enc then y else mem inp), p + 1)) :=
  ofStep_call_one _ inp out _

theorem places_call (enc : Bool) (mem : Memory α) (s : σ) (p inp out len : Nat) :
    (W.places enc).call inp out len (mem, (s, p)) =
      let a := load mem inp len
      (store mem out (W.mixed s p a),
        (W.absorbed s p (if enc then W.mixed s p a else a), p + len)) := by
  simp only [Transducer.call, places, ofStep, runSteps_place, length_load]

/-! ## Windows that nothing is put into -/

section Synchronous

variable {W} (still : ∀ s i c, W.absorb s i c = s)

include still in
theorem absorbed_eq (s : σ) (p : Nat) (a : List α) : W.absorbed s p a = s := by
  induction a generalizing p with
  | nil => rfl
  | cons c a ih => rw [absorbed, still, ih]

variable (first : W.first = 0)

include still first in
theorem ready_runSteps (enc : Bool) (s : σ) (a : List α) :
    W.ready (runSteps (W.step enc) (s, 0) a).2 =
      (W.refresh^[a.length / n + 1] s, a.length % n) := by
  induction a using List.reverseRecOn with
  | nil =>
    rw [List.length_nil, Nat.zero_div, Nat.zero_mod]
    exact Prod.ext rfl first
  | append_singleton a x ih =>
    rw [runSteps_append, List.length_append, List.length_singleton]
    simp only [runSteps, step, place, wrap, ih, still]
    rw [ready, Nat.mod_add_mod]
    by_cases full : (a.length + 1) % n = 0
    · have next : (a.length + 1) / n = a.length / n + 1 :=
        Nat.succ_div_of_dvd (Nat.dvd_of_mod_eq_zero full)
      rw [if_pos full, next, first, full, ← Function.iterate_succ_apply' W.refresh]
    · have same : (a.length + 1) / n = a.length / n :=
        Nat.succ_div_of_not_dvd fun whole => full (Nat.mod_eq_zero_of_dvd whole)
      rw [if_neg full, same]

include still first in
theorem runSteps_getElem (enc : Bool) (s : σ) (a : List α) {i : Nat} (h : i < a.length)
    (h' : i < (runSteps (W.step enc) (s, 0) a).1.length) :
    (runSteps (W.step enc) (s, 0) a).1[i] =
      W.mix a[i] (W.key (W.refresh^[i / n + 1] s) (i % n)) := by
  have front : (a.take i).length = i := List.length_take_of_le (Nat.le_of_lt h)
  have cut : a = a.take i ++ a[i] :: a.drop (i + 1) := by
    rw [List.getElem_cons_drop, List.take_append_drop]
  have before := W.ready_runSteps still first enc s (a.take i)
  rw [front] at before
  have run := runSteps_append (W.step enc) (s, 0) (a.take i) (a[i] :: a.drop (i + 1))
  rw [← cut] at run
  have length : (runSteps (W.step enc) (s, 0) (a.take i)).1.length = i := by
    rw [length_runSteps, front]
  simp only [run, runSteps, step, place, wrap, before]
  rw [List.getElem_append_right (by omega)]
  simp only [length, Nat.sub_self, List.getElem_cons_zero]

end Synchronous

end Window

/-! ## Loops over a memory -/

/-- The loops of a program: `turn` takes an element from a window that is `busy`, `whole` reads
`unit` elements with a new window, and `part` fewer of them. They are given the addresses that
they read from and write to. -/
structure Loops (α τ : Type*) where
  unit : Nat
  busy : τ → Bool
  turn : Nat → Nat → Memory α × τ → Memory α × τ
  whole : Nat → Nat → Memory α × τ → Memory α × τ
  part : Nat → Nat → Nat → Memory α × τ → Memory α × τ

namespace Loops

variable {α τ σ : Type*} (L : Loops α τ)

/-- Turns while there is input and the window lasts; what is left of the input comes back. -/
def useUp : Nat → Nat → Nat → Memory α × τ → Nat × (Memory α × τ)
  | _, _, 0, t => (0, t)
  | p, q, left + 1, t =>
    if L.busy t.2 then useUp (p + 1) (q + 1) left (L.turn p q t) else (left + 1, t)

def finish (p q left : Nat) (t : Memory α × τ) : Memory α × τ :=
  let t := Nat.fold (left / L.unit) (fun i _ t => L.whole (p + L.unit * i) (q + L.unit * i) t) t
  let rest := left % L.unit
  if rest = 0 then t else L.part (p + (left - rest)) (q + (left - rest)) rest t

def run (inp out len : Nat) (t : Memory α × τ) : Memory α × τ :=
  let head := L.useUp inp out len t
  L.finish (inp + (len - head.1)) (out + (len - head.1)) head.1 head.2

structure Feeds (T : Transducer σ α 1) (view : τ → σ) : Prop where
  unit_pos : 0 < L.unit
  turn : ∀ p q t, L.busy t.2 = true →
    let r := L.turn p q t
    (r.1, view r.2) = T.call p q 1 (t.1, view t.2)
  whole : ∀ p q t, L.busy t.2 = false → Clear p q L.unit →
    let r := L.whole p q t
    (r.1, view r.2) = T.call p q L.unit (t.1, view t.2) ∧ L.busy r.2 = false
  part : ∀ p q len t, L.busy t.2 = false → 0 < len → len < L.unit → Clear p q len →
    let r := L.part p q len t
    (r.1, view r.2) = T.call p q len (t.1, view t.2)

variable {L} {T : Transducer σ α 1} {view : τ → σ}

theorem Feeds.useUp (h : L.Feeds T view) {p q left : Nat} (clear : Clear p q left)
    (t : Memory α × τ) :
    let r := L.useUp p q left t
    r.1 ≤ left ∧ (r.2.1, view r.2.2) = T.call p q (left - r.1) (t.1, view t.2) ∧
      (r.1 ≠ 0 → L.busy r.2.2 = false) := by
  induction left generalizing p q t with
  | zero => exact ⟨Nat.le_refl 0, (T.call_zero p q _).symm, fun some => absurd rfl some⟩
  | succ left ih =>
    simp only [Loops.useUp]
    split_ifs with busy
    · have inside : Clear (p + 1) (q + 1) left := by
        unfold Clear at clear ⊢
        omega
      obtain ⟨le, same, idle⟩ := ih inside (L.turn p q t)
      refine ⟨by omega, ?_, idle⟩
      obtain ⟨r, hr⟩ : ∃ r, r = L.useUp (p + 1) (q + 1) left (L.turn p q t) := ⟨_, rfl⟩
      rw [← hr] at le same ⊢
      have front : Clear p q (1 + (left - r.1)) := by
        unfold Clear at clear ⊢
        omega
      have count : left + 1 - r.1 = 1 + (left - r.1) := by omega
      rw [same, h.turn p q t busy, count]
      exact T.call_append (Nat.one_dvd 1) front _
    · refine ⟨Nat.le_refl _, ?_, fun _ => by simpa using busy⟩
      rw [Nat.sub_self]
      exact (T.call_zero p q _).symm

theorem Feeds.finish (h : L.Feeds T view) {p q left : Nat} (clear : Clear p q left)
    (t : Memory α × τ) (idle : left ≠ 0 → L.busy t.2 = false) :
    let r := L.finish p q left t
    (r.1, view r.2) = T.call p q left (t.1, view t.2) := by
  have split := Nat.div_add_mod left L.unit
  have short := Nat.mod_lt left h.unit_pos
  have loop := T.fold_call (Nat.one_dvd L.unit) (fun _ _ s => view s)
    (fun _ s => left ≠ 0 → L.busy s = false)
    (show Clear p q (L.unit * (left / L.unit)) by unfold Clear at clear ⊢; omega)
    (fun i t => L.whole (p + L.unit * i) (q + L.unit * i) t) (by
      intro i hi s good
      have inside := block_le (n := L.unit) hi
      obtain ⟨step, keep⟩ := h.whole (p + L.unit * i) (q + L.unit * i) s (good (by omega))
        (by unfold Clear at clear ⊢; omega)
      exact ⟨step, fun _ => keep⟩) t idle
  obtain ⟨body, after⟩ := loop
  simp only [Loops.finish]
  obtain ⟨r, hr⟩ : ∃ r, r = Nat.fold (left / L.unit)
    (fun i _ t => L.whole (p + L.unit * i) (q + L.unit * i) t) t := ⟨_, rfl⟩
  rw [← hr] at body after ⊢
  split_ifs with none
  · rw [body]
    congr 1
    omega
  · have last := h.part (p + (left - left % L.unit)) (q + (left - left % L.unit))
      (left % L.unit) r (after (by omega)) (Nat.pos_of_ne_zero none) short
      (by unfold Clear at clear ⊢; omega)
    have front : L.unit * (left / L.unit) = left - left % L.unit := by omega
    have all : left - left % L.unit + left % L.unit = left := by omega
    rw [front] at body
    rw [last, body, T.call_append (Nat.one_dvd _) (by rwa [all]), all]

theorem Feeds.run (h : L.Feeds T view) {inp out len : Nat} (clear : Clear inp out len)
    (t : Memory α × τ) :
    let r := L.run inp out len t
    (r.1, view r.2) = T.call inp out len (t.1, view t.2) := by
  obtain ⟨le, head, idle⟩ := h.useUp clear t
  simp only [Loops.run]
  obtain ⟨u, hu⟩ : ∃ u, u = L.useUp inp out len t := ⟨_, rfl⟩
  rw [← hu] at le head idle ⊢
  have inside : Clear (inp + (len - u.1)) (out + (len - u.1)) u.1 := by
    unfold Clear at clear ⊢
    omega
  have all : len - u.1 + u.1 = len := by omega
  rw [h.finish inside u.2 idle, head, T.call_append (Nat.one_dvd _) (by rwa [all]), all]

end Loops

end SystemsLab.WindowStream
