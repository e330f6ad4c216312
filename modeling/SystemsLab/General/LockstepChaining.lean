import SystemsLab.General.CipherChaining
import Mathlib.Tactic.Ring

/-! Block chaining of several streams in lockstep. The streams lie one after the
other in memory; one step takes the next block of every stream, encrypts the
batch, and scatters the results. The invariant lets every stream be at its own
block, so a step is a sequence of single advances. -/

namespace SystemsLab.CipherChaining
open Buffer CountedLoop

theorem slots_apart {n count s t j k : Nat} (hj : j < count) (hk : k < count)
    (ne : ¬ (s = t ∧ j = k)) :
    s * (n * count) + n * j + n ≤ t * (n * count) + n * k ∨
      t * (n * count) + n * k + n ≤ s * (n * count) + n * j := by
  have slot (x y : Nat) : x * (n * count) + n * y = n * (x * count + y) := by ring
  have before {x y x' y' : Nat} (hy : y < count) (lt : x < x') :
    x * count + y < x' * count + y' := by
    have rows := row_le (n := count) lt
    omega
  have order : s * count + j < t * count + k ∨ t * count + k < s * count + j := by
    rcases Nat.lt_trichotomy s t with lt | rfl | gt
    · exact Or.inl (before hj lt)
    · omega
    · exact Or.inr (before hk gt)
  rw [slot, slot, ← Nat.mul_succ, ← Nat.mul_succ]
  exact order.imp (Nat.mul_le_mul_left n) (Nat.mul_le_mul_left n)

theorem slot_inside {n count size s j : Nat} (hs : s < size) (hj : j < count) :
    s * (n * count) + n * j + n ≤ size * (n * count) := by
  have row := block_le (n := n) hj
  have rows := row_le (n := n * count) hs
  omega

section Lockstep

variable {α : Type*} {n size : Nat}

structure Streams (α : Type*) (n size : Nat) where
  mem : Memory α
  ivs : Vector (Vector α n) size
  pos : Vector Nat size

variable (mix : Vector α n → Vector α n → Vector α n) (enc : Vector α n → Vector α n)
  (encAll : Vector (Vector α n) size → Vector (Vector α n) size) (plain cipher : Nat)

def gather (st : Streams α n size) : Vector (Vector α n) size :=
  Vector.ofFn fun s => mix (read n st.mem (plain + st.pos.get s)) (st.ivs.get s)

def scatterLane (batch : Vector (Vector α n) size) (s : Nat) (hs : s < size)
    (st : Streams α n size) : Streams α n size :=
  ⟨write st.mem (cipher + st.pos[s]) batch[s], st.ivs.set s batch[s], st.pos.set s (st.pos[s] + n)⟩

def lockstepStep (st : Streams α n size) : Streams α n size :=
  Nat.fold size (scatterLane cipher (encAll (gather mix plain st))) st

def lockstepLoop (blocks : Nat) (st : Streams α n size) : Streams α n size :=
  Nat.fold blocks (fun _ _ st => lockstepStep mix encAll plain cipher st) st

variable (start : Memory α) (iv : Nat → Vector α n) (count : Nat)

def streamValue (s : Nat) : Nat → Vector α n :=
  chain mix enc (fun k => read n start (plain + (s * (n * count) + n * k))) (iv s)

structure Reached (progress : Nat → Nat) (st : Streams α n size) : Prop where
  bound : ∀ s < size, progress s ≤ count
  pos : ∀ s (h : s < size), st.pos[s] = s * (n * count) + n * progress s
  ivs : ∀ s (h : s < size), st.ivs[s] = streamValue mix enc plain start iv count s (progress s)
  done : ∀ s < size, ∀ j < progress s, read n st.mem (cipher + (s * (n * count) + n * j)) =
    streamValue mix enc plain start iv count s (j + 1)
  frame : ∀ a, a < cipher ∨ cipher + size * (n * count) ≤ a → st.mem a = start a

variable {mix enc encAll plain cipher start iv count}

theorem Reached.advance {progress : Nat → Nat} {st : Streams α n size}
    (h : Reached mix enc plain cipher start iv count progress st)
    (batch : Vector (Vector α n) size) (s : Nat) (hs : s < size) (more : progress s < count)
    (block : batch[s] = streamValue mix enc plain start iv count s (progress s + 1)) :
    Reached mix enc plain cipher start iv count (Function.update progress s (progress s + 1))
      (scatterLane cipher batch s hs st) where
  bound t ht := by
    by_cases eq : t = s
    · subst eq
      rw [Function.update_self]
      exact more
    · rw [Function.update_of_ne eq]
      exact h.bound t ht
  pos t ht := by
    simp only [scatterLane, Vector.getElem_set]
    by_cases eq : s = t
    · subst eq
      rw [if_pos rfl, Function.update_self, h.pos s hs, Nat.mul_succ, Nat.add_assoc]
    · rw [if_neg eq, Function.update_of_ne (Ne.symm eq), h.pos t ht]
  ivs t ht := by
    simp only [scatterLane, Vector.getElem_set]
    by_cases eq : s = t
    · subst eq
      rw [if_pos rfl, Function.update_self, block]
    · rw [if_neg eq, Function.update_of_ne (Ne.symm eq), h.ivs t ht]
  done t ht j hj := by
    simp only [scatterLane, h.pos s hs]
    by_cases eq : s = t ∧ progress s = j
    · obtain ⟨rfl, rfl⟩ := eq
      rw [read_write, block]
    · have old : j < progress t := by
        by_cases same : t = s
        · subst same
          rw [Function.update_self] at hj
          omega
        · rwa [Function.update_of_ne same] at hj
      have gap := slots_apart (n := n) more (Nat.lt_of_lt_of_le old (h.bound t ht)) eq
      rw [read_write_of_apart _ _ _ _ (by omega), h.done t ht j old]
  frame a ha := by
    have inside := slot_inside (n := n) hs more
    simp only [scatterLane, h.pos s hs]
    exact (write_of_not_mem _ _ _ _ (by omega)).trans (h.frame a ha)

theorem gather_stream (st : Streams α n size) (s : Nat) (hs : s < size) :
    (gather mix plain st)[s] = mix (read n st.mem (plain + st.pos[s])) st.ivs[s] := by
  rw [gather, Vector.getElem_ofFn]
  rfl

theorem Reached.gather_eq {progress : Nat → Nat} {st : Streams α n size}
    (h : Reached mix enc plain cipher start iv count progress st)
    (apart : plain + size * (n * count) ≤ cipher ∨ cipher + size * (n * count) ≤ plain)
    (s : Nat) (hs : s < size) (more : progress s < count) :
    enc (gather mix plain st)[s] = streamValue mix enc plain start iv count s (progress s + 1) := by
  have inside := slot_inside (n := n) hs more
  have same : read n st.mem (plain + (s * (n * count) + n * progress s)) =
      read n start (plain + (s * (n * count) + n * progress s)) :=
    read_congr fun i hi => h.frame _ (by omega)
  rw [gather_stream, h.pos s hs, h.ivs s hs, same, streamValue, chain]

variable (lanes : ∀ batch s (hs : s < size), (encAll batch)[s] = enc batch[s])
  (apart : plain + size * (n * count) ≤ cipher ∨ cipher + size * (n * count) ≤ plain)

include lanes apart in
theorem lockstepStep_reached {k : Nat} (hk : k < count) {st : Streams α n size}
    (h : Reached mix enc plain cipher start iv count (fun _ => k) st) :
    Reached mix enc plain cipher start iv count (fun _ => k + 1)
      (lockstepStep mix encAll plain cipher st) := by
  -- the streams below `t` are one block ahead of the others
  have inv := fold_inv (fun t st' => Reached mix enc plain cipher start iv count
      (fun s => if s < t then k + 1 else k) st') size
    (scatterLane cipher (encAll (gather mix plain st))) st (by simpa using h) (by
      intro t ht st' h'
      have block : (encAll (gather mix plain st))[t] =
          streamValue mix enc plain start iv count t (k + 1) :=
        (lanes _ t ht).trans (h.gather_eq apart t ht hk)
      have next := h'.advance (encAll (gather mix plain st)) t ht (by simpa using hk)
        (by simpa using block)
      have shape : Function.update (fun s => if s < t then k + 1 else k) t
          ((if t < t then k + 1 else k) + 1) = fun s => if s < t + 1 then k + 1 else k := by
        funext s
        by_cases eq : s = t
        · subst eq
          simp
        · rw [Function.update_of_ne eq]
          simp only [show s < t + 1 ↔ s < t by omega]
      rwa [shape] at next)
  refine ⟨fun _ _ => hk, fun s hs => ?_, fun s hs => ?_, fun s hs j hj => ?_, inv.frame⟩
  · have pos := inv.pos s hs
    rwa [if_pos hs] at pos
  · have ivs := inv.ivs s hs
    rwa [if_pos hs] at ivs
  · exact inv.done s hs j (by rwa [if_pos hs])

include lanes apart in
theorem lockstepLoop_reached (st : Streams α n size)
    (h : Reached mix enc plain cipher start iv count (fun _ => 0) st) :
    Reached mix enc plain cipher start iv count (fun _ => count)
      (lockstepLoop mix encAll plain cipher count st) :=
  fold_inv (fun k st => Reached mix enc plain cipher start iv count (fun _ => k) st) count
    (fun _ _ st => lockstepStep mix encAll plain cipher st) st h
    fun _ hk _ => lockstepStep_reached lanes apart hk

end Lockstep

end SystemsLab.CipherChaining
