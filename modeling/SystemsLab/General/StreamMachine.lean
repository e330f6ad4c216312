import SystemsLab.General.Buffer
import Mathlib.Data.List.OfFn
import Mathlib.Data.Nat.ModEq

/-! Machines that turn a stream into one of the same length. A transducer of unit `n` may be
fed a message in pieces, as long as every piece but the last is a multiple of `n` long. On a
memory, a call reads its input and stores its output; calls that follow each other
through a buffer are one call, unless the output runs ahead into the input. -/

namespace SystemsLab.StreamMachine
open Buffer CountedLoop

/-! ## Machines on lists -/

structure Transducer (σ α : Type*) (n : Nat) where
  feed : σ → List α → List α × σ
  feed_nil : ∀ s, feed s [] = ([], s)
  length_feed : ∀ s a, n ∣ a.length → (feed s a).1.length = a.length
  feed_append : ∀ s a b, n ∣ a.length →
    feed s (a ++ b) = ((feed s a).1 ++ (feed (feed s a).2 b).1, (feed (feed s a).2 b).2)

section Steps

variable {σ α : Type*}

def runSteps (step : σ → α → α × σ) : σ → List α → List α × σ
  | s, [] => ([], s)
  | s, x :: a =>
    let r := step s x
    let rest := runSteps step r.2 a
    (r.1 :: rest.1, rest.2)

theorem length_runSteps (step : σ → α → α × σ) (s : σ) (a : List α) :
    (runSteps step s a).1.length = a.length := by
  induction a generalizing s with
  | nil => rfl
  | cons x a ih => simp only [runSteps, List.length_cons, ih]

theorem runSteps_append (step : σ → α → α × σ) (s : σ) (a b : List α) :
    runSteps step s (a ++ b) = ((runSteps step s a).1 ++ (runSteps step (runSteps step s a).2 b).1,
      (runSteps step (runSteps step s a).2 b).2) := by
  induction a generalizing s with
  | nil => rfl
  | cons x a ih => simp only [List.cons_append, runSteps, ih]

theorem runSteps_inv (step : σ → α → α × σ) (P : σ → Prop) (keep : ∀ s x, P s → P (step s x).2)
    {s : σ} (start : P s) (a : List α) : P (runSteps step s a).2 := by
  induction a generalizing s with
  | nil => exact start
  | cons x a ih => exact ih (keep s x start)

theorem runSteps_congr {step : σ → α → α × σ} (R : σ → σ → Prop)
    (agree : ∀ s t x, R s t → (step s x).1 = (step t x).1 ∧ R (step s x).2 (step t x).2) {s t : σ}
    (start : R s t) (a : List α) : (runSteps step s a).1 = (runSteps step t a).1 := by
  induction a generalizing s t with
  | nil => rfl
  | cons x a ih =>
    obtain ⟨out, next⟩ := agree s t x start
    rw [runSteps, runSteps, out, ih next]

def ofStep (step : σ → α → α × σ) : Transducer σ α 1 where
  feed := runSteps step
  feed_nil _ := rfl
  length_feed s a _ := length_runSteps step s a
  feed_append s a b _ := runSteps_append step s a b

variable [Inhabited α] {n : Nat}

def block (n : Nat) (a : List α) : Vector α n := Vector.ofFn fun i => a.getD i default

theorem block_append (a b : List α) (full : n ≤ a.length) : block n (a ++ b) = block n a := by
  apply Vector.ext
  intro i hi
  simp only [block, Vector.getElem_ofFn, List.getD_eq_getElem?_getD]
  rw [List.getElem?_append_left (by omega)]

@[simp] theorem block_toList (v : Vector α n) : block n v.toList = v := by
  apply Vector.ext
  intro i hi
  simp [block]

theorem toList_block (a : List α) (full : a.length = n) : (block n a).toList = a := by
  apply List.ext_getElem
  · simp [full]
  · intro i h₁ h₂
    simp [block, h₂]

def runBlocks (step : σ → Vector α n → Vector α n × σ) : Nat → σ → List α → List α × σ
  | 0, s, _ => ([], s)
  | count + 1, s, a =>
    let r := step s (block n a)
    let rest := runBlocks step count r.2 (a.drop n)
    (r.1.toList ++ rest.1, rest.2)

theorem length_runBlocks (step : σ → Vector α n → Vector α n × σ) (count : Nat) (s : σ)
    (a : List α) : (runBlocks step count s a).1.length = n * count := by
  induction count generalizing s a with
  | zero => rfl
  | succ count ih =>
    rw [runBlocks, List.length_append, ih, Vector.length_toList, Nat.mul_succ, Nat.add_comm]

theorem runBlocks_append (step : σ → Vector α n → Vector α n × σ) (s : σ) (a b : List α)
    (i j : Nat) (whole : a.length = n * i) :
    runBlocks step (i + j) s (a ++ b) =
      ((runBlocks step i s a).1 ++ (runBlocks step j (runBlocks step i s a).2 b).1,
        (runBlocks step j (runBlocks step i s a).2 b).2) := by
  induction i generalizing s a with
  | zero =>
    rw [Nat.mul_zero] at whole
    rw [List.length_eq_zero_iff.mp whole, Nat.zero_add]
    rfl
  | succ i ih =>
    have full : n ≤ a.length := by
      rw [whole]
      exact Nat.le_mul_of_pos_right n (Nat.succ_pos i)
    have rest : (a.drop n).length = n * i := by
      rw [List.length_drop, whole, Nat.mul_succ, Nat.add_sub_cancel]
    rw [Nat.succ_add]
    simp only [runBlocks, block_append a b full, List.drop_append_of_le_length full,
      ih _ _ rest, List.append_assoc]

theorem runBlocks_succ (step : σ → Vector α n → Vector α n × σ) (count : Nat) (s : σ)
    (a : List α) : runBlocks step (count + 1) s a =
      let before := runBlocks step count s a
      let last := step before.2 (block n (a.drop (n * count)))
      (before.1 ++ last.1.toList, last.2) := by
  induction count generalizing s a with
  | zero => simp [runBlocks]
  | succ count ih =>
    rw [runBlocks, ih]
    simp only [runBlocks, List.drop_drop, List.append_assoc, Nat.mul_succ, Nat.add_comm]

theorem block_runBlocks (step : σ → Vector α n → Vector α n × σ) {i count : Nat} (lt : i < count)
    (s : σ) (a : List α) : block n ((runBlocks step count s a).1.drop (n * i)) =
      (step (runBlocks step i s a).2 (block n (a.drop (n * i)))).1 := by
  induction count with
  | zero => omega
  | succ count ih =>
    have length := length_runBlocks step count s a
    simp only [runBlocks_succ step count]
    rcases Nat.lt_succ_iff_lt_or_eq.mp lt with before | rfl
    · have inside : n * i + n ≤ n * count := block_le before
      rw [List.drop_append_of_le_length (by omega), block_append _ _ (by
        rw [List.length_drop]
        omega), ih before]
    · rw [List.drop_left' length, block_toList]

def ofBlockStep (step : σ → Vector α n → Vector α n × σ) : Transducer σ α n where
  feed s a := runBlocks step (a.length / n) s a
  feed_nil s := by rw [List.length_nil, Nat.zero_div]; rfl
  length_feed s a whole := by rw [length_runBlocks, Nat.mul_div_cancel' whole]
  feed_append s a b whole := by
    rw [List.length_append, Nat.add_div_of_dvd_right whole]
    exact runBlocks_append step s a b _ _ (Nat.mul_div_cancel' whole).symm

end Steps

/-! ## Machines that undo each other -/

namespace Transducer

variable {σ α : Type*} {n : Nat}

/-- From the same state, `d` takes the output of `e` back, and both end in the same state. -/
def Inverse (e d : Transducer σ α n) : Prop :=
  ∀ s a, n ∣ a.length → d.feed s (e.feed s a).1 = (a, (e.feed s a).2)

end Transducer

section Inverses

variable {σ α : Type*}

theorem ofStep_inverse {e d : σ → α → α × σ} (h : ∀ s x, d s (e s x).1 = (x, (e s x).2)) :
    (ofStep e).Inverse (ofStep d) := by
  intro s a _
  show runSteps d s (runSteps e s a).1 = (a, (runSteps e s a).2)
  induction a generalizing s with
  | nil => rfl
  | cons x a ih => simp only [runSteps, h, ih (e s x).2 (Nat.one_dvd _)]

theorem runBlocks_inverse [Inhabited α] {n : Nat} {e d : σ → Vector α n → Vector α n × σ}
    (h : ∀ s x, d s (e s x).1 = (x, (e s x).2)) (count : Nat) (s : σ) (a : List α)
    (whole : a.length = n * count) :
    runBlocks d count s (runBlocks e count s a).1 = (a, (runBlocks e count s a).2) := by
  induction count generalizing s a with
  | zero =>
    rw [Nat.mul_zero] at whole
    rw [List.length_eq_zero_iff.mp whole]
    rfl
  | succ count ih =>
    have rest : (a.drop n).length = n * count := by
      rw [List.length_drop, whole, Nat.mul_succ, Nat.add_sub_cancel]
    have front : (a.take n).length = n := by
      rw [List.length_take, whole, Nat.mul_succ]
      omega
    have first : block n a = block n (a.take n) := by
      rw [← block_append (a.take n) (a.drop n) (by omega), List.take_append_drop]
    have out : (e s (block n a)).1.toList.length = n := by simp
    have drop (b : List α) : ((e s (block n a)).1.toList ++ b).drop n = b := by
      rw [List.drop_append_of_le_length (by omega), List.drop_of_length_le (by omega),
        List.nil_append]
    simp only [runBlocks, block_append _ _ (Nat.le_of_eq out.symm), block_toList, h, drop,
      ih _ _ rest]
    rw [first, toList_block _ front, List.take_append_drop]

theorem ofBlockStep_inverse [Inhabited α] {n : Nat} {e d : σ → Vector α n → Vector α n × σ}
    (h : ∀ s x, d s (e s x).1 = (x, (e s x).2)) :
    (ofBlockStep e).Inverse (ofBlockStep d) := by
  intro s a whole
  have same : ((ofBlockStep e).feed s a).1.length = a.length :=
    (ofBlockStep e).length_feed s a whole
  show runBlocks d (_ / n) s _ = _
  rw [same]
  exact runBlocks_inverse h _ s a (Nat.mul_div_cancel' whole).symm

end Inverses

/-! ## Lists in memory -/

section Memory

variable {α : Type*}

def load (mem : Memory α) (p len : Nat) : List α := List.ofFn fun i : Fin len => mem (p + i.val)

def store (mem : Memory α) (p : Nat) (l : List α) : Memory α := fun a =>
  if h : p ≤ a ∧ a - p < l.length then l.get ⟨a - p, h.2⟩ else mem a

@[simp] theorem length_load (mem : Memory α) (p len : Nat) : (load mem p len).length = len := by
  simp [load]

@[simp] theorem getElem_load (mem : Memory α) (p len i : Nat) (h : i < (load mem p len).length) :
    (load mem p len)[i] = mem (p + i) := by
  simp [load]

theorem load_congr {mem mem' : Memory α} {p q len : Nat}
    (h : ∀ i < len, mem (p + i) = mem' (q + i)) : load mem p len = load mem' q len := by
  apply List.ext_getElem
  · simp
  · intro i h₁ h₂
    simp only [getElem_load]
    exact h i (by simpa using h₁)

theorem load_add (mem : Memory α) (p a b : Nat) :
    load mem p (a + b) = load mem p a ++ load mem (p + a) b := by
  apply List.ext_getElem
  · simp
  · intro i h₁ h₂
    rw [List.getElem_append]
    split_ifs with low
    · simp
    · simp only [getElem_load, length_load] at low ⊢
      congr 1
      omega

theorem store_of_mem (mem : Memory α) (p i : Nat) (l : List α) (h : i < l.length) :
    store mem p l (p + i) = l[i] := by
  rw [store, dif_pos ⟨by omega, by omega⟩]
  simp

theorem store_of_not_mem (mem : Memory α) (p a : Nat) (l : List α)
    (h : a < p ∨ p + l.length ≤ a) : store mem p l a = mem a := by
  rw [store, dif_neg (by omega)]

@[simp] theorem store_nil (mem : Memory α) (p : Nat) : store mem p [] = mem := by
  funext a
  exact store_of_not_mem mem p a [] (by simp only [List.length_nil]; omega)

theorem load_store (mem : Memory α) (p : Nat) (l : List α) {len : Nat} (h : l.length = len) :
    load (store mem p l) p len = l := by
  apply List.ext_getElem
  · simp [h]
  · intro i h₁ h₂
    rw [getElem_load, store_of_mem mem p i l h₂]

theorem load_store_of_apart (mem : Memory α) (p q len : Nat) (l : List α)
    (h : p + l.length ≤ q ∨ q + len ≤ p) : load (store mem p l) q len = load mem q len :=
  load_congr fun i hi => store_of_not_mem mem p (q + i) l (by omega)

theorem load_store_behind (mem : Memory α) (p len : Nat) (l : List α) :
    load (store mem (p + len) l) p (len + l.length) = load mem p len ++ l := by
  rw [load_add, load_store_of_apart _ _ _ _ _ (Or.inr (Nat.le_refl _)), load_store _ _ _ rfl]

theorem store_append (mem : Memory α) (p : Nat) (a b : List α) :
    store (store mem p a) (p + a.length) b = store mem p (a ++ b) := by
  funext x
  by_cases low : x < p
  · rw [store_of_not_mem _ _ _ _ (by omega), store_of_not_mem _ _ _ _ (by omega),
      store_of_not_mem _ _ _ _ (by omega)]
  obtain ⟨i, rfl⟩ : ∃ i, x = p + i := ⟨x - p, by omega⟩
  rcases Nat.lt_or_ge i a.length with first | later
  · rw [store_of_not_mem _ _ _ _ (by omega), store_of_mem _ _ _ _ first,
      store_of_mem _ _ _ _ (by rw [List.length_append]; omega), List.getElem_append_left first]
  · obtain ⟨j, rfl⟩ : ∃ j, i = a.length + j := ⟨i - a.length, by omega⟩
    rcases Nat.lt_or_ge j b.length with second | behind
    · rw [← Nat.add_assoc, store_of_mem _ _ _ _ second, Nat.add_assoc,
        store_of_mem _ _ _ _ (by rw [List.length_append]; omega),
        List.getElem_append_right (by omega)]
      simp
    · rw [store_of_not_mem _ _ _ _ (by omega), store_of_not_mem _ _ _ _ (by omega),
        store_of_not_mem _ _ _ _ (by rw [List.length_append]; omega)]

theorem store_toList (mem : Memory α) {n : Nat} (p : Nat) (v : Vector α n) :
    store mem p v.toList = write mem p v := by
  funext a
  by_cases inside : p ≤ a ∧ a < p + n
  · obtain ⟨i, rfl⟩ : ∃ i, a = p + i := ⟨a - p, by omega⟩
    rw [store_of_mem _ _ _ _ (by simp only [Vector.length_toList]; omega),
      write_of_mem _ _ _ _ (by omega)]
    simp
  · rw [store_of_not_mem _ _ _ _ (by simp only [Vector.length_toList]; omega),
      write_of_not_mem _ _ _ _ (by omega)]

theorem store_singleton (mem : Memory α) (p : Nat) (x : α) :
    store mem p [x] = Function.update mem p x := by
  funext a
  by_cases here : a = p
  · have first := store_of_mem mem p 0 [x] (by simp)
    rw [here, Function.update_self]
    exact first
  · rw [Function.update_of_ne here, store_of_not_mem _ _ _ _ (by
      simp only [List.length_singleton]
      omega)]

theorem forLoop_store (mem : Memory α) (p lo hi : Nat) (f : Nat → α) :
    forLoop lo hi 1 (fun i mem => Function.update mem (p + i) (f i)) mem =
      store mem (p + lo) ((List.range' lo (hi - lo)).map f) := by
  rw [forLoop, indices_one]
  generalize hi - lo = count
  induction count generalizing lo mem with
  | zero => simp
  | succ count ih =>
    have next := store_append mem (p + lo) [f lo] ((List.range' (lo + 1) count).map f)
    rw [List.range'_succ, List.foldl_cons, ih, List.map_cons, ← store_singleton]
    exact next

theorem forLoop_write_units {u : Nat} (pos : 0 < u) (mem : Memory α) (r count : Nat)
    (f : Nat → Memory α → Vector α u) (v : Nat → α)
    (value : ∀ k < count, ∀ now : Memory α,
      (∀ a, a < r ∨ r + u * k ≤ a → now a = mem a) →
        ∀ j, (h : j < u) → (f (u * k) now)[j] = v (u * k + j)) :
    forLoop 0 (u * count) u (fun ii mem => write mem (r + ii) (f ii mem)) mem =
      store mem r ((List.range (u * count)).map v) := by
  have inv := forLoop_inv
    (fun k now => k ≤ count → now = store mem r ((List.range (u * k)).map v))
    0 count u (fun ii mem => write mem (r + ii) (f ii mem)) mem pos (fun _ => by simp) (by
      intro k now hk same _
      have written := same (Nat.le_of_lt hk)
      have unit : (f (u * k) now).toList = (List.range u).map fun j => v (u * k + j) := by
        apply List.ext_getElem
        · simp
        · intro j h₁ h₂
          rw [Vector.getElem_toList, value k hk now (fun a ha => by
            rw [written, store_of_not_mem _ _ _ _ (by simpa using ha)]) j (by simpa using h₁)]
          simp
      have step := store_append mem r ((List.range (u * k)).map v)
        ((List.range u).map fun j => v (u * k + j))
      rw [List.length_map, List.length_range] at step
      rw [Nat.zero_add, ← store_toList, unit, written, step, Nat.mul_succ, List.range_add]
      simp only [List.map_append, List.map_map, Function.comp_def])
  simpa only [Nat.zero_add] using inv (Nat.le_refl _)

theorem block_load [Inhabited α] (mem : Memory α) {n len : Nat} (p : Nat) (h : n ≤ len) :
    block n (load mem p len) = read n mem p := by
  apply Vector.ext
  intro i hi
  have inside : i < (load mem p len).length := by simp only [length_load]; omega
  simp [block, List.getElem?_eq_getElem inside]

theorem toList_read (mem : Memory α) (n p : Nat) : (read n mem p).toList = load mem p n := by
  apply List.ext_getElem
  · simp
  · intro i h₁ h₂
    simp

def Frame (p len : Nat) (mem mem' : Memory α) : Prop :=
  ∀ a, a < p ∨ p + len ≤ a → mem' a = mem a

namespace Frame

variable {p len : Nat} {mem mem' mem'' : Memory α}

theorem refl (p len : Nat) (mem : Memory α) : Frame p len mem mem := fun _ _ => rfl

theorem trans (h : Frame p len mem mem') (h' : Frame p len mem' mem'') : Frame p len mem mem'' :=
  fun a outside => (h' a outside).trans (h a outside)

theorem mono {q more : Nat} (h : Frame p len mem mem') (below : q ≤ p)
    (above : p + len ≤ q + more) : Frame q more mem mem' :=
  fun a outside => h a (by omega)

theorem store (mem : Memory α) (p : Nat) (l : List α) :
    Frame p l.length mem (StreamMachine.store mem p l) :=
  fun a outside => store_of_not_mem mem p a l outside

theorem write {n : Nat} (mem : Memory α) (p : Nat) (v : Vector α n) :
    Frame p n mem (Buffer.write mem p v) :=
  fun a outside => write_of_not_mem mem p a v outside

theorem update (mem : Memory α) (p : Nat) (x : α) : Frame p 1 mem (Function.update mem p x) :=
  fun a outside => Function.update_of_ne (by omega) x mem

theorem forLoop {lo hi step : Nat} {body : Nat → Memory α → Memory α}
    (turn : ∀ i ∈ indices lo hi step, ∀ now, Frame p len now (body i now)) (mem : Memory α) :
    Frame p len mem (CountedLoop.forLoop lo hi step body mem) := by
  unfold CountedLoop.forLoop
  generalize indices lo hi step = is at turn
  induction is generalizing mem with
  | nil => exact refl p len mem
  | cons i is ih =>
    exact (turn i List.mem_cons_self mem).trans
      (ih (body i mem) fun j mem => turn j (List.mem_cons_of_mem i mem))

theorem fold {τ : Type*} {count : Nat} {body : (i : Nat) → i < count → Memory α × τ → Memory α × τ}
    (turn : ∀ i (h : i < count) t, Frame p len t.1 (body i h t).1) (t : Memory α × τ) :
    Frame p len t.1 (count.fold body t).1 :=
  fold_inv (fun _ u => Frame p len t.1 u.1) count body t (refl p len t.1)
    fun i h u inv => inv.trans (turn i h u)

end Frame

end Memory

/-! ## Calls on a memory -/

/-- The output starts below the input, or behind its end. -/
def Clear (inp out len : Nat) : Prop := out ≤ inp ∨ inp + len ≤ out

namespace Transducer

variable {σ α : Type*} {n : Nat} (T : Transducer σ α n)

def call (inp out len : Nat) (r : Memory α × σ) : Memory α × σ :=
  let result := T.feed r.2 (load r.1 inp len)
  (store r.1 out result.1, result.2)

theorem call_zero (inp out : Nat) (r : Memory α × σ) : T.call inp out 0 r = r := by
  have none : load r.1 inp 0 = [] := by simp [load]
  simp only [call, none, T.feed_nil, store_nil]

theorem call_append {inp out a b : Nat} (whole : n ∣ a) (clear : Clear inp out (a + b))
    (r : Memory α × σ) :
    T.call (inp + a) (out + a) b (T.call inp out a r) = T.call inp out (a + b) r := by
  have divides : n ∣ (load r.1 inp a).length := by simpa using whole
  have length := T.length_feed r.2 (load r.1 inp a) divides
  rw [length_load] at length
  have unread : load (store r.1 out (T.feed r.2 (load r.1 inp a)).1) (inp + a) b =
      load r.1 (inp + a) b :=
    load_store_of_apart _ _ _ _ _ (by
      rcases clear with below | behind <;> omega)
  simp only [call, load_add, T.feed_append _ _ _ divides, unread]
  rw [← store_append, length]

/-- A loop whose every turn is a call on the next `u` elements is one call. The state of the loop
is read through `view`; `good` is what the turns need of it, and keep. -/
theorem fold_call {τ : Type*} {u : Nat} (whole : n ∣ u) (view : Nat → Memory α → τ → σ)
    (good : Nat → τ → Prop) {inp out count : Nat} (clear : Clear inp out (u * count))
    (body : Nat → Memory α × τ → Memory α × τ)
    (turn : ∀ i < count, ∀ t : Memory α × τ, good i t.2 →
      let next := body i t
      (next.1, view (i + 1) next.1 next.2) =
          T.call (inp + u * i) (out + u * i) u (t.1, view i t.1 t.2) ∧
        good (i + 1) next.2)
    (t : Memory α × τ) (start : good 0 t.2) :
    let final := count.fold (fun i _ t => body i t) t
    (final.1, view count final.1 final.2) = T.call inp out (u * count) (t.1, view 0 t.1 t.2) ∧
      good count final.2 := by
  refine (fold_inv (fun i s => i ≤ count → (s.1, view i s.1 s.2) =
    T.call inp out (u * i) (t.1, view 0 t.1 t.2) ∧ good i s.2) count
    (fun i _ t => body i t) t (fun _ => ⟨(T.call_zero inp out _).symm, start⟩) ?_) (Nat.le_refl _)
  intro i hi s inv _
  obtain ⟨same, ok⟩ := inv (Nat.le_of_lt hi)
  obtain ⟨step, keep⟩ := turn i hi s ok
  have inside := block_le (n := u) hi
  refine ⟨?_, keep⟩
  rw [step, same, Nat.mul_succ]
  exact T.call_append (Dvd.dvd.mul_right whole i)
    (by rcases clear with below | behind <;> unfold Clear <;> omega) _

end Transducer

variable {σ α : Type*}

theorem ofStep_call_one (step : σ → α → α × σ) (inp out : Nat) (r : Memory α × σ) :
    (ofStep step).call inp out 1 r =
      (Function.update r.1 out (step r.2 (r.1 inp)).1, (step r.2 (r.1 inp)).2) := by
  have one : load r.1 inp 1 = [r.1 inp] := by simp [load]
  simp only [Transducer.call, ofStep, one, runSteps, store_singleton]

theorem ofBlockStep_call_one [Inhabited α] {n : Nat} (pos : 0 < n)
    (step : σ → Vector α n → Vector α n × σ) (inp out : Nat) (r : Memory α × σ) :
    (ofBlockStep step).call inp out n r =
      (write r.1 out (step r.2 (read n r.1 inp)).1, (step r.2 (read n r.1 inp)).2) := by
  simp only [Transducer.call, ofBlockStep, length_load, Nat.div_self pos, runBlocks,
    block_load r.1 inp (Nat.le_refl n), List.append_nil, store_toList]

end SystemsLab.StreamMachine
