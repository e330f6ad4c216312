import SystemsLab.Cache.Simulator
import SystemsLab.General.RecencyList
import Mathlib.Logic.Function.Basic

/-! The simulator against a cache without stamps: each set is a list of tags, newest
first. Newest means last used under LRU and last inserted under FIFO. The relation
between the two is the order of the stamps; every access keeps it. -/

namespace SystemsLab.CacheRefinement
open StampedSlots RecencyList CacheSim

/-! ## The abstract cache -/

abbrev TagLists := Nat → List Int

def listStep (c : Config) (l : List Int) (tag : Int) (isWrite : Bool) : Bool × List Int :=
  if tag ∈ l then
    match c.policy with
    | .lru => (true, moveToFront tag l)
    | .fifo => (true, l)
  else if c.allocates isWrite then (false, pushFront c.associativity.toNat tag l)
  else (false, l)

def listsBlock (c : Config) (cache : TagLists) (addr : Int) (isWrite : Bool) : Bool × TagLists :=
  let d := c.decode addr
  let r := listStep c (cache d.1.toNat) d.2 isWrite
  (r.1, Function.update cache d.1.toNat r.2)

theorem listsBlock_self (c : Config) (cache : TagLists) (addr : Int) (isWrite : Bool) :
    (listsBlock c cache addr isWrite).2 (c.decode addr).1.toNat =
      (listStep c (cache (c.decode addr).1.toNat) (c.decode addr).2 isWrite).2 :=
  Function.update_self ..

theorem listsBlock_of_ne {c : Config} {cache : TagLists} {addr : Int} {isWrite : Bool} {k : Nat}
    (ne : k ≠ (c.decode addr).1.toNat) : (listsBlock c cache addr isWrite).2 k = cache k :=
  Function.update_of_ne ne ..

def listsBlocks (c : Config) : TagLists → List Probe → List Bool × TagLists
  | cache, [] => ([], cache)
  | cache, p :: rest =>
    let r := listsBlock c cache p.1 p.2
    let rs := listsBlocks c r.2 rest
    (r.1 :: rs.1, rs.2)

/-! ## One set -/

def residentTags (lines : List CacheLine) : List Int := (lines.filter (·.valid)).map (·.tag)

/-- The list is the valid lines by falling stamp, and no stamp is in the future. -/
structure SetRefines (c : Config) (clock : Nat) (lines : List CacheLine) (l : List Int) : Prop where
  length : lines.length = c.associativity.toNat
  past : ∀ line ∈ lines.filter (·.valid), c.policy.stamp line ≤ clock
  nodup : l.Nodup
  order : ∃ ord, NewestFirst c.policy.stamp (lines.filter (·.valid)) ord ∧ ord.map (·.tag) = l

variable {c : Config} {clock : Nat} {lines rest : List CacheLine} {l : List Int} {tag : Int}
  {isWrite : Bool}

theorem SetRefines.perm (h : SetRefines c clock lines l) : (residentTags lines).Perm l := by
  obtain ⟨ord, newest, rfl⟩ := h.order
  exact (newest.perm.map _).symm

theorem SetRefines.mem_iff (h : SetRefines c clock lines l) :
    tag ∈ l ↔ ∃ line ∈ lines, line.valid = true ∧ line.tag = tag := by
  rw [← h.perm.mem_iff]
  simp only [residentTags, List.mem_map, List.mem_filter, and_assoc]

theorem SetRefines.length_le (h : SetRefines c clock lines l) :
    l.length ≤ c.associativity.toNat := by
  rw [← h.perm.length_eq, residentTags, List.length_map, ← h.length]
  exact List.length_filter_le _ lines

theorem setRefines_empty (c : Config) (clock : Nat) :
    SetRefines c clock (List.replicate c.associativity.toNat {}) [] := by
  have none : (List.replicate c.associativity.toNat ({} : CacheLine)).filter (·.valid) = [] := by
    rw [List.filter_replicate_of_neg (by decide)]
  refine ⟨List.length_replicate, ?_, List.nodup_nil, [], ?_, rfl⟩
  · rw [none]
    exact fun line mem => absurd mem List.not_mem_nil
  · rw [none]
    exact .nil

theorem set_perm {i : Nat} (inside : i < lines.length) (line : CacheLine) :
    lines.Perm (lines[i] :: lines.eraseIdx i) ∧
      (lines.set i line).Perm (line :: lines.eraseIdx i) :=
  ⟨(List.getElem_cons_eraseIdx_perm inside).symm, List.set_perm_cons_eraseIdx inside line⟩

theorem filter_perm_cons {items : List CacheLine} {x : CacheLine} (h : items.Perm (x :: rest))
    (valid : x.valid = true) : (items.filter (·.valid)).Perm (x :: rest.filter (·.valid)) := by
  have perm := h.filter (·.valid)
  rwa [List.filter_cons_of_pos valid] at perm

theorem filter_set_perm {i : Nat} (inside : i < lines.length) {line : CacheLine}
    (valid : line.valid = true) :
    ((lines.set i line).filter (·.valid)).Perm (line :: (lines.eraseIdx i).filter (·.valid)) :=
  filter_perm_cons (set_perm inside line).2 valid

theorem past_of_perm {items items' : List CacheLine} {line : CacheLine}
    (past : ∀ x ∈ items, c.policy.stamp x ≤ clock) (perm : items'.Perm (line :: rest))
    (old : ∀ x ∈ rest, x ∈ items) (now : c.policy.stamp line ≤ clock + 1) :
    ∀ x ∈ items', c.policy.stamp x ≤ clock + 1 := by
  intro x mem
  rcases List.mem_cons.mp (perm.subset mem) with rfl | other
  · exact now
  · exact Nat.le_succ_of_le (past x (old x other))

theorem SetRefines.hit_lru (h : SetRefines c clock lines l) (lru : c.policy = .lru) {i : Nat}
    (inside : i < lines.length) (valid : lines[i].valid = true) (same : lines[i].tag = tag) :
    SetRefines c (clock + 1) (lines.set i (lines[i].used (clock + 1))) (moveToFront tag l) := by
  obtain ⟨ord, newest, rfl⟩ := h.order
  have before := filter_perm_cons (set_perm inside lines[i]).1 valid
  have after := filter_set_perm inside (show (lines[i].used (clock + 1)).valid = true from valid)
  have now : c.policy.stamp (lines[i].used (clock + 1)) = clock + 1 := by rw [lru]; rfl
  obtain ⟨newer, older, rfl, moved⟩ := newest.refresh before fun y mem =>
    (Nat.lt_succ_of_le (h.past y mem)).trans_eq now.symm
  have front : moveToFront tag ((newer ++ lines[i] :: older).map (·.tag)) =
      tag :: (newer ++ older).map (·.tag) := by
    have nodup := h.nodup
    rw [List.map_append, List.map_cons, same] at nodup ⊢
    have fresh : tag ∉ newer.map (·.tag) := fun mem =>
      List.disjoint_of_nodup_append nodup mem List.mem_cons_self
    rw [moveToFront, List.erase_append_right _ fresh, List.erase_cons_head, List.map_append]
  refine ⟨?_, past_of_perm h.past after ?_ now.le, nodup_moveToFront h.nodup, _,
    moved.congr after, ?_⟩
  · rw [List.length_set, h.length]
  · exact fun x mem => before.symm.subset (List.mem_cons_of_mem _ mem)
  · rw [front, List.map_cons]
    exact congrArg (· :: _) same

theorem SetRefines.hit_fifo (h : SetRefines c clock lines l) (fifo : c.policy = .fifo) {i : Nat}
    (inside : i < lines.length) (valid : lines[i].valid = true) :
    SetRefines c (clock + 1) (lines.set i (lines[i].used (clock + 1))) l := by
  obtain ⟨ord, newest, rfl⟩ := h.order
  have before := filter_perm_cons (set_perm inside lines[i]).1 valid
  have after := filter_set_perm inside (show (lines[i].used (clock + 1)).valid = true from valid)
  have same : c.policy.stamp (lines[i].used (clock + 1)) = c.policy.stamp lines[i] := by
    rw [fifo]; rfl
  -- FIFO compares `inserted_at`, which a hit does not write
  obtain ⟨newer, older, rfl, kept⟩ := newest.keep before same
  refine ⟨?_, past_of_perm h.past after ?_ ?_, h.nodup, _, kept.congr after, ?_⟩
  · rw [List.length_set, h.length]
  · exact fun x mem => before.symm.subset (List.mem_cons_of_mem _ mem)
  · rw [same]
    exact Nat.le_succ_of_le (h.past _ (before.symm.subset List.mem_cons_self))
  · simp only [List.map_append, List.map_cons]
    rfl

abbrev newLine (tag : Int) (clock : Nat) : CacheLine := ⟨true, tag, clock, clock⟩

theorem stamp_newLine (policy : Policy) (tag : Int) (clock : Nat) :
    policy.stamp (newLine tag clock) = clock := by
  cases policy <;> rfl

/-- An allocation pushes the tag; the lines it keeps are in the same order as before. -/
theorem SetRefines.allocate (h : SetRefines c clock lines l) {kept : List CacheLine} {i : Nat}
    (inside : i < lines.length) (fresh : tag ∉ l)
    (newest : NewestFirst c.policy.stamp ((lines.eraseIdx i).filter (·.valid)) kept)
    (old : ∀ x ∈ (lines.eraseIdx i).filter (·.valid), x ∈ lines.filter (·.valid))
    (pushed : pushFront c.associativity.toNat tag l = tag :: kept.map (·.tag)) :
    SetRefines c (clock + 1) (lines.set i (newLine tag (clock + 1)))
      (pushFront c.associativity.toNat tag l) := by
  have after := filter_set_perm inside (show (newLine tag (clock + 1)).valid = true from rfl)
  have now := stamp_newLine c.policy tag (clock + 1)
  refine ⟨?_, past_of_perm h.past after old now.le, ?_, _,
    NewestFirst.congr (newest.push ?_) after, ?_⟩
  · rw [List.length_set, h.length]
  · exact nodup_pushFront h.nodup fresh
  · exact fun y mem => (Nat.lt_succ_of_le (h.past y (old y mem))).trans_eq now.symm
  · rw [pushed, List.map_cons]

theorem SetRefines.fill (h : SetRefines c clock lines l) (fresh : tag ∉ l) {i : Nat}
    (inside : i < lines.length) (invalid : lines[i].valid = false) :
    SetRefines c (clock + 1) (lines.set i (newLine tag (clock + 1)))
      (pushFront c.associativity.toNat tag l) := by
  have split := (set_perm inside lines[i]).1
  have same : (lines.filter (·.valid)).Perm ((lines.eraseIdx i).filter (·.valid)) := by
    have perm := split.filter (·.valid)
    rwa [List.filter_cons_of_neg (by rw [invalid]; exact Bool.false_ne_true)] at perm
  have room : l.length < c.associativity.toNat := by
    have count := List.length_filter_le (·.valid) (lines.eraseIdx i)
    rw [← h.perm.length_eq, residentTags, List.length_map, same.length_eq, ← h.length,
      split.length_eq]
    exact Nat.lt_succ_of_le count
  obtain ⟨ord, newest, rfl⟩ := h.order
  refine h.allocate inside fresh (newest.congr same.symm) (fun x mem => same.symm.subset mem) ?_
  rw [pushFront, if_pos room]

theorem SetRefines.evict (h : SetRefines c clock lines l) (fresh : tag ∉ l) {i : Nat}
    (inside : i < lines.length) (full : ∀ line ∈ lines, line.valid = true)
    (least : ∀ line ∈ lines, c.policy.stamp lines[i] ≤ c.policy.stamp line) :
    SetRefines c (clock + 1) (lines.set i (newLine tag (clock + 1)))
      (pushFront c.associativity.toNat tag l) := by
  have all : lines.filter (·.valid) = lines := List.filter_eq_self.mpr full
  have before := filter_perm_cons (set_perm inside lines[i]).1 (full _ (List.getElem_mem inside))
  have length : l.length = c.associativity.toNat := by
    rw [← h.perm.length_eq, residentTags, List.length_map, all, h.length]
  obtain ⟨ord, newest, rfl⟩ := h.order
  obtain ⟨newer, rfl, kept⟩ := newest.evict before fun y mem => least y (List.mem_filter.mp mem).1
  refine h.allocate inside fresh kept
    (fun x mem => before.symm.subset (List.mem_cons_of_mem _ mem)) ?_
  rw [pushFront, if_neg (Nat.not_lt.mpr length.ge), List.map_append, List.map_singleton,
    List.dropLast_concat]

theorem SetRefines.step (h : SetRefines c clock lines l) {r : Bool × List CacheLine}
    (step : SetStep c (clock + 1) lines tag isWrite r) :
    r.1 = (listStep c l tag isWrite).1 ∧
      SetRefines c (clock + 1) r.2 (listStep c l tag isWrite).2 := by
  have miss (absent : ∀ line ∈ lines, line.valid = true → line.tag ≠ tag) : tag ∉ l := by
    rw [h.mem_iff]
    rintro ⟨line, mem, valid, same⟩
    exact absent line mem valid same
  unfold listStep
  cases step with
  | hit i inside valid same =>
    rw [if_pos (h.mem_iff.mpr ⟨_, List.getElem_mem inside, valid, same⟩)]
    cases policy : c.policy with
    | lru => exact ⟨rfl, h.hit_lru policy inside valid same⟩
    | fifo => exact ⟨rfl, h.hit_fifo policy inside valid⟩
  | skip absent no_line =>
    rw [if_neg (miss absent), no_line]
    exact ⟨rfl, h.length, fun x mem => Nat.le_succ_of_le (h.past x mem), h.nodup, h.order⟩
  | fill absent allocate i inside invalid first =>
    rw [if_neg (miss absent), if_pos allocate]
    exact ⟨rfl, h.fill (miss absent) inside invalid⟩
  | evict absent allocate i inside full least =>
    rw [if_neg (miss absent), if_pos allocate]
    exact ⟨rfl, h.evict (miss absent) inside full least⟩

/-! ## The whole cache -/

structure Refines (s : CacheSimulator) (cache : TagLists) : Prop where
  accepted : s.Accepted
  sets : s.sets.length = s.setCount.toNat
  each : ∀ k < s.setCount.toNat, SetRefines s.toConfig s.clock (s.set k) (cache k)

theorem refines_empty {c : Config} (accepted : c.Accepted) : Refines (.empty c) fun _ => [] := by
  refine ⟨accepted, List.length_replicate, fun k hk => ?_⟩
  rw [CacheSimulator.set_empty c hk]
  exact setRefines_empty c 0

theorem Refines.accessBlock {s : CacheSimulator} {cache : TagLists}
    (h : Refines s cache) (addr : Int) (isWrite : Bool) :
    (s.accessBlock addr isWrite).1 = (listsBlock s.toConfig cache addr isWrite).1 ∧
      Refines (s.accessBlock addr isWrite).2 (listsBlock s.toConfig cache addr isWrite).2 := by
  have inside := h.accepted.decode_lt addr
  have before := h.each _ inside
  have ne : s.set (s.decode addr).1.toNat ≠ [] := by
    intro empty
    have length := before.length
    have pos := h.accepted.associativity_pos
    rw [empty, List.length_nil] at length
    omega
  obtain ⟨answer, after⟩ :=
    before.step (s.accessSet_step (s.clock + 1) (s.decode addr).2 isWrite ne)
  refine ⟨answer, h.accepted, (List.length_set ..).trans h.sets, fun k hk => ?_⟩
  by_cases touched : k = (s.decode addr).1.toNat
  · subst touched
    rw [CacheSimulator.set_accessBlock_self s (h.sets ▸ inside), listsBlock_self]
    exact after
  · have other := h.each k hk
    rw [CacheSimulator.set_accessBlock_of_ne s touched, listsBlock_of_ne touched]
    exact ⟨other.length, fun x mem => Nat.le_succ_of_le (other.past x mem),
      other.nodup, other.order⟩

theorem Refines.accessBlocks {s : CacheSimulator} {cache : TagLists} (h : Refines s cache)
    (probes : List Probe) :
    (s.accessBlocks probes).1 = (listsBlocks s.toConfig cache probes).1 ∧
      Refines (s.accessBlocks probes).2 (listsBlocks s.toConfig cache probes).2 := by
  induction probes generalizing s cache with
  | nil => exact ⟨rfl, h⟩
  | cons p probes ih =>
    obtain ⟨answer, next⟩ := h.accessBlock p.1 p.2
    obtain ⟨answers, last⟩ := ih next
    exact ⟨congrArg₂ List.cons answer answers, last⟩

/-- From the constructor on, every sequence of block accesses gets the answers of the cache
of tag lists and leaves in each set the tags of its list, of which there are at most
`associativity`; a trace is such a sequence. -/
theorem cacheSimulator_refines_tagLists {int : String → Except String Int}
    {cacheSize blockSize : Int}
    {associativity : Associativity} {policy : String} {writeAllocate : Bool} {sim : CacheSimulator}
    (built : CacheSimulator.init int cacheSize blockSize associativity policy writeAllocate =
      .ok sim) :
    (∀ probes : List Probe,
      let r := sim.accessBlocks probes
      let a := listsBlocks sim.toConfig (fun _ => []) probes
      r.1 = a.1 ∧ ∀ k < sim.setCount.toNat, (residentTags (r.2.set k)).Perm (a.2 k) ∧
        (a.2 k).Nodup ∧
        (a.2 k).length ≤ sim.associativity.toNat) ∧
    ∀ trace : List Access, sim.run trace = (sim.accessBlocks (sim.traceProbes trace)).2 := by
  obtain ⟨empty, accepted, -⟩ := CacheSimulator.init_ok built
  have start : Refines sim fun _ => [] := empty ▸ refines_empty accepted
  refine ⟨fun probes => ?_, sim.run_eq⟩
  obtain ⟨answers, last⟩ := start.accessBlocks probes
  refine ⟨answers, fun k hk => ?_⟩
  have config := sim.accessBlocks_config probes
  have each := last.each k (by rwa [config])
  have length := each.length_le
  rw [config] at length
  exact ⟨each.perm, each.nodup, length⟩

theorem cacheSimulator_refines_tagLists_self_test :
    let sim : CacheSimulator := .empty ⟨8, 4, 2, .fifo, true, 2, 1⟩
    let probes : List Probe :=
      [(0, false), (4, false), (0, false), (8, false), (4, false), (0, false)]
    (sim.accessBlocks probes).1 = (listsBlocks sim.toConfig (fun _ => []) probes).1 ∧
      (sim.accessBlocks probes).1 = [false, false, true, false, true, false] := by
  intro sim probes
  have built : CacheSimulator.init (fun _ => .error "") 8 4 (.text "full") "fifo" true = .ok sim :=
    rfl
  exact ⟨((cacheSimulator_refines_tagLists built).1 probes).1, by decide⟩

end SystemsLab.CacheRefinement
