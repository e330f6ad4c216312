import SystemsLab.Cache.ReuseDistance

/-! What holds of the simulator after every sequence of accesses: the geometry of the
configuration, the order in which the lines of a set are filled, the stamps that
make the victim unique, and the sums that the counters form. -/

namespace SystemsLab.CacheInvariant
open StampedSlots CacheSim CacheRefinement CacheReuse

variable {c : Config} {clock : Nat} {lines : List CacheLine} {tag : Int} {isWrite : Bool}

/-! ## One set -/

def Distinct {β : Type*} (field : CacheLine → β) (lines : List CacheLine) : Prop :=
  ((lines.filter (·.valid)).map field).Nodup

structure Stamped (clock : Nat) (line : CacheLine) : Prop where
  pos : 1 ≤ line.insertedAt
  ordered : line.insertedAt ≤ line.lastUsedAt
  past : line.lastUsedAt ≤ clock

structure SetInvariant (c : Config) (clock : Nat) (lines : List CacheLine) : Prop where
  length : (lines.length : Int) = c.associativity
  front : ∃ m, ∀ i (h : i < lines.length), lines[i].valid = true ↔ i < m
  tags : Distinct (·.tag) lines
  inserted : Distinct (·.insertedAt) lines
  used : Distinct (·.lastUsedAt) lines
  stamps : ∀ line ∈ lines, line.valid = true → Stamped clock line

theorem Stamped.mono {clock' : Nat} {line : CacheLine} (h : Stamped clock line)
    (le : clock ≤ clock') : Stamped clock' line :=
  ⟨h.pos, h.ordered, h.past.trans le⟩

theorem SetInvariant.mono {clock' : Nat} (h : SetInvariant c clock lines) (le : clock ≤ clock') :
    SetInvariant c clock' lines :=
  { h with stamps := fun line mem valid => (h.stamps line mem valid).mono le }

theorem setInvariant_empty (accepted : c.Accepted) (clock : Nat) :
    SetInvariant c clock (List.replicate c.associativity.toNat {}) := by
  have ways := accepted.associativity_pos
  have none : (List.replicate c.associativity.toNat ({} : CacheLine)).filter (·.valid) = [] := by
    rw [List.filter_replicate_of_neg (by decide)]
  have distinct {β : Type} (field : CacheLine → β) :
      Distinct field (List.replicate c.associativity.toNat {}) := by
    rw [Distinct, none]
    exact List.nodup_nil
  refine ⟨?_, ⟨0, fun i h => ?_⟩, distinct _, distinct _, distinct _, fun line mem valid => ?_⟩
  · rw [List.length_replicate]
    omega
  · simp [List.getElem_replicate]
  · rw [List.eq_of_mem_replicate mem] at valid
    cases valid

theorem Distinct.set {β : Type*} {field : CacheLine → β} (h : Distinct field lines) {i : Nat}
    (inside : i < lines.length) {line : CacheLine} (valid : line.valid = true)
    (fresh : ∀ other ∈ (lines.eraseIdx i).filter (·.valid), field other ≠ field line) :
    Distinct field (lines.set i line) := by
  have others : (lines.eraseIdx i).filter (·.valid) |>.Sublist (lines.filter (·.valid)) :=
    (List.eraseIdx_sublist lines i).filter _
  have perm := (filter_set_perm inside valid).map field
  rw [Distinct, perm.nodup_iff, List.map_cons, List.nodup_cons, List.mem_map]
  exact ⟨fun ⟨other, mem, same⟩ => fresh other mem same, h.sublist (others.map field)⟩

theorem Distinct.others {β : Type*} {field : CacheLine → β} (h : Distinct field lines) {i : Nat}
    (inside : i < lines.length) (valid : lines[i].valid = true) :
    ∀ other ∈ (lines.eraseIdx i).filter (·.valid), field other ≠ field lines[i] := by
  have perm := (filter_perm_cons (set_perm inside lines[i]).1 valid).map field
  rw [Distinct, perm.nodup_iff, List.map_cons, List.nodup_cons, List.mem_map] at h
  exact fun other mem same => h.1 ⟨other, mem, same⟩

theorem of_mem_others {i : Nat} {line : CacheLine}
    (mem : line ∈ (lines.eraseIdx i).filter (·.valid)) : line ∈ lines ∧ line.valid = true :=
  (List.mem_filter.mp mem).imp_left List.mem_of_mem_eraseIdx

theorem SetInvariant.rewrite (h : SetInvariant c clock lines) {i : Nat}
    (inside : i < lines.length) {line : CacheLine} (valid : line.valid = true)
    (front : ∃ m, ∀ j (h : j < (lines.set i line).length),
      (lines.set i line)[j].valid = true ↔ j < m)
    (tags : ∀ other ∈ (lines.eraseIdx i).filter (·.valid), other.tag ≠ line.tag)
    (inserted : ∀ other ∈ (lines.eraseIdx i).filter (·.valid), other.insertedAt ≠ line.insertedAt)
    (stamped : Stamped (clock + 1) line) (now : line.lastUsedAt = clock + 1) :
    SetInvariant c (clock + 1) (lines.set i line) where
  length := by rw [List.length_set, h.length]
  front := front
  tags := h.tags.set inside valid tags
  inserted := h.inserted.set inside valid inserted
  used := h.used.set inside valid fun other mem => by
    obtain ⟨old, live⟩ := of_mem_others mem
    have past := (h.stamps other old live).past
    omega
  stamps other mem live := by
    rcases List.mem_or_eq_of_mem_set mem with old | rfl
    · exact (h.stamps other old live).mono (Nat.le_succ clock)
    · exact stamped

theorem SetInvariant.hit (h : SetInvariant c clock lines) {i : Nat} (inside : i < lines.length)
    (valid : lines[i].valid = true) :
    SetInvariant c (clock + 1) (lines.set i (lines[i].used (clock + 1))) := by
  have old := h.stamps _ (List.getElem_mem inside) valid
  obtain ⟨m, front⟩ := h.front
  refine h.rewrite inside valid ⟨m, fun j hj => ?_⟩ (h.tags.others inside valid)
    (h.inserted.others inside valid) ⟨old.pos, ?_, Nat.le_refl _⟩ rfl
  · rw [List.length_set] at hj
    rw [← front j hj, List.getElem_set]
    split
    case isTrue same =>
      subst same
      rfl
    case isFalse => rfl
  · exact old.ordered.trans (Nat.le_succ_of_le old.past)

theorem SetInvariant.allocate (h : SetInvariant c clock lines) {i : Nat}
    (inside : i < lines.length)
    (absent : ∀ line ∈ lines, line.valid = true → line.tag ≠ tag)
    (before : ∀ j (h : j < lines.length), j < i → lines[j].valid = true) :
    SetInvariant c (clock + 1) (lines.set i (newLine tag (clock + 1))) := by
  obtain ⟨m, front⟩ := h.front
  refine h.rewrite inside rfl ⟨max m (i + 1), fun j hj => ?_⟩ (fun other mem => ?_)
    (fun other mem => ?_) ⟨Nat.le_add_left 1 clock, Nat.le_refl _, Nat.le_refl _⟩ rfl
  · rw [List.length_set] at hj
    rw [List.getElem_set]
    split
    case isTrue same =>
      subst same
      simp
    case isFalse other =>
      rw [front j hj]
      have low : j < i → j < m := fun lt => (front j hj).mp (before j hj lt)
      omega
  · obtain ⟨old, live⟩ := of_mem_others mem
    exact absent other old live
  · obtain ⟨old, live⟩ := of_mem_others mem
    have stamps := h.stamps other old live
    have past := stamps.ordered.trans stamps.past
    change other.insertedAt ≠ clock + 1
    omega

theorem SetInvariant.step (h : SetInvariant c clock lines) {r : Bool × List CacheLine}
    (step : SetStep c (clock + 1) lines tag isWrite r) : SetInvariant c (clock + 1) r.2 := by
  cases step with
  | hit i inside valid same => exact h.hit inside valid
  | skip absent no_line => exact h.mono (Nat.le_succ clock)
  | fill absent allocate i inside invalid first =>
    exact h.allocate inside absent fun j _ before => first j before
  | evict absent allocate i inside full least =>
    exact h.allocate inside absent fun j _ _ => full _ (List.getElem_mem _)

/-- Of a full set one line alone has the least stamp, and the simulator replaces that one. -/
def UniqueVictim (c : Config) (lines : List CacheLine) : Prop :=
  (∀ line ∈ lines, line.valid = true) →
    ∃ inside : c.selectVictim lines < lines.length, ∀ j (hj : j < lines.length),
      j ≠ c.selectVictim lines → c.policy.stamp lines[c.selectVictim lines] <
        c.policy.stamp lines[j]

theorem SetInvariant.victim (h : SetInvariant c clock lines) (ways : 0 < c.associativity) :
    UniqueVictim c lines := by
  intro full
  have none : lines.findIdx? (fun line => !line.valid) = none := by
    rw [List.findIdx?_eq_none_iff]
    exact fun line mem => by rw [full line mem]; rfl
  have least : c.selectVictim lines = leastIdx c.policy.stamp lines := by
    rw [Config.selectVictim, none]
  have length := h.length
  have ne : lines ≠ [] := fun empty => by
    rw [empty, List.length_nil] at length
    omega
  have inside := leastIdx_lt c.policy.stamp ne
  have all : lines.filter (·.valid) = lines := List.filter_eq_self.mpr full
  have distinct : lines.Pairwise fun a b => c.policy.stamp a ≠ c.policy.stamp b := by
    have stamps : Distinct c.policy.stamp lines := by
      cases policy : c.policy with
      | lru => exact h.used
      | fifo => exact h.inserted
    rw [Distinct, all] at stamps
    exact List.pairwise_map.mp stamps
  rw [least]
  refine ⟨inside, fun j hj ne => lt_of_le_of_ne (leastIdx_le _ inside _ (List.getElem_mem hj)) ?_⟩
  rw [List.pairwise_iff_getElem] at distinct
  rcases Nat.lt_or_gt_of_ne ne with lt | gt
  · exact (distinct _ _ hj inside lt).symm
  · exact distinct _ _ inside hj gt

/-! ## The whole simulator -/

structure Counted (s : CacheSimulator) : Prop where
  clock : s.clock = s.stats.accesses
  answers : s.stats.accesses = s.stats.hits + s.stats.misses
  kinds : s.stats.accesses = s.stats.reads + s.stats.writes

structure Invariant (s : CacheSimulator) : Prop where
  accepted : s.Accepted
  sets : (s.sets.length : Int) = s.setCount
  each : ∀ lines ∈ s.sets, SetInvariant s.toConfig s.clock lines
  counted : Counted s

theorem invariant_empty (accepted : c.Accepted) : Invariant (.empty c) where
  accepted := accepted
  sets := by
    have sets := accepted.setCount_pos
    change ((List.replicate c.setCount.toNat _).length : Int) = c.setCount
    rw [List.length_replicate]
    omega
  each lines mem := by
    rw [List.eq_of_mem_replicate mem]
    exact setInvariant_empty accepted 0
  counted := ⟨rfl, rfl, rfl⟩

theorem Counted.accessBlock {s : CacheSimulator} (h : Counted s) (addr : Int) (isWrite : Bool) :
    Counted (s.accessBlock addr isWrite).2 := by
  obtain ⟨clock, answers, kinds⟩ := h
  refine ⟨congrArg (· + 1) clock, ?_, ?_⟩
  · change s.stats.accesses + 1 = (if (s.accessBlock addr isWrite).1 then _ else _) +
      if (s.accessBlock addr isWrite).1 then _ else _
    split <;> omega
  · change s.stats.accesses + 1 = (if isWrite then _ else _) + if isWrite then _ else _
    split <;> omega

theorem Invariant.set_mem {s : CacheSimulator} (h : Invariant s) (addr : Int) :
    (s.decode addr).1.toNat < s.sets.length ∧ s.set (s.decode addr).1.toNat ∈ s.sets := by
  have inside : (s.decode addr).1.toNat < s.sets.length := by
    have lt := h.accepted.decode_lt addr
    have sets := h.sets
    omega
  refine ⟨inside, ?_⟩
  rw [CacheSimulator.set, List.getD_eq_getElem?_getD, List.getElem?_eq_getElem inside]
  exact List.getElem_mem inside

theorem Invariant.set_ne_nil {s : CacheSimulator} (h : Invariant s) (addr : Int) :
    s.set (s.decode addr).1.toNat ≠ [] := by
  intro empty
  have length := (h.each _ (h.set_mem addr).2).length
  have ways := h.accepted.associativity_pos
  rw [empty, List.length_nil] at length
  omega

theorem Invariant.accessBlock {s : CacheSimulator} (h : Invariant s) (addr : Int)
    (isWrite : Bool) : Invariant (s.accessBlock addr isWrite).2 where
  accepted := h.accepted
  sets := by
    change ((s.sets.set _ _).length : Int) = s.setCount
    rw [List.length_set, h.sets]
  each lines mem := by
    have step := s.accessSet_step (s.clock + 1) (s.decode addr).2 isWrite (h.set_ne_nil addr)
    rcases List.mem_or_eq_of_mem_set mem with old | rfl
    · exact (h.each lines old).mono (Nat.le_succ s.clock)
    · exact (h.each _ (h.set_mem addr).2).step step
  counted := h.counted.accessBlock addr isWrite

theorem Invariant.accessBlocks {s : CacheSimulator} (h : Invariant s) (probes : List Probe) :
    Invariant (s.accessBlocks probes).2 := by
  induction probes generalizing s with
  | nil => exact h
  | cons p probes ih => exact ih (h.accessBlock p.1 p.2)

theorem resident_of_step {r : Bool × List CacheLine}
    (step : SetStep c clock lines tag isWrite r) (allocates : c.allocates isWrite = true) :
    tag ∈ residentTags r.2 := by
  have held {i : Nat} (inside : i < lines.length) (line : CacheLine) (valid : line.valid = true) :
      line.tag ∈ residentTags (lines.set i line) :=
    List.mem_map.mpr ⟨line, List.mem_filter.mpr ⟨List.mem_set inside line, valid⟩, rfl⟩
  cases step with
  | hit i inside valid same => exact same ▸ held inside (lines[i].used clock) valid
  | skip absent no_line =>
    rw [allocates] at no_line
    cases no_line
  | fill absent _ i inside invalid first => exact held inside (newLine tag clock) rfl
  | evict absent _ i inside full least => exact held inside (newLine tag clock) rfl

theorem Invariant.resident {s : CacheSimulator} (h : Invariant s) (addr : Int) {isWrite : Bool}
    (allocates : s.allocates isWrite = true) :
    block s.toConfig addr ∈ residentBlocks (s.accessBlock addr isWrite).2 := by
  have step := s.accessSet_step (s.clock + 1) (s.decode addr).2 isWrite (h.set_ne_nil addr)
  refine ⟨_, h.accepted.decode_lt addr, (s.decode addr).2, ?_, ?_⟩
  · rw [s.set_accessBlock_self (h.set_mem addr).1]
    exact resident_of_step step allocates
  · exact (blockAt_decode h.accepted.setCount_pos addr).symm

theorem decode_eq_iff (accepted : c.Accepted) (addr addr' : Int) :
    c.decode addr = c.decode addr' ↔ block c addr = block c addr' := by
  constructor
  · intro same
    rw [← blockAt_decode accepted.setCount_pos addr, same,
      blockAt_decode accepted.setCount_pos addr']
  · intro same
    change (block c addr % c.setCount, block c addr / c.setCount) =
      (block c addr' % c.setCount, block c addr' / c.setCount)
    rw [same]

/-- After every sequence of block accesses (a trace is one) the invariant holds, victims are unique,
set index and tag name one block, and the next access leaves its block resident if it allocates. -/
theorem cacheSimulator_invariant {int : String → Except String Int} {cacheSize blockSize : Int}
    {associativity : Associativity} {policy : String} {writeAllocate : Bool} {sim : CacheSimulator}
    (built : CacheSimulator.init int cacheSize blockSize associativity policy writeAllocate =
      .ok sim) :
    (∀ probes : List Probe,
      let s := (sim.accessBlocks probes).2
      Invariant s ∧ (∀ lines ∈ s.sets, UniqueVictim s.toConfig lines) ∧
        (∀ addr addr', s.decode addr = s.decode addr' ↔
          block s.toConfig addr = block s.toConfig addr') ∧
        ∀ addr isWrite, s.allocates isWrite = true →
          block s.toConfig addr ∈ residentBlocks (s.accessBlock addr isWrite).2) ∧
    ∀ trace : List Access, sim.run trace = (sim.accessBlocks (sim.traceProbes trace)).2 := by
  obtain ⟨empty, accepted, -⟩ := CacheSimulator.init_ok built
  have start : Invariant sim := empty ▸ invariant_empty accepted
  refine ⟨fun probes => ?_, sim.run_eq⟩
  have reached := start.accessBlocks probes
  refine ⟨reached, fun lines mem => ?_, decode_eq_iff reached.accepted, fun addr isWrite => ?_⟩
  · exact (reached.each lines mem).victim reached.accepted.associativity_pos
  · exact reached.resident addr

theorem cacheSimulator_invariant_self_test :
    let sim : CacheSimulator := .empty ⟨8, 4, 2, .fifo, true, 2, 1⟩
    Invariant (sim.accessBlocks [(0, false), (4, false), (0, false)]).2 ∧
      ((sim.accessBlocks [(0, false), (4, false), (0, false)]).2.set 0).map (·.insertedAt) =
        [1, 2] := by
  intro sim
  have built : CacheSimulator.init (fun _ => .error "") 8 4 (.text "full") "fifo" true = .ok sim :=
    rfl
  exact ⟨((cacheSimulator_invariant built).1 [(0, false), (4, false), (0, false)]).1, by decide⟩

end SystemsLab.CacheInvariant
