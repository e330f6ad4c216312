import SystemsLab.Cache.ReuseDistance
import SystemsLab.General.Routing

/-! The sets of a cache are caches of their own. All sets share one clock, so the stamps of a set
are not those that it would have alone; but only their order inside the set decides
on later replacements, and that is the same. -/

namespace SystemsLab.CacheSets
open StampedSlots CacheSim CacheRefinement CacheReuse Routing

/-! ## Two sets with stamps in the same order -/

/-- Line by line two sets hold the same blocks under tags that `name` translates, with stamps in
the same order. -/
structure Alike (policy : Policy) (name : Int → Int) (clock clock' : Nat)
    (pairs : List (CacheLine × CacheLine)) : Prop where
  valid : ∀ p ∈ pairs, p.1.valid = p.2.valid
  tag : ∀ p ∈ pairs, p.1.valid = true → p.2.tag = name p.1.tag
  order : ∀ p ∈ pairs, ∀ q ∈ pairs,
    policy.stamp p.1 ≤ policy.stamp q.1 ↔ policy.stamp p.2 ≤ policy.stamp q.2
  past : ∀ p ∈ pairs, policy.stamp p.1 ≤ clock ∧ policy.stamp p.2 ≤ clock'

variable {policy : Policy} {name : Int → Int} {clock clock' : Nat} {tag : Int} {isWrite : Bool}
  {pairs : List (CacheLine × CacheLine)}

theorem Alike.mono {later later' : Nat} (h : Alike policy name clock clock' pairs)
    (le : clock ≤ later) (le' : clock' ≤ later') : Alike policy name later later' pairs :=
  ⟨h.valid, h.tag, h.order, fun p mem => (h.past p mem).imp le.trans' le'.trans'⟩

theorem Alike.fresh (h : Alike policy name clock clock' pairs) (i : Nat) {line line' : CacheLine}
    (valid : line.valid = line'.valid) (tag : line.valid = true → line'.tag = name line.tag)
    (now : policy.stamp line = clock + 1) (now' : policy.stamp line' = clock' + 1) :
    Alike policy name (clock + 1) (clock' + 1) (pairs.set i (line, line')) where
  valid p mem := by
    rcases List.mem_or_eq_of_mem_set mem with old | rfl
    · exact h.valid p old
    · exact valid
  tag p mem := by
    rcases List.mem_or_eq_of_mem_set mem with old | rfl
    · exact h.tag p old
    · exact tag
  order p hp q hq := by
    rcases List.mem_or_eq_of_mem_set hp with oldP | rfl <;>
      rcases List.mem_or_eq_of_mem_set hq with oldQ | rfl
    · exact h.order p oldP q oldQ
    · have past := h.past p oldP
      simp only [now, now']
      omega
    · have past := h.past q oldQ
      simp only [now, now']
      omega
    · simp only [Nat.le_refl]
  past p mem := by
    rcases List.mem_or_eq_of_mem_set mem with old | rfl
    · exact (h.past p old).imp Nat.le_succ_of_le Nat.le_succ_of_le
    · exact ⟨now.le, now'.le⟩

theorem Alike.keep (h : Alike policy name clock clock' pairs) {i : Nat} (inside : i < pairs.length)
    {line line' : CacheLine} (valid : line.valid = line'.valid)
    (tag : line.valid = true → line'.tag = name line.tag)
    (same : policy.stamp line = policy.stamp pairs[i].1)
    (same' : policy.stamp line' = policy.stamp pairs[i].2) :
    Alike policy name clock clock' (pairs.set i (line, line')) := by
  have old {p : CacheLine × CacheLine} (mem : p ∈ pairs.set i (line, line')) :
      ∃ q ∈ pairs, policy.stamp p.1 = policy.stamp q.1 ∧ policy.stamp p.2 = policy.stamp q.2 := by
    rcases List.mem_or_eq_of_mem_set mem with old | rfl
    · exact ⟨p, old, rfl, rfl⟩
    · exact ⟨pairs[i], List.getElem_mem inside, same, same'⟩
  refine ⟨fun p mem => ?_, fun p mem => ?_, fun p hp q hq => ?_, fun p mem => ?_⟩
  · rcases List.mem_or_eq_of_mem_set mem with old | rfl
    · exact h.valid p old
    · exact valid
  · rcases List.mem_or_eq_of_mem_set mem with old | rfl
    · exact h.tag p old
    · exact tag
  · obtain ⟨p', hp', first, second⟩ := old hp
    obtain ⟨q', hq', third, fourth⟩ := old hq
    rw [first, second, third, fourth]
    exact h.order p' hp' q' hq'
  · obtain ⟨q, hq, first, second⟩ := old mem
    rw [first, second]
    exact h.past q hq

def Paired (pairs : List (CacheLine × CacheLine)) (lines lines' : List CacheLine) : Prop :=
  pairs.map Prod.fst = lines ∧ pairs.map Prod.snd = lines'

theorem Paired.set {lines lines' : List CacheLine} (h : Paired pairs lines lines') (i : Nat)
    (line line' : CacheLine) :
    Paired (pairs.set i (line, line')) (lines.set i line) (lines'.set i line') := by
  obtain ⟨rfl, rfl⟩ := h
  exact ⟨List.map_set, List.map_set⟩

variable {c c' : Config}

theorem Alike.find (h : Alike policy name clock clock' pairs) (injective : Function.Injective name)
    (tag : Int) :
    (pairs.map Prod.snd).findIdx? (fun line => line.valid && line.tag == name tag) =
      (pairs.map Prod.fst).findIdx? fun line => line.valid && line.tag == tag := by
  rw [List.findIdx?_map, List.findIdx?_map]
  refine findIdx?_congr fun p mem => ?_
  change (p.2.valid && p.2.tag == name tag) = (p.1.valid && p.1.tag == tag)
  rw [← h.valid p mem]
  cases valid : p.1.valid with
  | false => rfl
  | true =>
    rw [h.tag p mem valid, Bool.true_and, Bool.true_and, Bool.eq_iff_iff, beq_iff_eq, beq_iff_eq]
    exact injective.eq_iff

theorem Alike.victim (h : Alike policy name clock clock' pairs) (first : c.policy = policy)
    (second : c'.policy = policy) :
    c'.selectVictim (pairs.map Prod.snd) = c.selectVictim (pairs.map Prod.fst) := by
  have invalid : (pairs.map Prod.snd).findIdx? (fun line => !line.valid) =
      (pairs.map Prod.fst).findIdx? fun line => !line.valid := by
    rw [List.findIdx?_map, List.findIdx?_map]
    refine findIdx?_congr fun p mem => ?_
    change (!p.2.valid) = !p.1.valid
    rw [h.valid p mem]
  have least : leastIdx c'.policy.stamp (pairs.map Prod.snd) =
      leastIdx c.policy.stamp (pairs.map Prod.fst) := by
    rw [leastIdx_map, leastIdx_map, first, second]
    exact leastIdx_congr fun p hp q hq => (h.order p hp q hq).symm
  rw [Config.selectVictim, Config.selectVictim, invalid, least]

theorem Paired.modify {lines lines' : List CacheLine} (h : Paired pairs lines lines') {i : Nat}
    (inside : i < pairs.length) (now now' : Nat) :
    Paired (pairs.set i (pairs[i].1.used now, pairs[i].2.used now'))
      (lines.modify i fun line => line.used now) (lines'.modify i fun line => line.used now') := by
  have paired := h.set i (pairs[i].1.used now) (pairs[i].2.used now')
  obtain ⟨rfl, rfl⟩ := h
  rw [List.modify_eq_set_get _ (by simpa using inside),
    List.modify_eq_set_get _ (by simpa using inside)]
  simpa using paired

theorem Alike.used (h : Alike policy name clock clock' pairs) {i : Nat}
    (inside : i < pairs.length) :
    Alike policy name (clock + 1) (clock' + 1)
      (pairs.set i (pairs[i].1.used (clock + 1), pairs[i].2.used (clock' + 1))) := by
  have mem := List.getElem_mem inside
  cases policy with
  | lru => exact h.fresh i (h.valid _ mem) (h.tag _ mem) rfl rfl
  | fifo =>
    have kept : Alike .fifo name clock clock'
        (pairs.set i (pairs[i].1.used (clock + 1), pairs[i].2.used (clock' + 1))) :=
      h.keep inside (h.valid _ mem) (h.tag _ mem) rfl rfl
    exact kept.mono (Nat.le_succ clock) (Nat.le_succ clock')

theorem Alike.accessSet (h : Alike policy name clock clock' pairs)
    (injective : Function.Injective name) (first : c.policy = policy) (second : c'.policy = policy)
    (allocates : c'.writeAllocate = c.writeAllocate) {lines lines' : List CacheLine}
    (paired : Paired pairs lines lines') (tag : Int) (isWrite : Bool) :
    let r := c.accessSet (clock + 1) lines tag isWrite
    let r' := c'.accessSet (clock' + 1) lines' (name tag) isWrite
    r'.1 = r.1 ∧ ∃ pairs', Alike policy name (clock + 1) (clock' + 1) pairs' ∧
      Paired pairs' r.2 r'.2 := by
  have find := h.find injective tag
  have victim := h.victim first second
  rw [paired.1, paired.2] at find victim
  have same : c'.allocates isWrite = c.allocates isWrite := by
    rw [Config.allocates, Config.allocates, allocates]
  intro r r'
  simp only [r, r', Config.accessSet, find, victim, same]
  cases found : lines.findIdx? (fun line => line.valid && line.tag == tag) with
  | some i =>
    have inside : i < pairs.length := by
      obtain ⟨inside, -⟩ := List.findIdx?_eq_some_iff_getElem.mp found
      rwa [← paired.1, List.length_map] at inside
    exact ⟨rfl, _, h.used inside, paired.modify inside (clock + 1) (clock' + 1)⟩
  | none =>
    by_cases allocate : c.allocates isWrite = true
    · have placed : Alike policy name (clock + 1) (clock' + 1) (pairs.set (c.selectVictim lines)
          (newLine tag (clock + 1), newLine (name tag) (clock' + 1))) :=
        h.fresh _ rfl (fun _ => rfl) (stamp_newLine policy tag (clock + 1))
          (stamp_newLine policy (name tag) (clock' + 1))
      simp only [allocate, if_true]
      exact ⟨trivial, _, placed, paired.set _ _ _⟩
    · rw [if_neg allocate, if_neg allocate]
      exact ⟨rfl, pairs, h.mono (Nat.le_succ clock) (Nat.le_succ clock'), paired⟩

/-! ## One set as a simulator -/

def oneSet (c : Config) : Config where
  cacheSize := c.associativity * c.blockSize
  blockSize := c.blockSize
  lineCount := c.associativity
  policy := c.policy
  writeAllocate := c.writeAllocate
  associativity := c.associativity
  setCount := 1

theorem init_oneSet (accepted : c.Accepted) (int : String → Except String Int) {named : String}
    (name : Policy.ofString named = some c.policy) :
    CacheSimulator.init int (c.associativity * c.blockSize) c.blockSize (.ways c.associativity)
      named c.writeAllocate = .ok (.empty (oneSet c)) := by
  have ways := accepted.associativity_pos
  have block := accepted.blockSize_pos
  have size := Int.mul_pos ways block
  have lines : c.associativity * c.blockSize / c.blockSize = c.associativity :=
    Int.mul_ediv_cancel _ block.ne'
  unfold CacheSimulator.init
  rw [if_neg (by omega), if_neg (by rw [Int.mul_emod_left]; decide), name]
  simp only [lines]
  rw [if_neg (by omega), if_neg (by rw [Int.emod_self]; decide), Int.ediv_self ways.ne']
  rfl

theorem decode_oneSet (c : Config) (addr : Int) : (oneSet c).decode addr = (0, block c addr) := by
  change (addr / c.blockSize % 1, addr / c.blockSize / 1) = (0, block c addr)
  rw [Int.emod_one, Int.ediv_one, block]

def answerProbe (s : CacheSimulator) (p : Probe) : Bool × CacheSimulator := s.accessBlock p.1 p.2

theorem accessBlocks_eq_run (s : CacheSimulator) (probes : List Probe) :
    s.accessBlocks probes = run answerProbe s probes := by
  induction probes generalizing s with
  | nil => rfl
  | cons p probes ih =>
    rw [CacheSimulator.accessBlocks, ih, run]
    rfl

def setOf (c : Config) (p : Probe) : Nat := (c.decode p.1).1.toNat

/-- A simulator of one set does what set `k` of `s` does. -/
structure Part (c : Config) (s : CacheSimulator) (k : Nat) (part : CacheSimulator) : Prop where
  config : part.toConfig = oneSet c
  single : part.sets.length = 1
  alike : ∃ pairs, Alike c.policy (blockAt c k) s.clock part.clock pairs ∧
    Paired pairs (s.set k) (part.set 0)

structure Parts (c : Config) (s : CacheSimulator) (parts : Nat → CacheSimulator) : Prop where
  accepted : c.Accepted
  config : s.toConfig = c
  sets : s.sets.length = c.setCount.toNat
  each : ∀ k < c.setCount.toNat, Part c s k (parts k)

theorem parts_empty (accepted : c.Accepted) :
    Parts c (.empty c) fun _ => .empty (oneSet c) where
  accepted := accepted
  config := rfl
  sets := List.length_replicate
  each k hk := by
    refine ⟨rfl, rfl, List.replicate c.associativity.toNat ({}, {}), ?_, ?_⟩
    · have member {p : CacheLine × CacheLine}
          (mem : p ∈ List.replicate c.associativity.toNat ({}, {})) : p = ({}, {}) :=
        List.eq_of_mem_replicate mem
      have zero (policy : Policy) : policy.stamp {} = 0 := by cases policy <;> rfl
      refine ⟨fun p mem => ?_, fun p mem valid => ?_, fun p hp q hq => ?_, fun p mem => ?_⟩
      · rw [member mem]
      · rw [member mem] at valid
        cases valid
      · rw [member hp, member hq]
      · rw [member mem, zero]
        exact ⟨Nat.zero_le _, Nat.zero_le _⟩
    · rw [CacheSimulator.set_empty c hk]
      exact ⟨List.map_replicate, List.map_replicate⟩

variable {s part : CacheSimulator} {parts : Nat → CacheSimulator} {k : Nat}

theorem Part.access (h : Part s.toConfig s k part) (accepted : s.Accepted)
    (sets : s.sets.length = s.setCount.toNat) (p : Probe) (own : setOf s.toConfig p = k) :
    (answerProbe s p).1 = (answerProbe part p).1 ∧
      Part s.toConfig (answerProbe s p).2 k (answerProbe part p).2 := by
  subst own
  obtain ⟨config, single, pairs, alike, paired⟩ := h
  have inside : (s.decode p.1).1.toNat < s.sets.length := sets ▸ accepted.decode_lt p.1
  have decode : part.decode p.1 =
      (0, blockAt s.toConfig (setOf s.toConfig p) (s.decode p.1).2) := by
    rw [config, decode_oneSet, setOf, blockAt_decode accepted.setCount_pos]
  have alone : (part.decode p.1).1.toNat = 0 := by rw [decode]; rfl
  have policy : part.policy = s.policy := by rw [config]; rfl
  have allocates : part.writeAllocate = s.writeAllocate := by rw [config]; rfl
  have step := alike.accessSet (blockAt_injective accepted.setCount_pos _)
    (rfl : s.policy = s.policy) policy allocates paired (s.decode p.1).2 p.2
  have set : (answerProbe s p).2.set (setOf s.toConfig p) =
      (s.accessSet (s.clock + 1) (s.set (setOf s.toConfig p)) (s.decode p.1).2 p.2).2 :=
    s.set_accessBlock_self inside
  have single_set : (answerProbe part p).2.set 0 = (part.accessSet (part.clock + 1) (part.set 0)
      (blockAt s.toConfig (setOf s.toConfig p) (s.decode p.1).2) p.2).2 := by
    have self := @CacheSimulator.set_accessBlock_self part p.1 p.2 (by rw [alone, single]; decide)
    rwa [decode] at self
  have answer : (answerProbe part p).1 = (part.accessSet (part.clock + 1) (part.set 0)
      (blockAt s.toConfig (setOf s.toConfig p) (s.decode p.1).2) p.2).1 := by
    rw [answerProbe, CacheSimulator.accessBlock, decode]
    rfl
  refine ⟨(answer.trans step.1).symm, config, ?_, ?_⟩
  · exact (List.length_set ..).trans single
  · rw [set, single_set]
    exact step.2

theorem Part.other (h : Part s.toConfig s k part) (p : Probe) (other : setOf s.toConfig p ≠ k) :
    Part s.toConfig (answerProbe s p).2 k part := by
  obtain ⟨config, single, pairs, alike, paired⟩ := h
  refine ⟨config, single, pairs, alike.mono (Nat.le_succ s.clock) (Nat.le_refl _), ?_⟩
  have set : (answerProbe s p).2.set k = s.set k := s.set_accessBlock_of_ne other.symm
  rwa [set]

theorem Parts.step (h : Parts c s parts) (p : Probe) :
    (answerProbe s p).1 = (routed answerProbe (setOf c) parts p).1 ∧
      Parts c (answerProbe s p).2 (routed answerProbe (setOf c) parts p).2 := by
  obtain ⟨accepted, rfl, sets, each⟩ := h
  have own := (each _ (accepted.decode_lt p.1)).access accepted sets p rfl
  refine ⟨own.1, accepted, rfl, (List.length_set ..).trans sets, fun k hk => ?_⟩
  by_cases touched : setOf s.toConfig p = k
  · subst touched
    rw [routed_self]
    exact own.2
  · rw [routed_of_ne parts touched]
    exact (each k hk).other p touched

def slotTag (line : CacheLine) : Option Int := if line.valid then some line.tag else none

theorem Part.slots (h : Part c s k part) :
    ((s.set k).map slotTag).map (Option.map (blockAt c k)) = (part.set 0).map slotTag := by
  obtain ⟨-, -, pairs, alike, first, second⟩ := h
  rw [← first, ← second]
  simp only [List.map_map]
  refine List.map_congr_left fun p mem => ?_
  simp only [Function.comp_apply, slotTag, ← alike.valid p mem]
  cases valid : p.1.valid with
  | false => rfl
  | true => exact congrArg some (alike.tag p mem valid).symm

theorem parts_run (accepted : c.Accepted) (probes : List Probe) :
    ((CacheSimulator.empty c).accessBlocks probes).1 =
        (run (routed answerProbe (setOf c)) (fun _ => .empty (oneSet c)) probes).1 ∧
      ∀ k < c.setCount.toNat, Part c ((CacheSimulator.empty c).accessBlocks probes).2 k
        ((CacheSimulator.empty (oneSet c)).accessBlocks (inputsOf (setOf c) k probes)).2 := by
  have related := run_related (Parts c) (fun _ _ p h => h.step p) (parts_empty accepted) probes
  simp only [accessBlocks_eq_run]
  refine ⟨related.1, fun k hk => ?_⟩
  have part := related.2.each k hk
  rwa [run_routed_part] at part

theorem count_answers (accepted : c.Accepted) (probes : List Probe) (answer : Bool) :
    ((CacheSimulator.empty c).accessBlocks probes).1.count answer =
      ∑ k ∈ Finset.range c.setCount.toNat, ((CacheSimulator.empty (oneSet c)).accessBlocks
        (inputsOf (setOf c) k probes)).1.count answer := by
  rw [(parts_run accepted probes).1, count_run_routed _ _ _ (Finset.range c.setCount.toNat)
    fun p _ => Finset.mem_range.mpr (accepted.decode_lt p.1)]
  simp only [accessBlocks_eq_run]

/-- Two sequences that give every set the same accesses in the same order. -/
def SameInSets (c : Config) (probes probes' : List Probe) : Prop :=
  ∀ k < c.setCount.toNat, inputsOf (setOf c) k probes = inputsOf (setOf c) k probes'

instance (c : Config) (probes probes' : List Probe) : Decidable (SameInSets c probes probes') :=
  inferInstanceAs (Decidable (∀ k < c.setCount.toNat, _))

theorem SameInSets.perm (accepted : c.Accepted) {probes probes' : List Probe}
    (same : SameInSets c probes probes') : probes.Perm probes' := by
  refine perm_of_inputsOf (setOf c) fun k => ?_
  by_cases inside : k < c.setCount.toNat
  · exact same k inside
  · have none (probes : List Probe) : inputsOf (setOf c) k probes = [] := by
      refine List.filter_eq_nil_iff.mpr fun p _ own => ?_
      have lt : setOf c p < c.setCount.toNat := accepted.decode_lt p.1
      rw [decide_eq_true_iff] at own
      omega
    rw [none, none]

theorem SameInSets.stats (accepted : c.Accepted) {probes probes' : List Probe}
    (same : SameInSets c probes probes') :
    ((CacheSimulator.empty c).accessBlocks probes).2.stats =
      ((CacheSimulator.empty c).accessBlocks probes').2.stats := by
  have perm := same.perm accepted
  have count (answer : Bool) : ((CacheSimulator.empty c).accessBlocks probes).1.count answer =
      ((CacheSimulator.empty c).accessBlocks probes').1.count answer := by
    rw [count_answers accepted, count_answers accepted]
    exact Finset.sum_congr rfl fun k mem => by rw [same k (Finset.mem_range.mp mem)]
  rw [CacheSimulator.stats_accessBlocks, CacheSimulator.stats_accessBlocks, count, count,
    perm.length_eq, perm.countP_eq, perm.countP_eq]

theorem SameInSets.slots (accepted : c.Accepted) {probes probes' : List Probe}
    (same : SameInSets c probes probes') (hk : k < c.setCount.toNat) :
    (((CacheSimulator.empty c).accessBlocks probes).2.set k).map slotTag =
      (((CacheSimulator.empty c).accessBlocks probes').2.set k).map slotTag := by
  have slots := ((parts_run accepted probes).2 k hk).slots
  rw [same k hk, ← ((parts_run accepted probes').2 k hk).slots] at slots
  have name : Function.Injective (Option.map (blockAt c k)) :=
    Option.map_injective (blockAt_injective accepted.setCount_pos k)
  exact List.map_injective_iff.mpr name slots

/-- Hits and misses are the sums over the sets of those of a simulator of one set on the accesses
for that set; so accesses for different sets may change places. -/
theorem sets_independent {int : String → Except String Int} {cacheSize blockSize : Int}
    {associativity : Associativity} {policy : String} {writeAllocate : Bool} {sim : CacheSimulator}
    (built : CacheSimulator.init int cacheSize blockSize associativity policy writeAllocate =
      .ok sim) :
    let one : CacheSimulator := .empty (oneSet sim.toConfig)
    CacheSimulator.init int (sim.associativity * blockSize) blockSize (.ways sim.associativity)
        policy writeAllocate = .ok one ∧
      (∀ probes : List Probe,
        (sim.accessBlocks probes).2.stats.hits = ∑ k ∈ Finset.range sim.setCount.toNat,
          (one.accessBlocks (inputsOf (setOf sim.toConfig) k probes)).2.stats.hits ∧
        (sim.accessBlocks probes).2.stats.misses = ∑ k ∈ Finset.range sim.setCount.toNat,
          (one.accessBlocks (inputsOf (setOf sim.toConfig) k probes)).2.stats.misses) ∧
      ∀ probes probes' : List Probe, SameInSets sim.toConfig probes probes' →
        (sim.accessBlocks probes).2.stats = (sim.accessBlocks probes').2.stats ∧
        ∀ k < sim.setCount.toNat, ((sim.accessBlocks probes).2.set k).map slotTag =
          ((sim.accessBlocks probes').2.set k).map slotTag := by
  obtain ⟨empty, accepted, block, allocate, named⟩ := CacheSimulator.init_ok built
  intro one
  have same_init := init_oneSet accepted int named
  rw [block, allocate] at same_init
  refine ⟨same_init, fun probes => ?_, fun probes probes' same => ?_⟩
  · have zero (c : Config) : (CacheSimulator.empty c).stats = {} := rfl
    rw [empty]
    simp only [one, CacheSimulator.stats_accessBlocks, zero, Nat.zero_add]
    exact ⟨count_answers accepted probes true, count_answers accepted probes false⟩
  · rw [empty]
    exact ⟨same.stats accepted, fun k hk => same.slots accepted hk⟩

theorem sets_independent_self_test :
    let sim : CacheSimulator := .empty ⟨8, 4, 2, .lru, true, 1, 2⟩
    (sim.accessBlocks [(0, false), (4, true), (8, false)]).2.stats =
      (sim.accessBlocks [(4, true), (0, false), (8, false)]).2.stats := by
  intro sim
  have built : CacheSimulator.init (fun _ => .error "") 8 4 (.ways 1) "lru" true = .ok sim := rfl
  exact ((sets_independent built).2.2 _ _ (by decide)).1

end SystemsLab.CacheSets
