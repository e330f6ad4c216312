import SystemsLab.Cache.SetIndependence

/-! Both policies are conservative when every miss allocates. A block loaded while at most
`associativity` blocks of its set are in use stands in front of the older ones, and there are too
few others to push it out: under LRU a hit only moves blocks of the window forward, under
FIFO it moves none. -/

namespace SystemsLab.CacheConservative
open RecencyList CacheSim CacheRefinement CacheReuse CacheSets

variable {c : Config} {l : List Int} {tag addr : Int} {isWrite : Bool} {k : Nat}
  {s : CacheSimulator} {cache : TagLists} {window loaded : Finset Int}

/-! ## One set -/

theorem kept_step (h : Kept window loaded l) (nodup : l.Nodup) (member : tag ∈ window)
    (fits : window.card ≤ c.associativity.toNat) (allocates : c.allocates isWrite = true) :
    let r := listStep c l tag isWrite
    (tag ∈ loaded → r.1 = true) ∧ Kept window (if r.1 then loaded else insert tag loaded) r.2 := by
  by_cases inside : tag ∈ l
  · cases policy : c.policy with
    | lru =>
      have step : listStep c l tag isWrite = (true, moveToFront tag l) := by
        rw [listStep, if_pos inside, policy]
      rw [step]
      exact ⟨fun _ => rfl, h.move member⟩
    | fifo =>
      have step : listStep c l tag isWrite = (true, l) := by
        rw [listStep, if_pos inside, policy]
      rw [step]
      exact ⟨fun _ => rfl, h⟩
  · have step : listStep c l tag isWrite = (false, pushFront c.associativity.toNat tag l) := by
      rw [listStep, if_neg inside, if_pos allocates]
    rw [step]
    exact ⟨fun mem => absurd (h.mem mem) inside, h.push nodup inside member fits⟩

/-! ## Counting the misses of a block -/

def missesOf (s : CacheSimulator) (b : Int) (probes : List Probe) : Nat :=
  (probes.zip (s.accessBlocks probes).1).countP fun q =>
    decide (block s.toConfig q.1.1 = b) && !q.2

theorem missesOf_cons (s : CacheSimulator) (b : Int) (p : Probe) (rest : List Probe) :
    missesOf s b (p :: rest) = missesOf (s.accessBlock p.1 p.2).2 b rest +
      if block s.toConfig p.1 = b ∧ (s.accessBlock p.1 p.2).1 = false then 1 else 0 := by
  unfold missesOf
  rw [CacheSimulator.accessBlocks, List.zip_cons_cons, List.countP_cons]
  simp only [Bool.and_eq_true, decide_eq_true_iff, Bool.not_eq_true']
  rfl

theorem missesOf_append (s : CacheSimulator) (b : Int) (first rest : List Probe) :
    missesOf s b (first ++ rest) =
      missesOf s b first + missesOf (s.accessBlocks first).2 b rest := by
  induction first generalizing s with
  | nil => exact (Nat.zero_add _).symm
  | cons p first ih =>
    have rest_state : (s.accessBlocks (p :: first)).2 =
      ((s.accessBlock p.1 p.2).2.accessBlocks first).2 := rfl
    rw [List.cons_append, missesOf_cons, missesOf_cons, ih, rest_state]
    omega

theorem block_eq_blockAt_iff (accepted : c.Accepted) (hk : k < c.setCount.toNat) (p : Probe)
    (tag : Int) :
    block c p.1 = blockAt c k tag ↔ setOf c p = k ∧ (c.decode p.1).2 = tag := by
  have sets := accepted.setCount_pos
  constructor
  · intro same
    have own := inSet_blockAt hk tag
    rw [← same, inSet_iff sets] at own
    subst own
    rw [← blockAt_decode sets] at same
    exact ⟨rfl, blockAt_injective sets _ same⟩
  · rintro ⟨rfl, rfl⟩
    exact (blockAt_decode sets p.1).symm

theorem missesOf_own {p : Probe} {rest : List Probe} {b tag : Int}
    (name : block s.toConfig p.1 = b ↔ (s.decode p.1).2 = tag)
    (hit : (s.decode p.1).2 ∈ loaded → (s.accessBlock p.1 p.2).1 = true)
    (few : missesOf (s.accessBlock p.1 p.2).2 b rest ≤ 1)
    (none : tag ∈ (if (s.accessBlock p.1 p.2).1 then loaded else insert (s.decode p.1).2 loaded) →
      missesOf (s.accessBlock p.1 p.2).2 b rest = 0) :
    missesOf s b (p :: rest) ≤ 1 ∧ (tag ∈ loaded → missesOf s b (p :: rest) = 0) := by
  rw [missesOf_cons]
  cases answer : (s.accessBlock p.1 p.2).1 with
  | true =>
    rw [if_neg (fun miss => Bool.false_ne_true miss.2.symm)]
    rw [answer, if_pos rfl] at none
    exact ⟨few, none⟩
  | false =>
    rw [answer, if_neg Bool.false_ne_true] at none
    by_cases same : (s.decode p.1).2 = tag
    · subst same
      rw [none (Finset.mem_insert_self _ _), if_pos ⟨name.mpr rfl, rfl⟩]
      refine ⟨Nat.le_refl 1, fun mem => ?_⟩
      rw [hit mem] at answer
      cases answer
    · rw [if_neg (fun miss => same (name.mp miss.1))]
      exact ⟨few, fun mem => none (Finset.mem_insert_of_mem mem)⟩

theorem missesOf_le_one (refines : Refines s cache) (allocate : s.writeAllocate = true)
    (hk : k < s.setCount.toNat) (fits : window.card ≤ s.associativity.toNat) (probes : List Probe)
    (inside : ∀ p ∈ probes, setOf s.toConfig p = k → (s.decode p.1).2 ∈ window)
    (kept : Kept window loaded (cache k)) (tag : Int) :
    missesOf s (blockAt s.toConfig k tag) probes ≤ 1 ∧
      (tag ∈ loaded → missesOf s (blockAt s.toConfig k tag) probes = 0) := by
  induction probes generalizing s cache loaded with
  | nil => exact ⟨Nat.zero_le 1, fun _ => rfl⟩
  | cons p rest ih =>
    obtain ⟨answer, next⟩ := refines.accessBlock p.1 p.2
    have later : ∀ q ∈ rest, setOf s.toConfig q = k → (s.decode q.1).2 ∈ window :=
      fun q mem => inside q (List.mem_cons_of_mem p mem)
    have name := block_eq_blockAt_iff refines.accepted hk p tag
    by_cases own : setOf s.toConfig p = k
    · have member := inside p List.mem_cons_self own
      have allocates : s.allocates p.2 = true := by rw [Config.allocates, allocate, Bool.or_true]
      subst own
      obtain ⟨hit, kept'⟩ := kept_step kept (refines.each _ hk).nodup member fits allocates
      have list := listsBlock_self s.toConfig cache p.1 p.2
      rw [show (listStep _ (cache (setOf s.toConfig p)) _ _).1 = _ from answer.symm] at hit kept'
      obtain ⟨few, none⟩ := ih next allocate hk fits later (list ▸ kept')
      exact missesOf_own (name.trans (and_iff_right rfl)) hit few none
    · have list : (listsBlock s.toConfig cache p.1 p.2).2 k = cache k :=
        listsBlock_of_ne (Ne.symm own)
      rw [missesOf_cons, if_neg (fun miss => own (name.mp miss.1).1)]
      exact ih next allocate hk fits later (list ▸ kept)

/-! ## From the empty cache -/

theorem listStep_subset {x : Int} (mem : x ∈ (listStep c l tag isWrite).2) : x = tag ∨ x ∈ l := by
  unfold listStep at mem
  split at mem
  case isTrue =>
    split at mem
    · exact mem_moveToFront.mp mem
    · exact Or.inr mem
  case isFalse =>
    split at mem
    · rcases List.mem_cons.mp mem with rfl | rest
      · exact Or.inl rfl
      · split at rest
        · exact Or.inr rest
        · exact Or.inr (List.mem_of_mem_dropLast rest)
    · exact Or.inr mem

def Accessed (c : Config) (history : List Int) (cache : TagLists) : Prop :=
  ∀ k < c.setCount.toNat, ∀ tag ∈ cache k, blockAt c k tag ∈ history

theorem Accessed.step {history : List Int} (h : Accessed c history cache) (accepted : c.Accepted)
    (p : Probe) :
    Accessed c (history ++ [block c p.1]) (listsBlock c cache p.1 p.2).2 := by
  intro k hk tag mem
  rw [List.mem_append, List.mem_singleton]
  by_cases touched : k = (c.decode p.1).1.toNat
  · subst touched
    rw [listsBlock_self] at mem
    rcases listStep_subset mem with rfl | old
    · exact Or.inr (blockAt_decode accepted.setCount_pos p.1)
    · exact Or.inl (h _ hk tag old)
  · rw [listsBlock_of_ne touched] at mem
    exact Or.inl (h k hk tag mem)

theorem Accessed.run {history : List Int} (h : Accessed c history cache) (accepted : c.Accepted)
    (probes : List Probe) :
    Accessed c (history ++ probes.map fun p => block c p.1) (listsBlocks c cache probes).2 := by
  induction probes generalizing history cache with
  | nil => rwa [List.map_nil, List.append_nil]
  | cons p probes ih =>
    have next := ih (h.step accepted p)
    rwa [List.append_assoc, List.singleton_append] at next

theorem accessed_of_hit (accepted : c.Accepted) (before : List Probe) (addr : Int) (isWrite : Bool)
    (hit : (((CacheSimulator.empty c).accessBlocks before).2.accessBlock addr isWrite).1 = true) :
    block c addr ∈ before.map fun p => block c p.1 := by
  have start : Accessed c [] fun _ => [] := fun _ _ _ mem => by cases mem
  have refines := (refines_empty accepted).accessBlocks before
  have held := start.run accepted before
  have config := (CacheSimulator.empty c).accessBlocks_config before
  rw [(refines.2.accessBlock addr isWrite).1, config, listsBlock] at hit
  have mem : (c.decode addr).2 ∈
      (listsBlocks c (fun _ => []) before).2 (c.decode addr).1.toNat := by
    by_contra absent
    have answer : (listStep c ((listsBlocks c (fun _ => []) before).2 (c.decode addr).1.toNat)
        (c.decode addr).2 isWrite).1 = false := by
      rw [listStep, if_neg absent]
      split <;> rfl
    exact Bool.false_ne_true (answer.symm.trans hit)
  have inHistory := held _ (accepted.decode_lt addr) _ mem
  rwa [blockAt_decode accepted.setCount_pos] at inHistory

theorem one_le_missesOf (accepted : c.Accepted) {b : Int} {probes : List Probe}
    (mem : b ∈ probes.map fun p => block c p.1) : 1 ≤ missesOf (.empty c) b probes := by
  obtain ⟨before, after, split, fresh⟩ := List.eq_append_cons_of_mem mem
  obtain ⟨first, tail, rfl, rfl, tail_eq⟩ := List.map_eq_append_iff.mp split
  obtain ⟨p, rest, rfl, rfl, -⟩ := List.map_eq_cons_iff.mp tail_eq
  have config := (CacheSimulator.empty c).accessBlocks_config first
  have miss : (((CacheSimulator.empty c).accessBlocks first).2.accessBlock p.1 p.2).1 = false := by
    rw [← Bool.not_eq_true]
    exact fun hit => fresh (accessed_of_hit accepted first p.1 p.2 hit)
  rw [missesOf_append, missesOf_cons, config, if_pos ⟨rfl, miss⟩]
  omega

/-! ## Windows that fit -/

def blocksIn (c : Config) (k : Nat) (probes : List Probe) : Finset Int :=
  ((probes.map fun p => block c p.1).filter (inSet c k)).toFinset

/-- Every set has ways for all of its blocks. -/
def Fits (c : Config) (probes : List Probe) : Prop :=
  ∀ k < c.setCount.toNat, ((blocksIn c k probes).card : Int) ≤ c.associativity

theorem mem_blocksIn {b : Int} {probes : List Probe} : b ∈ blocksIn c k probes ↔
    b ∈ probes.map (fun p => block c p.1) ∧ inSet c k b = true := by
  rw [blocksIn, List.mem_toFinset, List.mem_filter]

theorem Fits.before {before : List Probe} {p : Probe} (h : Fits c (before ++ [p])) :
    Fits c before := by
  intro k hk
  have sub : blocksIn c k before ⊆ blocksIn c k (before ++ [p]) := by
    intro b mem
    rw [mem_blocksIn] at mem ⊢
    rw [List.map_append, List.mem_append]
    exact ⟨Or.inl mem.1, mem.2⟩
  have card := Finset.card_le_card sub
  have fits := h k hk
  omega

theorem missesOf_le_one_of_fits (refines : Refines s cache) (allocate : s.writeAllocate = true)
    (hk : k < s.setCount.toNat) {probes : List Probe}
    (fits : ((blocksIn s.toConfig k probes).card : Int) ≤ s.associativity) {b : Int}
    (mem : b ∈ blocksIn s.toConfig k probes) : missesOf s b probes ≤ 1 := by
  have sets := refines.accepted.setCount_pos
  have name : blockAt s.toConfig k (b / s.setCount) = b := by
    have own := (mem_blocksIn.mp mem).2
    rw [inSet, decide_eq_true_iff] at own
    rw [blockAt, ← own]
    exact Int.ediv_mul_add_emod b s.setCount
  have card : ((blocksIn s.toConfig k probes).image (· / s.setCount)).card ≤
      s.associativity.toNat := by
    have le := Finset.card_image_le (s := blocksIn s.toConfig k probes) (f := (· / s.setCount))
    omega
  have inside : ∀ p ∈ probes, setOf s.toConfig p = k →
      (s.decode p.1).2 ∈ (blocksIn s.toConfig k probes).image (· / s.setCount) := by
    intro p hp own
    refine Finset.mem_image_of_mem _ (mem_blocksIn.mpr ⟨List.mem_map_of_mem hp, ?_⟩)
    exact (inSet_iff sets k p.1).mpr own.symm
  rw [← name]
  exact (missesOf_le_one refines allocate hk card probes inside (Kept.start _ _) _).1

theorem hit_iff_of_fits (accepted : c.Accepted) (allocate : c.writeAllocate = true)
    {before : List Probe} {p : Probe} (fits : Fits c (before ++ [p])) :
    (((CacheSimulator.empty c).accessBlocks before).2.accessBlock p.1 p.2).1 =
      decide (block c p.1 ∈ before.map fun q => block c q.1) := by
  rw [Bool.eq_iff_iff, decide_eq_true_iff]
  constructor
  · exact accessed_of_hit accepted before p.1 p.2
  · intro seen
    by_contra miss
    rw [Bool.not_eq_true] at miss
    have config := (CacheSimulator.empty c).accessBlocks_config before
    have hk : setOf c p < c.setCount.toNat := accepted.decode_lt p.1
    have mem : block c p.1 ∈ blocksIn c (setOf c p) (before ++ [p]) := by
      rw [mem_blocksIn, List.map_append, List.mem_append]
      exact ⟨Or.inl seen, (inSet_iff accepted.setCount_pos _ p.1).mpr rfl⟩
    have few := missesOf_le_one_of_fits (refines_empty accepted) allocate hk (fits _ hk) mem
    have some := one_le_missesOf accepted seen
    rw [missesOf_append, missesOf_cons, config, if_pos ⟨rfl, miss⟩] at few
    omega

def SameButPolicy (c c' : Config) : Prop := c' = { c with policy := c'.policy }

theorem init_sameButPolicy {int : String → Except String Int} {cacheSize blockSize : Int}
    {associativity : Associativity} {policy policy' : String} {writeAllocate : Bool}
    {sim sim' : CacheSimulator}
    (built : CacheSimulator.init int cacheSize blockSize associativity policy writeAllocate =
      .ok sim)
    (built' : CacheSimulator.init int cacheSize blockSize associativity policy' writeAllocate =
      .ok sim') : SameButPolicy sim.toConfig sim'.toConfig := by
  obtain ⟨_, ways, -, counted, -, -, rfl⟩ := CacheSimulator.init_checks built
  obtain ⟨_, ways', -, counted', -, -, rfl⟩ := CacheSimulator.init_checks built'
  obtain rfl : ways = ways' := Except.ok.inj (counted.symm.trans counted')
  rfl

theorem SameButPolicy.answers {c' : Config} (same : SameButPolicy c c') (accepted : c.Accepted)
    (allocate : c.writeAllocate = true) (accepted' : c'.Accepted) {probes : List Probe}
    (fits : Fits c probes) :
    ((CacheSimulator.empty c').accessBlocks probes).1 =
      ((CacheSimulator.empty c).accessBlocks probes).1 := by
  have block_eq (addr : Int) : block c' addr = block c addr := by rw [same]; rfl
  have allocate' : c'.writeAllocate = true := by rw [same]; exact allocate
  induction probes using List.reverseRecOn with
  | nil => rfl
  | append_singleton before p ih =>
    have fits' : Fits c' (before ++ [p]) := by
      rw [same]
      exact fits
    have answer := hit_iff_of_fits accepted allocate fits
    have answer' := hit_iff_of_fits accepted' allocate' fits'
    simp only [block_eq] at answer'
    rw [CacheSimulator.accessBlocks_append, CacheSimulator.accessBlocks_append, ih fits.before]
    exact congrArg (_ ++ [·]) (answer'.trans answer.symm)

/-- When writes allocate, every block of a set that has ways for all of its blocks in a window
misses at most once there, exactly once from the empty cache; so LRU and FIFO answer alike
what fits in the sets. A trace is a sequence of such accesses. -/
theorem policies_conservative {int : String → Except String Int} {cacheSize blockSize : Int}
    {associativity : Associativity} {policy : String} {sim : CacheSimulator}
    (built : CacheSimulator.init int cacheSize blockSize associativity policy true = .ok sim) :
    (∀ earlier probes : List Probe, ∀ k < sim.setCount.toNat,
      ((blocksIn sim.toConfig k probes).card : Int) ≤ sim.associativity →
      ∀ b ∈ blocksIn sim.toConfig k probes,
        missesOf (sim.accessBlocks earlier).2 b probes ≤ 1 ∧ missesOf sim b probes = 1) ∧
    (∀ policy' sim', CacheSimulator.init int cacheSize blockSize associativity policy' true =
      .ok sim' → ∀ probes : List Probe, Fits sim.toConfig probes →
        (sim'.accessBlocks probes).1 = (sim.accessBlocks probes).1) ∧
    ∀ trace : List Access, sim.run trace = (sim.accessBlocks (sim.traceProbes trace)).2 := by
  obtain ⟨empty, accepted, -, allocate, -⟩ := CacheSimulator.init_ok built
  have start : Refines sim fun _ => [] := empty ▸ refines_empty accepted
  refine ⟨?_, ?_, sim.run_eq⟩
  · intro earlier probes k hk fits b mem
    have reached := (start.accessBlocks earlier).2
    have config := sim.accessBlocks_config earlier
    rw [← config] at hk fits mem
    have few := missesOf_le_one_of_fits reached (by rw [config, allocate]) hk fits mem
    rw [config] at hk fits mem
    have once := missesOf_le_one_of_fits start allocate hk fits mem
    have some := one_le_missesOf accepted (mem_blocksIn.mp mem).1
    rw [← empty] at some
    exact ⟨few, Nat.le_antisymm once some⟩
  · intro policy' sim' built' probes fits
    obtain ⟨empty', accepted', -⟩ := CacheSimulator.init_ok built'
    rw [empty, empty']
    exact (init_sameButPolicy built built').answers accepted allocate accepted' fits

theorem policies_conservative_two_blocks :
    let lru : CacheSimulator := .empty ⟨8, 4, 2, .lru, true, 2, 1⟩
    let fifo : CacheSimulator := .empty ⟨8, 4, 2, .fifo, true, 2, 1⟩
    let probes : List Probe := [(0, false), (4, true), (0, false), (4, false)]
    (fifo.accessBlocks probes).1 = (lru.accessBlocks probes).1 ∧
      (lru.accessBlocks probes).1 = [false, false, true, true] := by
  intro lru fifo probes
  have built : CacheSimulator.init (fun _ => .error "") 8 4 (.text "full") "lru" true = .ok lru :=
    rfl
  have built' : CacheSimulator.init (fun _ => .error "") 8 4 (.text "full") "fifo" true =
    .ok fifo := rfl
  have fits : Fits lru.toConfig probes := by
    unfold Fits
    decide
  exact ⟨(policies_conservative built).2.1 "fifo" fifo built' probes fits, by decide⟩

end SystemsLab.CacheConservative
