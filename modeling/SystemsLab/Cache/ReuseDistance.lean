import SystemsLab.Cache.Refinement
import Mathlib.Data.Set.Basic

/-! LRU with write allocation, described by the past alone. A set holds the blocks
that were used last among the blocks of its class, so whether an access hits is a
count over the history of accesses, and a cache with more sets or more ways holds whatever a
smaller one holds. -/

namespace SystemsLab.CacheReuse
open StampedSlots RecencyList CacheSim CacheRefinement

/-! ## Blocks of a set -/

def block (c : Config) (addr : Int) : Int := addr / c.blockSize

def inSet (c : Config) (k : Nat) (b : Int) : Bool := decide (b % c.setCount = (k : Int))

def blockAt (c : Config) (k : Nat) (tag : Int) : Int := tag * c.setCount + (k : Int)

variable {c : Config} {k : Nat} {tag addr : Int} {isWrite : Bool} {l : List Int}
  {history : List Int}
  {cache : TagLists}

theorem blockAt_injective (pos : 0 < c.setCount) (k : Nat) : Function.Injective (blockAt c k) := by
  intro s t h
  unfold blockAt at h
  exact Int.eq_of_mul_eq_mul_right pos.ne' (by omega)

theorem toNat_setIndex (pos : 0 < c.setCount) (addr : Int) :
    ((c.decode addr).1.toNat : Int) = block c addr % c.setCount :=
  Int.toNat_of_nonneg (Int.emod_nonneg _ pos.ne')

theorem blockAt_decode (pos : 0 < c.setCount) (addr : Int) :
    blockAt c (c.decode addr).1.toNat (c.decode addr).2 = block c addr := by
  unfold blockAt
  rw [toNat_setIndex pos]
  exact Int.ediv_mul_add_emod (block c addr) c.setCount

theorem inSet_iff (pos : 0 < c.setCount) (k : Nat) (addr : Int) :
    inSet c k (block c addr) = true ↔ k = (c.decode addr).1.toNat := by
  unfold inSet
  rw [decide_eq_true_iff, ← toNat_setIndex pos]
  exact ⟨fun h => (Int.ofNat_inj.mp h).symm, fun h => by rw [h]⟩

theorem inSet_blockAt (hk : k < c.setCount.toNat) (tag : Int) :
    inSet c k (blockAt c k tag) = true := by
  unfold inSet blockAt
  rw [decide_eq_true_iff, Int.mul_add_emod_self_right]
  exact Int.emod_eq_of_lt (Int.natCast_nonneg k) (by omega)

/-! ## The sets follow the recency list -/

/-- Every set holds the last used blocks of its class, at most `associativity` of them. -/
def Tracks (c : Config) (history : List Int) (cache : TagLists) : Prop :=
  ∀ k < c.setCount.toNat, (cache k).map (blockAt c k) =
    ((recency history).filter (inSet c k)).take c.associativity.toNat

structure LruAllocating (c : Config) : Prop where
  accepted : c.Accepted
  lru : c.policy = .lru
  allocates : c.writeAllocate = true

theorem LruAllocating.listStep_eq (h : LruAllocating c) (l : List Int) (tag : Int)
    (isWrite : Bool) :
    listStep c l tag isWrite = (decide (tag ∈ l), use c.associativity.toNat tag l) := by
  have allocates : c.allocates isWrite = true := by
    rw [Config.allocates, h.allocates, Bool.or_true]
  unfold listStep use
  split
  case isTrue inside => rw [h.lru, decide_eq_true inside]
  case isFalse outside => rw [decide_eq_false outside]

theorem Tracks.step (h : LruAllocating c) (tracks : Tracks c history cache) (addr : Int)
    (isWrite : Bool) :
    Tracks c (history ++ [block c addr]) (listsBlock c cache addr isWrite).2 := by
  have ways : 0 < c.associativity.toNat := by
    have pos := h.accepted.associativity_pos
    omega
  have sets := h.accepted.setCount_pos
  intro k hk
  rw [recency_append]
  by_cases touched : k = (c.decode addr).1.toNat
  · have member := (inSet_iff sets k addr).mpr touched
    subst touched
    rw [listsBlock_self, h.listStep_eq, map_use (blockAt_injective sets _), blockAt_decode sets,
      tracks _ hk, use_take ways, filter_moveToFront _ (nodup_recency history) member]
  · have other : ¬ inSet c k (block c addr) = true :=
      fun member => touched ((inSet_iff sets k addr).mp member)
    rw [listsBlock_of_ne touched, tracks k hk,
      filter_moveToFront_of_neg _ (nodup_recency history) other]

theorem Tracks.run (h : LruAllocating c) (tracks : Tracks c history cache) (probes : List Probe) :
    Tracks c (history ++ probes.map fun p => block c p.1) (listsBlocks c cache probes).2 := by
  induction probes generalizing history cache with
  | nil => rwa [List.map_nil, List.append_nil]
  | cons p probes ih =>
    have next := ih (tracks.step h p.1 p.2)
    rwa [List.append_assoc, List.singleton_append] at next

theorem tracks_empty (c : Config) : Tracks c [] fun _ => [] := by
  intro k _
  exact List.take_nil.symm

theorem Tracks.mem_iff (h : LruAllocating c) (tracks : Tracks c history cache)
    (hk : k < c.setCount.toNat) (tag : Int) : tag ∈ cache k ↔
      blockAt c k tag ∈ ((recency history).filter (inSet c k)).take c.associativity.toNat := by
  rw [← tracks k hk, List.mem_map_of_injective (blockAt_injective h.accepted.setCount_pos k)]

/-! ## Accesses of the simulator -/

structure After (s : CacheSimulator) (history : List Int) : Prop where
  config : LruAllocating s.toConfig
  lists : ∃ cache, Refines s cache ∧ Tracks s.toConfig history cache

theorem After.empty (h : LruAllocating c) : After (.empty c) [] :=
  ⟨h, _, refines_empty h.accepted, tracks_empty c⟩

theorem After.run {s : CacheSimulator} (h : After s history) (probes : List Probe) :
    After (s.accessBlocks probes).2 (history ++ probes.map fun p => block s.toConfig p.1) := by
  obtain ⟨cache, refines, tracks⟩ := h.lists
  have config := s.accessBlocks_config probes
  exact ⟨config ▸ h.config, _, (refines.accessBlocks probes).2, config ▸ tracks.run h.config probes⟩

theorem After.hit_iff {s : CacheSimulator} (h : After s history) (addr : Int) (isWrite : Bool) :
    (s.accessBlock addr isWrite).1 = true ↔
      block s.toConfig addr ∈
        ((recency history).filter (inSet s.toConfig (s.decode addr).1.toNat)).take
        s.associativity.toNat := by
  obtain ⟨cache, refines, tracks⟩ := h.lists
  have mem := tracks.mem_iff h.config (h.config.accepted.decode_lt addr) (s.decode addr).2
  rw [blockAt_decode h.config.accepted.setCount_pos] at mem
  rw [(refines.accessBlock addr isWrite).1, listsBlock, h.config.listStep_eq,
    decide_eq_true_iff, mem]

def residentBlocks (s : CacheSimulator) : Set Int :=
  {b | ∃ k < s.setCount.toNat, ∃ tag ∈ residentTags (s.set k), b = blockAt s.toConfig k tag}

theorem After.resident_iff {s : CacheSimulator} (h : After s history) (b : Int) :
    b ∈ residentBlocks s ↔
      b ∈ ((recency history).filter (inSet s.toConfig (b % s.setCount).toNat)).take
        s.associativity.toNat := by
  obtain ⟨cache, refines, tracks⟩ := h.lists
  have pos := h.config.accepted.setCount_pos
  have low := Int.emod_nonneg b pos.ne'
  have high := Int.emod_lt_of_pos b pos
  constructor
  · rintro ⟨k, hk, tag, mem, rfl⟩
    have own := inSet_blockAt hk tag
    rw [inSet, decide_eq_true_iff] at own
    rw [(refines.each k hk).perm.mem_iff, tracks.mem_iff h.config hk] at mem
    rwa [own, Int.toNat_natCast]
  · intro mem
    have hk : (b % s.setCount).toNat < s.setCount.toNat := by omega
    have name : blockAt s.toConfig (b % s.setCount).toNat (b / s.setCount) = b := by
      unfold blockAt
      rw [Int.toNat_of_nonneg low]
      exact Int.ediv_mul_add_emod b s.setCount
    refine ⟨_, hk, b / s.setCount, ?_, name.symm⟩
    rw [(refines.each _ hk).perm.mem_iff, tracks.mem_iff h.config hk, name]
    exact mem

theorem After.of_init {int : String → Except String Int} {cacheSize blockSize : Int}
    {associativity : Associativity} {policy : String} {writeAllocate : Bool} {sim : CacheSimulator}
    (built : CacheSimulator.init int cacheSize blockSize associativity policy writeAllocate =
      .ok sim)
    (lru : sim.policy = .lru) (allocates : sim.writeAllocate = true) : After sim [] := by
  obtain ⟨empty, accepted, -⟩ := CacheSimulator.init_ok built
  rw [empty]
  exact .empty ⟨accepted, lru, allocates⟩

/-! ## Reuse distance -/

def blocksOfSet (c : Config) (addr : Int) (probes : List Probe) : Finset Int :=
  {b ∈ (probes.map fun p => block c p.1).toFinset | b % c.setCount = block c addr % c.setCount}

theorem blocksOfSet_eq (pos : 0 < c.setCount) (addr : Int) (probes : List Probe) :
    blocksOfSet c addr probes =
      ((probes.map fun p => block c p.1).filter (inSet c (c.decode addr).1.toNat)).toFinset := by
  unfold blocksOfSet
  rw [List.toFinset_filter]
  refine Finset.filter_congr fun b _ => ?_
  rw [inSet, decide_eq_true_iff, toNat_setIndex pos]

/-- An access hits when its block was used before and fewer than `associativity` other blocks of
its set were used since. -/
theorem hit_iff_reuse_distance {int : String → Except String Int} {cacheSize blockSize : Int}
    {associativity : Associativity} {policy : String} {writeAllocate : Bool} {sim : CacheSimulator}
    (built : CacheSimulator.init int cacheSize blockSize associativity policy writeAllocate =
      .ok sim)
    (lru : sim.policy = .lru) (allocates : sim.writeAllocate = true)
    (probes : List Probe) (addr : Int) (isWrite : Bool) :
    ((sim.accessBlocks probes).2.accessBlock addr isWrite).1 = true ↔
      ∃ earlier last later, probes = earlier ++ last :: later ∧
        block sim.toConfig last.1 = block sim.toConfig addr ∧
        (∀ p ∈ later, block sim.toConfig p.1 ≠ block sim.toConfig addr) ∧
        ((blocksOfSet sim.toConfig addr later).card : Int) < sim.associativity := by
  have start := After.of_init built lru allocates
  have sets := start.config.accepted.setCount_pos
  have after := start.run probes
  rw [List.nil_append] at after
  rw [after.hit_iff, sim.accessBlocks_config probes,
    mem_window_iff _ _ _ ((inSet_iff sets _ addr).mpr rfl)]
  have count (later : List Probe) :
    ((blocksOfSet sim.toConfig addr later).card : Int) < sim.associativity ↔
      (((later.map fun p => block sim.toConfig p.1).filter
        (inSet sim.toConfig (sim.decode addr).1.toNat)).toFinset.card <
          sim.associativity.toNat) := by
    rw [blocksOfSet_eq sets]
    omega
  constructor
  · rintro ⟨_, _, split, fresh, few⟩
    obtain ⟨earlier, tail, rfl, rfl, tail_eq⟩ := List.map_eq_append_iff.mp split
    obtain ⟨last, later, rfl, same, rfl⟩ := List.map_eq_cons_iff.mp tail_eq
    exact ⟨earlier, last, later, rfl, same,
      fun p inside eq => fresh (List.mem_map.mpr ⟨p, inside, eq⟩),
      (count later).mpr few⟩
  · rintro ⟨earlier, last, later, rfl, same, fresh, few⟩
    refine ⟨_, _, by rw [List.map_append, List.map_cons, same], fun mem => ?_, (count later).mp few⟩
    obtain ⟨p, inside, eq⟩ := List.mem_map.mp mem
    exact fresh p inside eq

/-- In the fully associative cache of the self-test one other block leaves block 0 resident and
two others evict it. -/
theorem hit_iff_reuse_distance_self_test :
    let sim : CacheSimulator := .empty ⟨8, 4, 2, .lru, true, 2, 1⟩
    ((sim.accessBlocks [(0, false), (4, false)]).2.accessBlock 0 false).1 = true ∧
      ((sim.accessBlocks [(0, false), (8, false), (4, false)]).2.accessBlock 0 false).1 =
        false := by
  intro sim
  have built : CacheSimulator.init (fun _ => .error "") 8 4 (.text "full") "lru" true = .ok sim :=
    rfl
  refine ⟨(hit_iff_reuse_distance built rfl rfl [(0, false), (4, false)] 0 false).mpr ?_, by decide⟩
  exact ⟨[], (0, false), [(4, false)], rfl, rfl, by decide, by decide⟩

/-! ## Inclusion -/

theorem misses_accessBlocks (s : CacheSimulator) (probes : List Probe) :
    (s.accessBlocks probes).2.stats.misses =
      s.stats.misses + (s.accessBlocks probes).1.count false := by
  rw [s.stats_accessBlocks]

/-- A larger cache: the same blocks, a multiple of the sets, at least as many ways. -/
structure Larger (small large : Config) : Prop where
  blockSize : small.blockSize = large.blockSize
  sets : small.setCount ∣ large.setCount
  ways : small.associativity ≤ large.associativity

theorem Larger.inSet_of {small large : Config} (h : Larger small large) (pos : 0 < small.setCount)
    {b y : Int} (same : inSet large (b % large.setCount).toNat y = true)
    (large_pos : 0 < large.setCount) :
    inSet small (b % small.setCount).toNat y = true := by
  unfold inSet at *
  rw [decide_eq_true_iff, Int.toNat_of_nonneg (Int.emod_nonneg _ (by omega))] at *
  rw [← Int.emod_emod_of_dvd y h.sets, same, Int.emod_emod_of_dvd b h.sets]

theorem Larger.window {small large : Config} (h : Larger small large) (pos : 0 < small.setCount)
    (large_pos : 0 < large.setCount) {b : Int}
    (kept : b ∈ ((recency history).filter (inSet small (b % small.setCount).toNat)).take
      small.associativity.toNat) :
    b ∈ ((recency history).filter (inSet large (b % large.setCount).toNat)).take
      large.associativity.toNat := by
  have own {c : Config} (pos : 0 < c.setCount) : inSet c (b % c.setCount).toNat b = true := by
    rw [inSet, decide_eq_true_iff, Int.toNat_of_nonneg (Int.emod_nonneg _ pos.ne')]
  have ways := h.ways
  exact mem_window_mono history (own pos) (own large_pos)
    (fun y same => h.inSet_of pos same large_pos) (by omega) kept

theorem Larger.resident {s t : CacheSimulator} (h : Larger s.toConfig t.toConfig)
    (hs : After s history) (ht : After t history) : residentBlocks s ⊆ residentBlocks t := by
  intro b mem
  rw [hs.resident_iff] at mem
  rw [ht.resident_iff]
  exact h.window hs.config.accepted.setCount_pos ht.config.accepted.setCount_pos mem

theorem Larger.hit {s t : CacheSimulator} (h : Larger s.toConfig t.toConfig) (hs : After s history)
    (ht : After t history) (addr : Int) (isWrite : Bool)
    (hit : (s.accessBlock addr isWrite).1 = true) : (t.accessBlock addr isWrite).1 = true := by
  have same : block s.toConfig addr = block t.toConfig addr := by rw [block, block, h.blockSize]
  rw [hs.hit_iff] at hit
  rw [ht.hit_iff, ← same]
  have index (u : CacheSimulator) : (u.decode addr).1 = block u.toConfig addr % u.setCount := rfl
  rw [index] at hit ⊢
  rw [← same]
  exact h.window hs.config.accepted.setCount_pos ht.config.accepted.setCount_pos hit

theorem Larger.answers {s t : CacheSimulator} (h : Larger s.toConfig t.toConfig)
    (hs : After s history) (ht : After t history) (probes : List Probe) :
    List.Forall₂ (fun a b => a = true → b = true) (s.accessBlocks probes).1
      (t.accessBlocks probes).1 := by
  induction probes generalizing s t history with
  | nil => exact .nil
  | cons p probes ih =>
    have next := ht.run [p]
    rw [List.map_singleton, show block t.toConfig p.1 = block s.toConfig p.1 by
      rw [block, block, h.blockSize]] at next
    exact .cons (h.hit hs ht p.1 p.2) (ih h (hs.run [p]) next)

theorem count_false_le {answers answers' : List Bool}
    (h : List.Forall₂ (fun a b => a = true → b = true) answers answers') :
    answers'.count false ≤ answers.count false := by
  induction h with
  | nil => exact Nat.le_refl 0
  | @cons a b answers answers' hit _ ih =>
    have one : (if b == false then 1 else 0) ≤ if a == false then 1 else 0 := by
      revert hit
      cases a <;> cases b <;> decide
    rw [List.count_cons, List.count_cons]
    exact Nat.add_le_add ih one

theorem inclusion_runs {small large : CacheSimulator}
    (blockSize : small.blockSize = large.blockSize)
    (misses : small.stats.misses = large.stats.misses)
    (inclusion : ∀ probes : List Probe,
      residentBlocks (small.accessBlocks probes).2 ⊆ residentBlocks (large.accessBlocks probes).2 ∧
      List.Forall₂ (fun a b => a = true → b = true) (small.accessBlocks probes).1
        (large.accessBlocks probes).1) :
    (∀ probes : List Probe,
      residentBlocks (small.accessBlocks probes).2 ⊆ residentBlocks (large.accessBlocks probes).2 ∧
      List.Forall₂ (fun a b => a = true → b = true) (small.accessBlocks probes).1
        (large.accessBlocks probes).1 ∧
      (large.accessBlocks probes).2.stats.misses ≤ (small.accessBlocks probes).2.stats.misses) ∧
    ∀ trace : List Access, residentBlocks (small.run trace) ⊆ residentBlocks (large.run trace) ∧
      (large.run trace).stats.misses ≤ (small.run trace).stats.misses := by
  have fewer (probes : List Probe) :
      (large.accessBlocks probes).2.stats.misses ≤ (small.accessBlocks probes).2.stats.misses := by
    rw [misses_accessBlocks, misses_accessBlocks, misses]
    exact Nat.add_le_add_left (count_false_le (inclusion probes).2) _
  refine ⟨fun probes => ⟨(inclusion probes).1, (inclusion probes).2, fewer probes⟩, fun trace => ?_⟩
  have probes : small.traceProbes trace = large.traceProbes trace := by
    simp only [Config.traceProbes, Config.probes, blockSize]
  rw [small.run_eq, large.run_eq, ← probes]
  exact ⟨(inclusion _).1, fewer _⟩

/-- Of two LRU caches that allocate on every miss, the larger one holds after every sequence of
accesses what the smaller one holds, hits whenever it hits, and misses at most as often. -/
theorem lru_inclusion {int int' : String → Except String Int}
    {cacheSize cacheSize' blockSize blockSize' : Int}
    {associativity associativity' : Associativity} {policy policy' : String}
    {writeAllocate writeAllocate' : Bool} {small large : CacheSimulator}
    (built : CacheSimulator.init int cacheSize blockSize associativity policy writeAllocate =
      .ok small)
    (built' : CacheSimulator.init int' cacheSize' blockSize' associativity' policy' writeAllocate' =
      .ok large)
    (lru : small.policy = .lru ∧ large.policy = .lru)
    (allocate : small.writeAllocate = true ∧ large.writeAllocate = true)
    (larger : Larger small.toConfig large.toConfig) :
    (∀ probes : List Probe,
      residentBlocks (small.accessBlocks probes).2 ⊆ residentBlocks (large.accessBlocks probes).2 ∧
      List.Forall₂ (fun a b => a = true → b = true) (small.accessBlocks probes).1
        (large.accessBlocks probes).1 ∧
      (large.accessBlocks probes).2.stats.misses ≤ (small.accessBlocks probes).2.stats.misses) ∧
    ∀ trace : List Access, residentBlocks (small.run trace) ⊆ residentBlocks (large.run trace) ∧
      (large.run trace).stats.misses ≤ (small.run trace).stats.misses := by
  have start := After.of_init built lru.1 allocate.1
  have start' := After.of_init built' lru.2 allocate.2
  have zero : small.stats.misses = 0 := by rw [(CacheSimulator.init_ok built).1]; rfl
  have zero' : large.stats.misses = 0 := by rw [(CacheSimulator.init_ok built').1]; rfl
  have blocks (probes : List Probe) : probes.map (fun p => block small.toConfig p.1) =
      probes.map fun p => block large.toConfig p.1 := by
    simp only [block, larger.blockSize]
  refine inclusion_runs larger.blockSize (zero.trans zero'.symm) fun probes => ⟨?_, ?_⟩
  · have config : Larger (small.accessBlocks probes).2.toConfig
        (large.accessBlocks probes).2.toConfig := by
      rwa [small.accessBlocks_config, large.accessBlocks_config]
    exact config.resident (start.run probes) (blocks probes ▸ start'.run probes)
  · exact larger.answers start start' probes

/-- The direct mapped cache of the self-test and a two-way cache with twice its sets. The blocks 0
and 2 share a set in the former only. -/
theorem lru_inclusion_self_test :
    let small : CacheSimulator := .empty ⟨8, 4, 2, .lru, true, 1, 2⟩
    let large : CacheSimulator := .empty ⟨32, 4, 8, .lru, true, 2, 4⟩
    let trace : List Access := [⟨.load, 0, 4⟩, ⟨.load, 8, 4⟩, ⟨.write, 0, 4⟩, ⟨.load, 8, 1⟩]
    residentBlocks (small.run trace) ⊆ residentBlocks (large.run trace) ∧
      (large.run trace).stats.misses ≤ (small.run trace).stats.misses ∧
      (small.run trace).stats.misses = 4 ∧ (large.run trace).stats.misses = 2 := by
  intro small large trace
  have built : CacheSimulator.init (fun _ => .error "") 8 4 (.ways 1) "lru" true = .ok small := rfl
  have built' : CacheSimulator.init (fun _ => .error "") 32 4 (.ways 2) "lru" true = .ok large :=
    rfl
  obtain ⟨inclusion, fewer⟩ :=
    (lru_inclusion built built' ⟨rfl, rfl⟩ ⟨rfl, rfl⟩ ⟨rfl, by decide, by decide⟩).2 trace
  exact ⟨inclusion, fewer, by decide, by decide⟩

end SystemsLab.CacheReuse
