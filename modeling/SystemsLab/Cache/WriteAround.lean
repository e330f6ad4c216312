import SystemsLab.Cache.ReuseDistance

/-! LRU without write allocation. A write may use a block in the larger of two caches that the
smaller one does not hold, so the smaller one is no longer a window of the larger one. It
still keeps a part of it in the same order, and as long as a set has room it keeps all of it. -/

namespace SystemsLab.CacheWriteAround
open RecencyList CacheSim CacheRefinement CacheReuse

structure LruWriteAround (c : Config) : Prop where
  accepted : c.Accepted
  lru : c.policy = .lru
  around : c.writeAllocate = false

/-- The same blocks and sets, at least as many ways. -/
structure MoreWays (small large : Config) : Prop where
  blockSize : small.blockSize = large.blockSize
  sets : small.setCount = large.setCount
  ways : small.associativity ≤ large.associativity

variable {c c' : Config} {l l' : List Int} {tag addr : Int} {isWrite : Bool}
  {s t : CacheSimulator} {cache cache' : TagLists}

theorem LruWriteAround.listStep_eq (h : LruWriteAround c) (l : List Int) (tag : Int)
    (isWrite : Bool) :
    listStep c l tag isWrite =
      if tag ∈ l then (true, moveToFront tag l)
      else (false, if isWrite then l else pushFront c.associativity.toNat tag l) := by
  unfold listStep Config.allocates
  rw [h.lru, h.around]
  cases isWrite <;> rfl

theorem MoreWays.step (h : MoreWays c c') (around : LruWriteAround c) (around' : LruWriteAround c')
    (below : Below c.associativity.toNat l l') (tag : Int) (isWrite : Bool) :
    ((listStep c l tag isWrite).1 = true → (listStep c' l' tag isWrite).1 = true) ∧
      Below c.associativity.toNat (listStep c l tag isWrite).2 (listStep c' l' tag isWrite).2 := by
  rw [around.listStep_eq, around'.listStep_eq]
  by_cases inside : tag ∈ l
  · rw [if_pos inside, if_pos (below.part.subset inside)]
    exact ⟨fun _ => rfl, below.move inside⟩
  · rw [if_neg inside]
    refine ⟨fun hit => absurd hit Bool.false_ne_true, ?_⟩
    by_cases inside' : tag ∈ l'
    · rw [if_pos inside']
      cases isWrite with
      | true => exact below.move_large inside inside'
      | false => exact below.push_move inside inside'
    · rw [if_neg inside']
      cases isWrite with
      | true => exact below
      | false =>
        have ways := h.ways
        exact below.push (by omega)

theorem MoreWays.decode (h : MoreWays c c') (addr : Int) : c.decode addr = c'.decode addr := by
  unfold Config.decode
  rw [h.blockSize, h.sets]

structure Inside (s t : CacheSimulator) : Prop where
  more : MoreWays s.toConfig t.toConfig
  around : LruWriteAround s.toConfig
  around' : LruWriteAround t.toConfig
  lists : ∃ cache cache', Refines s cache ∧ Refines t cache' ∧
    ∀ k, Below s.associativity.toNat (cache k) (cache' k)

theorem Inside.accessBlock (h : Inside s t) (addr : Int) (isWrite : Bool) :
    ((s.accessBlock addr isWrite).1 = true → (t.accessBlock addr isWrite).1 = true) ∧
      Inside (s.accessBlock addr isWrite).2 (t.accessBlock addr isWrite).2 := by
  obtain ⟨more, around, around', cache, cache', refines, refines', below⟩ := h
  obtain ⟨answer, after⟩ := refines.accessBlock addr isWrite
  obtain ⟨answer', after'⟩ := refines'.accessBlock addr isWrite
  have step := more.step around around' (below (s.decode addr).1.toNat) (s.decode addr).2 isWrite
  have decode := more.decode addr
  refine ⟨?_, more, around, around', _, _, after, after', fun k => ?_⟩
  · rw [answer, answer', listsBlock, listsBlock, ← decode]
    exact step.1
  · by_cases touched : k = (s.decode addr).1.toNat
    · subst touched
      rw [listsBlock_self]
      rw [decode, listsBlock_self, ← decode]
      exact step.2
    · rw [listsBlock_of_ne touched, listsBlock_of_ne (decode ▸ touched)]
      exact below k

theorem Inside.accessBlocks (h : Inside s t) (probes : List Probe) :
    List.Forall₂ (fun a b => a = true → b = true) (s.accessBlocks probes).1
        (t.accessBlocks probes).1 ∧
      Inside (s.accessBlocks probes).2 (t.accessBlocks probes).2 := by
  induction probes generalizing s t with
  | nil => exact ⟨.nil, h⟩
  | cons p probes ih =>
    obtain ⟨hit, next⟩ := h.accessBlock p.1 p.2
    obtain ⟨hits, last⟩ := ih next
    exact ⟨.cons hit hits, last⟩

theorem Inside.resident (h : Inside s t) : residentBlocks s ⊆ residentBlocks t := by
  obtain ⟨more, -, -, cache, cache', refines, refines', below⟩ := h
  rintro b ⟨k, hk, tag, mem, rfl⟩
  have hk' : k < t.setCount.toNat := more.sets ▸ hk
  refine ⟨k, hk', tag, ?_, ?_⟩
  · rw [(refines.each k hk).perm.mem_iff] at mem
    rw [(refines'.each k hk').perm.mem_iff]
    exact (below k).part.subset mem
  · rw [blockAt, blockAt, more.sets]

theorem Inside.empty (more : MoreWays c c') (around : LruWriteAround c)
    (around' : LruWriteAround c') : Inside (.empty c) (.empty c') :=
  ⟨more, around, around', _, _, refines_empty around.accepted, refines_empty around'.accepted,
    fun _ => ⟨List.Sublist.refl [], fun _ => rfl⟩⟩

/-- Of two LRU caches that write around, with the same blocks and sets, the one with more ways
holds after every sequence of accesses what the other one holds, hits whenever it hits,
and misses at most as often. -/
theorem lru_inclusion_write_around {int int' : String → Except String Int}
    {cacheSize cacheSize' blockSize blockSize' : Int}
    {associativity associativity' : Associativity} {policy policy' : String}
    {writeAllocate writeAllocate' : Bool} {small large : CacheSimulator}
    (built : CacheSimulator.init int cacheSize blockSize associativity policy writeAllocate =
      .ok small)
    (built' : CacheSimulator.init int' cacheSize' blockSize' associativity' policy' writeAllocate' =
      .ok large)
    (lru : small.policy = .lru ∧ large.policy = .lru)
    (around : small.writeAllocate = false ∧ large.writeAllocate = false)
    (more : MoreWays small.toConfig large.toConfig) :
    (∀ probes : List Probe,
      residentBlocks (small.accessBlocks probes).2 ⊆ residentBlocks (large.accessBlocks probes).2 ∧
      List.Forall₂ (fun a b => a = true → b = true) (small.accessBlocks probes).1
        (large.accessBlocks probes).1 ∧
      (large.accessBlocks probes).2.stats.misses ≤ (small.accessBlocks probes).2.stats.misses) ∧
    ∀ trace : List Access, residentBlocks (small.run trace) ⊆ residentBlocks (large.run trace) ∧
      (large.run trace).stats.misses ≤ (small.run trace).stats.misses := by
  obtain ⟨empty, accepted, -⟩ := CacheSimulator.init_ok built
  obtain ⟨empty', accepted', -⟩ := CacheSimulator.init_ok built'
  have start : Inside small large := by
    rw [empty, empty']
    exact .empty more ⟨accepted, lru.1, around.1⟩ ⟨accepted', lru.2, around.2⟩
  have zero : small.stats.misses = large.stats.misses := by rw [empty, empty']; rfl
  refine inclusion_runs more.blockSize zero fun probes => ?_
  obtain ⟨answers, last⟩ := start.accessBlocks probes
  exact ⟨last.resident, answers⟩

/-- One way and two ways of the same set: the write of block 4 hits in the larger cache alone. -/
theorem lru_inclusion_write_around_two_ways :
    let small : CacheSimulator := .empty ⟨4, 4, 1, .lru, false, 1, 1⟩
    let large : CacheSimulator := .empty ⟨8, 4, 2, .lru, false, 2, 1⟩
    let probes : List Probe := [(4, false), (0, false), (4, true), (8, false)]
    residentBlocks (small.accessBlocks probes).2 ⊆ residentBlocks (large.accessBlocks probes).2 ∧
      (small.accessBlocks probes).1 = [false, false, false, false] ∧
      (large.accessBlocks probes).1 = [false, false, true, false] := by
  intro small large probes
  have built : CacheSimulator.init (fun _ => .error "") 4 4 (.ways 1) "lru" false = .ok small := rfl
  have built' : CacheSimulator.init (fun _ => .error "") 8 4 (.ways 2) "lru" false = .ok large :=
    rfl
  have included := (lru_inclusion_write_around built built' ⟨rfl, rfl⟩ ⟨rfl, rfl⟩
    ⟨rfl, rfl, by decide⟩).1 probes
  exact ⟨included.1, by decide, by decide⟩

end SystemsLab.CacheWriteAround
