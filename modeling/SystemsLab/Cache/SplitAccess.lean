import SystemsLab.Cache.ReuseDistance

/-! An access of several bytes, in one call or cut in two. The blocks of the two calls are those
of the one, but for a block on both sides of the cut, which is accessed once more. A
second access to a block just loaded changes its time of use alone; the order of its
set is the same as before, and with it every later answer. -/

namespace SystemsLab.CacheSplit
open RecencyList CacheSim CacheRefinement CacheReuse

/-! ## The blocks of an access -/

theorem mem_range {a b x : Int} : x ∈ range a b ↔ a ≤ x ∧ x < b := by
  rw [range, List.mem_map]
  constructor
  · rintro ⟨i, mem, rfl⟩
    rw [List.mem_range] at mem
    omega
  · rintro ⟨low, high⟩
    exact ⟨(x - a).toNat, List.mem_range.mpr (by omega), by omega⟩

theorem range_append {a b d : Int} (ab : a ≤ b) (bd : b ≤ d) :
    range a d = range a b ++ range b d := by
  have length : (d - a).toNat = (b - a).toNat + (d - b).toNat := by omega
  rw [range, range, range, length, List.range_add, List.map_append, List.map_map]
  refine congrArg _ (List.map_congr_left fun i _ => ?_)
  change a + (((b - a).toNat + i : Nat) : Int) = b + (i : Int)
  omega

theorem range_singleton (a : Int) : range a (a + 1) = [a] := by
  rw [range, show (a + 1 - a).toNat = 1 by omega]
  simp

theorem range_cons {a b : Int} (lt : a < b) : range a b = a :: range (a + 1) b := by
  rw [range_append (b := a + 1) (by omega) (by omega), range_singleton, List.singleton_append]

theorem range_snoc {a b : Int} (le : a ≤ b) : range a (b + 1) = range a b ++ [b] := by
  rw [range_append le (by omega), range_singleton]

theorem range_pairwise (a b : Int) : (range a b).Pairwise (· < ·) := by
  rw [range, List.pairwise_map]
  exact List.pairwise_lt_range.imp fun lt => by omega

variable {c : Config} {isWrite : Bool}

def probeAt (c : Config) (isWrite : Bool) (b : Int) : Probe := (b * c.blockSize, isWrite)

theorem probes_of_pos {addr size : Int} (pos : 0 < size) :
    c.probes addr size isWrite =
      (range (block c addr) (block c (addr + size - 1) + 1)).map (probeAt c isWrite) := by
  rw [Config.probes, if_neg (by omega)]
  rfl

theorem block_probeAt (accepted : c.Accepted) (isWrite : Bool) (b : Int) :
    block c (probeAt c isWrite b).1 = b :=
  Int.mul_ediv_cancel b accepted.blockSize_pos.ne'

theorem block_mono (accepted : c.Accepted) {x y : Int} (le : x ≤ y) : block c x ≤ block c y :=
  Int.ediv_le_ediv accepted.blockSize_pos le

theorem block_succ (accepted : c.Accepted) (x : Int) : block c (x + 1) ≤ block c x + 1 := by
  have pos := accepted.blockSize_pos
  have next : x + 1 ≤ x + c.blockSize := by omega
  have step := block_mono accepted next
  rwa [block, block, Int.add_ediv_of_dvd_right (Int.dvd_refl _), Int.ediv_self pos.ne'] at step

theorem blocks_eq (accepted : c.Accepted) {addr size : Int} (pos : 0 < size) :
    (c.probes addr size isWrite).map (fun p => block c p.1) =
      range (block c addr) (block c (addr + size - 1) + 1) := by
  rw [probes_of_pos pos, List.map_map]
  refine (List.map_congr_left fun b _ => ?_).trans (List.map_id _)
  exact block_probeAt accepted isWrite b

theorem probes_blocks (accepted : c.Accepted) (addr size : Int) (isWrite : Bool) :
    let blocks := (c.probes addr size isWrite).map fun p => block c p.1
    blocks.Pairwise (· < ·) ∧
      ∀ b, b ∈ blocks ↔ ∃ byte, addr ≤ byte ∧ byte < addr + size ∧ block c byte = b := by
  intro blocks
  rcases lt_or_ge 0 size with pos | none
  · have eq : blocks = _ := blocks_eq accepted pos
    rw [eq]
    refine ⟨range_pairwise _ _, fun b => ?_⟩
    rw [mem_range]
    constructor
    · rintro ⟨low, high⟩
      have size_pos := accepted.blockSize_pos
      have reached : b * c.blockSize ≤ addr + size - 1 :=
        (Int.le_ediv_iff_mul_le size_pos).mp (by rw [block] at high; omega)
      rcases lt_or_ge (b * c.blockSize) addr with inner | whole
      · have start : b ≤ block c addr := (Int.le_ediv_iff_mul_le size_pos).mpr inner.le
        exact ⟨addr, le_refl addr, by omega, Int.le_antisymm low start⟩
      · exact ⟨b * c.blockSize, whole, by omega, block_probeAt accepted isWrite b⟩
    · rintro ⟨byte, low, high, rfl⟩
      have first := block_mono accepted low
      have last := block_mono accepted (show byte ≤ addr + size - 1 by omega)
      omega
  · have empty : blocks = [] := by simp only [blocks, Config.probes, if_pos none, List.map_nil]
    rw [empty]
    refine ⟨List.Pairwise.nil, fun b => ⟨fun mem => absurd mem List.not_mem_nil, ?_⟩⟩
    rintro ⟨byte, low, high, -⟩
    omega

/-- The calls of the two parts of an access: those of the whole, or one more for the block on both
sides of the cut. -/
theorem probes_split (accepted : c.Accepted) {addr m n : Int} (hm : 1 ≤ m) (hn : 1 ≤ n)
    (isWrite : Bool) :
    (block c (addr + m - 1) ≠ block c (addr + m) ∧ c.probes addr (m + n) isWrite =
      c.probes addr m isWrite ++ c.probes (addr + m) n isWrite) ∨
    (block c (addr + m - 1) = block c (addr + m) ∧ ∃ before p after,
      p.2 = isWrite ∧ c.probes addr (m + n) isWrite = before ++ p :: after ∧
      c.probes addr m isWrite ++ c.probes (addr + m) n isWrite = before ++ p :: p :: after) := by
  have next := block_succ accepted (addr + m - 1)
  have step := block_mono accepted (show addr + m - 1 ≤ addr + m by omega)
  have low := block_mono accepted (show addr ≤ addr + m - 1 by omega)
  have high := block_mono accepted (show addr + m ≤ addr + m + n - 1 by omega)
  rw [show addr + m - 1 + 1 = addr + m by omega] at next
  rw [probes_of_pos (show 0 < m + n by omega), probes_of_pos (show 0 < m by omega),
    probes_of_pos (show 0 < n by omega), show addr + (m + n) - 1 = addr + m + n - 1 by omega,
    ← List.map_append]
  rcases step.eq_or_lt with same | gap
  · have second : range (block c (addr + m)) (block c (addr + m + n - 1) + 1) =
        block c (addr + m) :: range (block c (addr + m) + 1) (block c (addr + m + n - 1) + 1) :=
      range_cons (by omega)
    have whole : range (block c addr) (block c (addr + m + n - 1) + 1) =
        range (block c addr) (block c (addr + m)) ++ block c (addr + m) ::
          range (block c (addr + m) + 1) (block c (addr + m + n - 1) + 1) := by
      rw [range_append (same ▸ low) (by omega), second]
    refine Or.inr ⟨same, (range (block c addr) (block c (addr + m))).map (probeAt c isWrite),
      probeAt c isWrite (block c (addr + m)),
      (range (block c (addr + m) + 1) (block c (addr + m + n - 1) + 1)).map (probeAt c isWrite),
      rfl, ?_, ?_⟩
    · rw [whole, List.map_append, List.map_cons]
    · rw [same, range_snoc (same ▸ low), second, List.append_assoc, List.singleton_append,
        List.map_append, List.map_cons, List.map_cons]
  · refine Or.inl ⟨gap.ne, ?_⟩
    have succ : block c (addr + m) = block c (addr + m - 1) + 1 := by omega
    rw [← succ, ← range_append (by omega) (by omega)]

/-! ## A second access to the same block -/

theorem listStep_again (l : List Int) (tag : Int) (allocates : c.allocates isWrite = true) :
    listStep c (listStep c l tag isWrite).2 tag isWrite = (true, (listStep c l tag isWrite).2) := by
  have front (rest : List Int) (lru : c.policy = .lru) :
      listStep c (tag :: rest) tag isWrite = (true, tag :: rest) := by
    rw [listStep, if_pos List.mem_cons_self, lru]
    simp only [moveToFront, List.erase_cons_head]
  have stay {l : List Int} (mem : tag ∈ l) (fifo : c.policy = .fifo) :
      listStep c l tag isWrite = (true, l) := by
    rw [listStep, if_pos mem, fifo]
  cases policy : c.policy with
  | lru =>
    by_cases mem : tag ∈ l
    · have hit : listStep c l tag isWrite = (true, moveToFront tag l) := by
        rw [listStep, if_pos mem, policy]
      rw [hit]
      exact front _ policy
    · rw [listStep.eq_def c l, if_neg mem, if_pos allocates]
      exact front _ policy
  | fifo =>
    by_cases mem : tag ∈ l
    · rw [stay mem policy]
      exact stay mem policy
    · rw [listStep.eq_def c l, if_neg mem, if_pos allocates]
      exact stay List.mem_cons_self policy

theorem listsBlock_again (cache : TagLists) (addr : Int) (allocates : c.allocates isWrite = true) :
    listsBlock c (listsBlock c cache addr isWrite).2 addr isWrite =
      (true, (listsBlock c cache addr isWrite).2) := by
  have again := listStep_again (cache (c.decode addr).1.toNat) (c.decode addr).2 allocates
  rw [listsBlock, listsBlock_self, again]
  refine congrArg _ (funext fun k => ?_)
  by_cases touched : k = (c.decode addr).1.toNat
  · subst touched
    rw [Function.update_self, listsBlock_self]
  · rw [Function.update_of_ne touched]

structure SameOrder (s t : CacheSimulator) : Prop where
  config : s.toConfig = t.toConfig
  lists : ∃ cache, Refines s cache ∧ Refines t cache

variable {s t : CacheSimulator}

theorem SameOrder.run (h : SameOrder s t) (probes : List Probe) :
    (s.accessBlocks probes).1 = (t.accessBlocks probes).1 ∧
      SameOrder (s.accessBlocks probes).2 (t.accessBlocks probes).2 := by
  obtain ⟨config, cache, first, second⟩ := h
  obtain ⟨answers, after⟩ := first.accessBlocks probes
  obtain ⟨answers', after'⟩ := second.accessBlocks probes
  rw [← config] at answers' after'
  refine ⟨answers.trans answers'.symm, ?_, _, after, after'⟩
  rw [s.accessBlocks_config, t.accessBlocks_config, config]

theorem again {cache : TagLists} (h : Refines s cache) (p : Probe)
    (allocates : s.allocates p.2 = true) :
    let u := (s.accessBlock p.1 p.2).2
    (u.accessBlock p.1 p.2).1 = true ∧ SameOrder (u.accessBlock p.1 p.2).2 u := by
  intro u
  obtain ⟨-, first⟩ := h.accessBlock p.1 p.2
  obtain ⟨answer, second⟩ := first.accessBlock p.1 p.2
  have lists := listsBlock_again cache p.1 allocates
  have config : u.toConfig = s.toConfig := rfl
  rw [config, lists] at answer second
  exact ⟨answer, rfl, _, second, first⟩

theorem accessBlocks_again {cache : TagLists} (h : Refines s cache) (before : List Probe)
    (p : Probe) (after : List Probe) (allocates : s.allocates p.2 = true) :
    let whole := s.accessBlocks (before ++ p :: after)
    let parts := s.accessBlocks (before ++ p :: p :: after)
    parts.1.count false = whole.1.count false ∧ parts.1.count true = whole.1.count true + 1 ∧
      SameOrder parts.2 whole.2 := by
  intro whole parts
  have reached := (h.accessBlocks before).2
  have config := s.accessBlocks_config before
  obtain ⟨hit, same⟩ := again reached p (by rwa [config])
  obtain ⟨answers, last⟩ := same.run after
  simp only [whole, parts, CacheSimulator.accessBlocks_append, CacheSimulator.accessBlocks,
    List.count_append, List.count_cons, hit, answers]
  refine ⟨?_, ?_, last⟩
  · simp
  · simp only [beq_self_eq_true, if_true]
    omega

theorem access_access (s : CacheSimulator) (addr size addr' size' : Int) (isWrite : Bool) :
    ((s.access addr size isWrite).2.access addr' size' isWrite).2 =
      (s.accessBlocks (s.probes addr size isWrite ++ s.probes addr' size' isWrite)).2 := by
  have config : (s.access addr size isWrite).2.toConfig = s.toConfig := s.accessBlocks_config _
  rw [CacheSimulator.access.eq_def _ addr', config, s.accessBlocks_append]
  rfl

theorem access_cut {cache : TagLists} (h : Refines s cache) {addr m n : Int} (hm : 1 ≤ m)
    (hn : 1 ≤ n) {isWrite : Bool} (allocates : s.allocates isWrite = true) :
    let whole := (s.access addr (m + n) isWrite).2
    let parts := ((s.access addr m isWrite).2.access (addr + m) n isWrite).2
    let cut := if block s.toConfig (addr + m - 1) = block s.toConfig (addr + m) then 1 else 0
    parts.stats.misses = whole.stats.misses ∧
      parts.stats.accesses = whole.stats.accesses + cut ∧
      parts.stats.hits = whole.stats.hits + cut ∧
      ∀ later, (parts.accessBlocks later).1 = (whole.accessBlocks later).1 := by
  intro whole parts cut
  have parts_eq : parts = _ := access_access s addr m (addr + m) n isWrite
  have whole_eq : whole = (s.accessBlocks (s.probes addr (m + n) isWrite)).2 := rfl
  rw [parts_eq, whole_eq]
  rcases probes_split h.accepted hm hn isWrite with
    ⟨apart, eq⟩ | ⟨together, before, p, after, rfl, one, two⟩
  · have zero : cut = 0 := if_neg apart
    rw [eq, zero, Nat.add_zero, Nat.add_zero]
    exact ⟨rfl, rfl, rfl, fun _ => rfl⟩
  · have unit : cut = 1 := if_pos together
    obtain ⟨misses, hits, same⟩ := accessBlocks_again h before p after allocates
    rw [one, two, unit, s.stats_accessBlocks, s.stats_accessBlocks]
    refine ⟨congrArg (s.stats.misses + ·) misses, ?_, congrArg (s.stats.hits + ·) hits,
      fun later => (same.run later).1⟩
    simp only [List.length_append, List.length_cons]
    omega

theorem isWrite_of_mem_probes {addr size : Int} {isWrite : Bool} {p : Probe}
    (mem : p ∈ c.probes addr size isWrite) : p.2 = isWrite := by
  rcases lt_or_ge 0 size with pos | none
  · rw [probes_of_pos pos] at mem
    obtain ⟨b, -, rfl⟩ := List.mem_map.mp mem
    rfl
  · rw [Config.probes, if_pos none] at mem
    cases mem

/-- An access in one call or in two: as many misses, one hit more if the cut lies inside a block,
and the same answers ever after. One call accesses each block that it meets once, in ascending
order. -/
theorem access_split {int : String → Except String Int} {cacheSize blockSize : Int}
    {associativity : Associativity} {policy : String} {writeAllocate : Bool} {sim : CacheSimulator}
    (built : CacheSimulator.init int cacheSize blockSize associativity policy writeAllocate =
      .ok sim) (earlier : List Probe) :
    let s := (sim.accessBlocks earlier).2
    (∀ addr m n isWrite, 1 ≤ m → 1 ≤ n → s.allocates isWrite = true →
      let whole := (s.access addr (m + n) isWrite).2
      let parts := ((s.access addr m isWrite).2.access (addr + m) n isWrite).2
      let cut := if block s.toConfig (addr + m - 1) = block s.toConfig (addr + m) then 1 else 0
      parts.stats.misses = whole.stats.misses ∧
        parts.stats.accesses = whole.stats.accesses + cut ∧
        parts.stats.hits = whole.stats.hits + cut ∧
        ∀ later, (parts.accessBlocks later).1 = (whole.accessBlocks later).1) ∧
    ∀ addr size isWrite,
      let probes := s.probes addr size isWrite
      let blocks := probes.map fun p => block s.toConfig p.1
      s.access addr size isWrite = s.accessBlocks probes ∧ (∀ p ∈ probes, p.2 = isWrite) ∧
        blocks.Pairwise (· < ·) ∧
        ∀ b, b ∈ blocks ↔ ∃ byte, addr ≤ byte ∧ byte < addr + size ∧ block s.toConfig byte = b := by
  obtain ⟨empty, accepted, -⟩ := CacheSimulator.init_ok built
  have start : Refines sim fun _ => [] := empty ▸ refines_empty accepted
  intro s
  have reached : Refines s _ := (start.accessBlocks earlier).2
  constructor
  · intro addr m n isWrite hm hn allocates
    exact access_cut reached hm hn allocates
  · intro addr size isWrite
    exact ⟨rfl, fun p mem => isWrite_of_mem_probes mem,
      probes_blocks reached.accepted addr size isWrite⟩

theorem access_split_self_test :
    let sim : CacheSimulator := .empty ⟨16, 4, 4, .lru, true, 1, 4⟩
    (((sim.accessBlocks [(0, false)]).2.access 2 1 false).2.access (2 + 1) 3 false).2.stats.misses =
      ((sim.accessBlocks [(0, false)]).2.access 2 (1 + 3) false).2.stats.misses := by
  intro sim
  have built : CacheSimulator.init (fun _ => .error "") 16 4 (.ways 1) "lru" true = .ok sim := rfl
  exact ((access_split built [(0, false)]).1 2 1 3 false (by decide) (by decide) rfl).1

end SystemsLab.CacheSplit
