import SystemsLab.General.StampedSlots
import Mathlib.Algebra.Order.Ring.Int
import Mathlib.Tactic.Ring

/-! The cache simulator of the second experiment (`cache_sim.py`): lines with two time
stamps of one global clock, the constructor with its checks, and the accesses. An access
changes one set; what it does to the lines of that set is `accessSet`. All divisors
are positive, where `/` and `%` on `Int` round down as in the source. -/

namespace SystemsLab.CacheSim
open StampedSlots

structure CacheLine where
  valid : Bool := false
  tag : Int := -1
  insertedAt : Nat := 0
  lastUsedAt : Nat := 0
  deriving DecidableEq

def CacheLine.used (line : CacheLine) (clock : Nat) : CacheLine := { line with lastUsedAt := clock }

structure CacheStats where
  accesses : Nat := 0
  hits : Nat := 0
  misses : Nat := 0
  reads : Nat := 0
  writes : Nat := 0
  deriving DecidableEq

inductive Policy where
  | lru
  | fifo
  deriving DecidableEq

/-- The argument `associativity: int | str`. -/
inductive Associativity where
  | ways (n : Int)
  | text (s : String)

structure Config where
  cacheSize : Int
  blockSize : Int
  lineCount : Int
  policy : Policy
  writeAllocate : Bool
  associativity : Int
  setCount : Int
  deriving DecidableEq

structure CacheSimulator extends Config where
  sets : List (List CacheLine)
  clock : Nat
  stats : CacheStats
  deriving DecidableEq

/-- `policy` as a string, or nothing when it is neither of the two. -/
def Policy.ofString : String → Option Policy
  | "lru" => some .lru
  | "fifo" => some .fifo
  | _ => none

def CacheSimulator.empty (c : Config) : CacheSimulator where
  toConfig := c
  sets := List.replicate c.setCount.toNat (List.replicate c.associativity.toNat {})
  clock := 0
  stats := {}

/-- The constructor; `int` is the conversion of a string to an integer, which may fail. -/
def CacheSimulator.init (int : String → Except String Int) (cacheSize blockSize : Int)
    (associativity : Associativity) (policy : String) (writeAllocate : Bool) :
    Except String CacheSimulator :=
  if blockSize ≤ 0 ∨ cacheSize ≤ 0 then .error "cache_size and block_size must be positive"
  else if cacheSize % blockSize ≠ 0 then .error "cache_size must be a multiple of block_size"
  else
    match Policy.ofString policy with
    | none => .error "policy must be either 'lru' or 'fifo'"
    | some policy =>
      let lineCount := cacheSize / blockSize
      let ways : Except String Int :=
        match associativity with
        | .text "full" => .ok lineCount
        | .text s => int s
        | .ways n => .ok n
      match ways with
      | .error message => .error message
      | .ok associativity =>
        if associativity ≤ 0 then .error "associativity must be positive"
        else if lineCount % associativity ≠ 0 then
          .error "line_count must be a multiple of associativity"
        else
          let setCount := lineCount / associativity
          .ok (.empty ⟨cacheSize, blockSize, lineCount, policy, writeAllocate,
            associativity, setCount⟩)

/-! ## One access -/

def Config.decode (c : Config) (addr : Int) : Int × Int :=
  let blockAddr := addr / c.blockSize
  let setIndex := blockAddr % c.setCount
  let tag := blockAddr / c.setCount
  (setIndex, tag)

def Policy.stamp : Policy → CacheLine → Nat
  | .fifo, line => line.insertedAt
  | .lru, line => line.lastUsedAt

def Config.selectVictim (c : Config) (lines : List CacheLine) : Nat :=
  match lines.findIdx? fun line => !line.valid with
  | some i => i
  | none => leastIdx c.policy.stamp lines

def Config.allocates (c : Config) (isWrite : Bool) : Bool := !isWrite || c.writeAllocate

def Config.accessSet (c : Config) (clock : Nat) (lines : List CacheLine) (tag : Int)
    (isWrite : Bool) :
    Bool × List CacheLine :=
  match lines.findIdx? fun line => line.valid && line.tag == tag with
  -- `insertedAt` stays: under FIFO a hit does not renew the line
  | some i => (true, lines.modify i fun line => line.used clock)
  | none =>
    if c.allocates isWrite then
      (false, lines.set (c.selectVictim lines) ⟨true, tag, clock, clock⟩)
    else (false, lines)

def CacheStats.count (stats : CacheStats) (isWrite hit : Bool) : CacheStats where
  accesses := stats.accesses + 1
  hits := if hit then stats.hits + 1 else stats.hits
  misses := if hit then stats.misses else stats.misses + 1
  reads := if isWrite then stats.reads else stats.reads + 1
  writes := if isWrite then stats.writes + 1 else stats.writes

def CacheSimulator.set (s : CacheSimulator) (k : Nat) : List CacheLine := s.sets.getD k []

def CacheSimulator.accessBlock (s : CacheSimulator) (addr : Int) (isWrite : Bool) :
    Bool × CacheSimulator :=
  let clock := s.clock + 1
  let d := s.decode addr
  let r := s.accessSet clock (s.set d.1.toNat) d.2 isWrite
  (r.1, { s with
    sets := s.sets.set d.1.toNat r.2
    clock := clock
    stats := s.stats.count isWrite r.1 })

/-! ## Sequences of accesses -/

abbrev Probe := Int × Bool

def CacheSimulator.accessBlocks : CacheSimulator → List Probe → List Bool × CacheSimulator
  | s, [] => ([], s)
  | s, p :: rest =>
    let r := s.accessBlock p.1 p.2
    let rs := r.2.accessBlocks rest
    (r.1 :: rs.1, rs.2)

/-- Python's `range(a, b)`. -/
def range (a b : Int) : List Int := (List.range (b - a).toNat).map fun i : Nat => a + (i : Int)

/-- The calls that `access` makes: one for each block of `[addr, addr + size)`. -/
def Config.probes (c : Config) (addr size : Int) (isWrite : Bool) : List Probe :=
  if size ≤ 0 then []
  else
    let startBlock := addr / c.blockSize
    let endBlock := (addr + size - 1) / c.blockSize
    (range startBlock (endBlock + 1)).map fun block => (block * c.blockSize, isWrite)

def CacheSimulator.access (s : CacheSimulator) (addr size : Int) (isWrite : Bool) :
    List Bool × CacheSimulator := s.accessBlocks (s.probes addr size isWrite)

inductive Op where
  | load
  | write
  deriving DecidableEq

structure Access where
  op : Op
  addr : Int
  size : Int

def CacheSimulator.run (s : CacheSimulator) (accesses : List Access) : CacheSimulator :=
  accesses.foldl (fun s a => (s.access a.addr a.size (a.op == .write)).2) s

def Config.traceProbes (c : Config) (trace : List Access) : List Probe :=
  trace.flatMap fun a => c.probes a.addr a.size (a.op == .write)

/-! ## What the constructor accepts -/

structure Config.Accepted (c : Config) : Prop where
  blockSize_pos : 0 < c.blockSize
  associativity_pos : 0 < c.associativity
  setCount_pos : 0 < c.setCount
  size_eq : c.setCount * c.associativity * c.blockSize = c.cacheSize

theorem Config.accepted_of_checks {c : Config} (block : 0 < c.blockSize) (size : 0 < c.cacheSize)
    (whole : c.cacheSize % c.blockSize = 0) (lines : c.lineCount = c.cacheSize / c.blockSize)
    (ways : 0 < c.associativity) (even : c.lineCount % c.associativity = 0)
    (sets : c.setCount = c.lineCount / c.associativity) : c.Accepted := by
  have lines_eq : c.blockSize * c.lineCount = c.cacheSize := by
    rw [lines, Int.mul_ediv_cancel' (Int.dvd_of_emod_eq_zero whole)]
  have sets_eq : c.associativity * c.setCount = c.lineCount := by
    rw [sets, Int.mul_ediv_cancel' (Int.dvd_of_emod_eq_zero even)]
  have lines_pos : 0 < c.lineCount := pos_of_mul_pos_right (lines_eq ▸ size) block.le
  refine ⟨block, ways, pos_of_mul_pos_right (sets_eq ▸ lines_pos) ways.le, ?_⟩
  rw [← lines_eq, ← sets_eq]
  ring

theorem CacheSimulator.init_checks {int : String → Except String Int} {cacheSize blockSize : Int}
    {associativity : Associativity} {policy : String} {writeAllocate : Bool} {sim : CacheSimulator}
    (built : init int cacheSize blockSize associativity policy writeAllocate = .ok sim) :
    let lineCount := cacheSize / blockSize
    ∃ policy' ways, Policy.ofString policy = some policy' ∧
      (match associativity with
        | .text "full" => .ok lineCount
        | .text s => int s
        | .ways n => .ok n) = Except.ok ways ∧
      (0 < blockSize ∧ 0 < cacheSize ∧ cacheSize % blockSize = 0) ∧
      (0 < ways ∧ lineCount % ways = 0) ∧
      sim = .empty ⟨cacheSize, blockSize, lineCount, policy', writeAllocate, ways,
        lineCount / ways⟩ := by
  unfold init at built
  split at built
  case isTrue => cases built
  case isFalse positive =>
    split at built
    case isTrue => cases built
    case isFalse whole =>
      split at built
      case h_1 => cases built
      case h_2 policy' named =>
        simp only at built
        split at built
        case h_1 => cases built
        case h_2 ways counted =>
          split at built
          case isTrue => cases built
          case isFalse some_way =>
            split at built
            case isTrue => cases built
            case isFalse even =>
              cases built
              exact ⟨policy', ways, named, counted, by omega, by omega, rfl⟩

theorem CacheSimulator.init_ok {int : String → Except String Int} {cacheSize blockSize : Int}
    {associativity : Associativity} {policy : String} {writeAllocate : Bool} {sim : CacheSimulator}
    (built : init int cacheSize blockSize associativity policy writeAllocate = .ok sim) :
    sim = .empty sim.toConfig ∧ sim.Accepted ∧ sim.blockSize = blockSize ∧
      sim.writeAllocate = writeAllocate ∧ Policy.ofString policy = some sim.policy := by
  obtain ⟨policy', ways, named, -, sizes, even, rfl⟩ := init_checks built
  refine ⟨rfl, Config.accepted_of_checks ?_ ?_ ?_ rfl ?_ ?_ rfl, rfl, rfl, named⟩
  all_goals simp only [empty]; omega

theorem Config.Accepted.decode_lt {c : Config} (accepted : c.Accepted) (addr : Int) :
    (c.decode addr).1.toNat < c.setCount.toNat := by
  have pos := accepted.setCount_pos
  have low := Int.emod_nonneg (addr / c.blockSize) pos.ne'
  have high := Int.emod_lt_of_pos (addr / c.blockSize) pos
  change (addr / c.blockSize % c.setCount).toNat < c.setCount.toNat
  omega

theorem CacheSimulator.set_empty (c : Config) {k : Nat} (hk : k < c.setCount.toNat) :
    (empty c).set k = List.replicate c.associativity.toNat {} := by
  change (List.replicate c.setCount.toNat
    (List.replicate c.associativity.toNat ({} : CacheLine))).getD k [] = _
  rw [List.getD_eq_getElem?_getD, List.getElem?_replicate_of_lt hk]
  rfl

theorem CacheSimulator.set_accessBlock_self (s : CacheSimulator) {addr : Int} {isWrite : Bool}
    (inside : (s.decode addr).1.toNat < s.sets.length) :
    (s.accessBlock addr isWrite).2.set (s.decode addr).1.toNat =
      (s.accessSet (s.clock + 1) (s.set (s.decode addr).1.toNat) (s.decode addr).2 isWrite).2 := by
  unfold set accessBlock
  rw [List.getD_eq_getElem?_getD, List.getElem?_set_self inside]
  rfl

theorem CacheSimulator.set_accessBlock_of_ne (s : CacheSimulator) {addr : Int}
    {isWrite : Bool} {k : Nat}
    (ne : k ≠ (s.decode addr).1.toNat) : (s.accessBlock addr isWrite).2.set k = s.set k := by
  unfold set accessBlock
  rw [List.getD_eq_getElem?_getD, List.getElem?_set_ne ne.symm, List.getD_eq_getElem?_getD]

/-! ## Runs -/

theorem CacheSimulator.accessBlocks_append (s : CacheSimulator) (first second : List Probe) :
    s.accessBlocks (first ++ second) =
      ((s.accessBlocks first).1 ++ ((s.accessBlocks first).2.accessBlocks second).1,
        ((s.accessBlocks first).2.accessBlocks second).2) := by
  induction first generalizing s with
  | nil => rfl
  | cons p first ih =>
    rw [List.cons_append, accessBlocks, ih]
    rfl

theorem CacheSimulator.accessBlocks_config (s : CacheSimulator) (probes : List Probe) :
    (s.accessBlocks probes).2.toConfig = s.toConfig := by
  induction probes generalizing s with
  | nil => rfl
  | cons p probes ih => exact ih (s.accessBlock p.1 p.2).2

theorem CacheSimulator.stats_accessBlocks (s : CacheSimulator) (probes : List Probe) :
    (s.accessBlocks probes).2.stats =
      { accesses := s.stats.accesses + probes.length
        hits := s.stats.hits + (s.accessBlocks probes).1.count true
        misses := s.stats.misses + (s.accessBlocks probes).1.count false
        reads := s.stats.reads + probes.countP (!·.2)
        writes := s.stats.writes + probes.countP (·.2) } := by
  induction probes generalizing s with
  | nil => rfl
  | cons p probes ih =>
    obtain ⟨addr, isWrite⟩ := p
    have first : (s.accessBlock addr isWrite).2.stats =
      s.stats.count isWrite (s.accessBlock addr isWrite).1 := rfl
    rw [accessBlocks]
    rw [ih, first]
    cases isWrite <;> cases (s.accessBlock addr _).1 <;>
      simp [CacheStats.count, Nat.add_assoc, Nat.add_comm 1]

theorem CacheSimulator.run_eq (s : CacheSimulator) (trace : List Access) :
    s.run trace = (s.accessBlocks (s.traceProbes trace)).2 := by
  induction trace generalizing s with
  | nil => rfl
  | cons a trace ih =>
    have config : (s.access a.addr a.size (a.op == .write)).2.toConfig = s.toConfig :=
      accessBlocks_config s _
    have step : s.run (a :: trace) = (s.access a.addr a.size (a.op == .write)).2.run trace := rfl
    rw [step, ih, config, Config.traceProbes, Config.traceProbes, List.flatMap_cons,
      accessBlocks_append]
    rfl

/-! ## What one access does to a set -/

/-- The four things that can happen: a hit, a write miss that leaves the set alone, the
first invalid line filled, the line with the least stamp replaced. -/
inductive SetStep (c : Config) (clock : Nat) (lines : List CacheLine) (tag : Int) (isWrite : Bool) :
    Bool × List CacheLine → Prop where
  | hit (i : Nat) (inside : i < lines.length) (valid : lines[i].valid = true)
      (same : lines[i].tag = tag) :
      SetStep c clock lines tag isWrite (true, lines.set i (lines[i].used clock))
  | skip (absent : ∀ line ∈ lines, line.valid = true → line.tag ≠ tag)
      (no_line : c.allocates isWrite = false) : SetStep c clock lines tag isWrite (false, lines)
  | fill (absent : ∀ line ∈ lines, line.valid = true → line.tag ≠ tag)
      (allocate : c.allocates isWrite = true) (i : Nat) (inside : i < lines.length)
      (invalid : lines[i].valid = false) (first : ∀ j (h : j < i), lines[j].valid = true) :
      SetStep c clock lines tag isWrite (false, lines.set i ⟨true, tag, clock, clock⟩)
  | evict (absent : ∀ line ∈ lines, line.valid = true → line.tag ≠ tag)
      (allocate : c.allocates isWrite = true) (i : Nat) (inside : i < lines.length)
      (full : ∀ line ∈ lines, line.valid = true)
      (least : ∀ line ∈ lines, c.policy.stamp lines[i] ≤ c.policy.stamp line) :
      SetStep c clock lines tag isWrite (false, lines.set i ⟨true, tag, clock, clock⟩)

theorem Config.accessSet_step (c : Config) (clock : Nat) {lines : List CacheLine} (tag : Int)
    (isWrite : Bool) (ne : lines ≠ []) :
    SetStep c clock lines tag isWrite (c.accessSet clock lines tag isWrite) := by
  unfold accessSet
  split
  case h_1 i found =>
    obtain ⟨inside, same, -⟩ := List.findIdx?_eq_some_iff_getElem.mp found
    rw [Bool.and_eq_true, beq_iff_eq] at same
    rw [List.modify_eq_set_get _ inside]
    exact .hit i inside same.1 same.2
  case h_2 missing =>
    have absent : ∀ line ∈ lines, line.valid = true → line.tag ≠ tag := by
      intro line mem valid same
      have not_found := List.findIdx?_eq_none_iff.mp missing line mem
      rw [valid, same, beq_self_eq_true, Bool.and_self] at not_found
      cases not_found
    split
    case isTrue allocate =>
      unfold selectVictim
      split
      case h_1 i found =>
        obtain ⟨inside, invalid, before⟩ := List.findIdx?_eq_some_iff_getElem.mp found
        refine .fill absent allocate i inside (by simpa using invalid) fun j hj => ?_
        simpa using before j hj
      case h_2 all_valid =>
        have full : ∀ line ∈ lines, line.valid = true := by
          intro line mem
          simpa using List.findIdx?_eq_none_iff.mp all_valid line mem
        have inside := leastIdx_lt c.policy.stamp ne
        exact .evict absent allocate _ inside full (leastIdx_le c.policy.stamp inside)
    case isFalse no_line => exact .skip absent (Bool.eq_false_iff.mpr no_line)

end SystemsLab.CacheSim
