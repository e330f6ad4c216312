import SystemsLab.Sm4.Simd
import SystemsLab.Sm4.Bitslice
import SystemsLab.Sm4.PortableCbc
import SystemsLab.General.LockstepChaining

/-! The three multi-buffer CBC engines: eight AVX2 lanes, the lanes of the bitsliced
engine, and one thread per stream. The first two run in lockstep over all
streams; each of the three gives every stream the bytes of a CBC call of its own. -/

namespace SystemsLab.Sm4Multibuffer
open ByteWord Textbook Sm4Portable Sm4PortableCbc Sm4Simd BitsliceBackend Sm4Bitslice
  Buffer CipherChaining
  CountedLoop

/-- The chaining value of stream `s`: `base_iv` with its last byte XORed with `s`. -/
def streamIv (baseIv : Block) (s : Nat) : Block :=
  baseIv.setIfInBounds 15 (baseIv[15]! ^^^ BitVec.ofNat 8 s)

/-! ## The engines -/

def simdCbcEncryptMultibuffer (mem : Memory Byte) (plain cipher lenPerStream : Nat) (rk : RoundKeys)
    (baseIv : Block) : Memory Byte :=
  let st : Streams Byte 16 8 := ⟨mem, Vector.ofFn fun s => streamIv baseIv s,
    Vector.ofFn fun s => s.val * lenPerStream⟩
  let numBlocks := lenPerStream / 16
  let st := Nat.fold numBlocks (fun _ _ st =>
    let batchIn : Vector Byte 128 := Vector.ofFn fun i : Fin 128 =>
      st.mem (plain + st.pos[i.val / 16] + i.val % 16) ^^^ st.ivs[i.val / 16][i.val % 16]
    let batchOut := sm4SimdEncryptX8 batchIn rk
    Nat.fold 8 (fun s hs st =>
      let block := blockOf batchOut ⟨s, hs⟩
      ⟨write st.mem (cipher + st.pos[s]) block, st.ivs.set s block,
        st.pos.set s (st.pos[s] + 16)⟩) st) st
  st.mem

def bitsliceMultibufferCbcEncrypt (B : Backend) (lanes : Nat) (terms : SboxTerms)
    (mem : Memory Byte)
    (plain cipher lenPerStream : Nat) (rk : RoundKeys) (baseIv : Block) : Memory Byte :=
  let st : Streams Byte 16 lanes := ⟨mem, Vector.ofFn fun lane => streamIv baseIv lane,
    Vector.ofFn fun lane => lane.val * lenPerStream⟩
  let blocks := lenPerStream / 16
  let st := Nat.fold blocks (fun _ _ st =>
    let batchIn : Vector Block lanes := Vector.ofFn fun lane => Vector.ofFn fun j : Fin 16 =>
      st.mem (plain + st.pos[lane] + j.val) ^^^ st.ivs[lane][j]
    let batchOut := sm4EncryptBitsliceX32 B terms batchIn rk
    Nat.fold lanes (fun lane hl st =>
      ⟨write st.mem (cipher + st.pos[lane]) batchOut[lane], st.ivs.set lane batchOut[lane],
        st.pos.set lane (st.pos[lane] + 16)⟩) st) st
  st.mem

def sm4Checksum (mem : Memory Byte) (buf len : Nat) : Word :=
  Nat.fold len (fun i _ h => (h ^^^ (mem (buf + i)).setWidth 32) * 16777619) 2166136261

structure WorkerArg where
  id : Int
  ks : RoundKeys
  plain : Nat
  cipher : Nat
  checksum : Word

def workerBaseIv : Block := #v[0x00, 0x01, 0x02, 0x03, 0x04, 0x05, 0x06, 0x07,
  0x08, 0x09, 0x0a, 0x0b, 0x0c, 0x0d, 0x0e, 0x0f]

/-- `encrypt_worker` built with `DATA_LEN = dataLen` and `LOOP = loop`. -/
def encryptWorker (dataLen loop : Nat) (mem : Memory Byte) (arg : WorkerArg) :
    Memory Byte × WorkerArg :=
  let baseIv := workerBaseIv.setIfInBounds 15 (workerBaseIv[15]! ^^^ BitVec.ofInt 8 arg.id)
  let mem := Nat.fold loop (fun _ _ mem =>
    (sm4CbcEncrypt mem arg.plain arg.cipher dataLen arg.ks baseIv).mem) mem
  (mem, { arg with checksum := sm4Checksum mem arg.cipher dataLen })

def workerArg (ks : RoundKeys) (plain cipher dataLen id : Nat) : WorkerArg :=
  ⟨id, ks, plain + id * dataLen, cipher + id * dataLen, 0⟩

def runWorkers (dataLen loop : Nat) (ks : RoundKeys) (plain cipher : Nat) (order : List Nat)
    (mem : Memory Byte) : Memory Byte :=
  order.foldl (fun mem id =>
    (encryptWorker dataLen loop mem (workerArg ks plain cipher dataLen id)).1) mem

/-! ## The engines as lockstep runs -/

def flatten (batch : Vector Block 8) : Vector Byte 128 :=
  Vector.ofFn fun i : Fin 128 => batch[i.val / 16][i.val % 16]

theorem blockOf_flatten (batch : Vector Block 8) (j : Fin 8) :
    blockOf (flatten batch) j = batch.get j := by
  apply Vector.ext
  intro i hi
  have block : (16 * j.val + i) / 16 = j.val := by omega
  have byte : (16 * j.val + i) % 16 = i := by omega
  simp only [blockOf, flatten, Vector.getElem_ofFn, block, byte]
  rfl

def simdAll (rk : RoundKeys) (batch : Vector Block 8) : Vector Block 8 :=
  Vector.ofFn fun s => blockOf (sm4SimdEncryptX8 (flatten batch) rk) s

theorem simdAll_lane (rk : RoundKeys) (batch : Vector Block 8) (s : Nat) (hs : s < 8) :
    (simdAll rk batch)[s] = sm4EncryptBlock batch[s] rk := by
  rw [simdAll, Vector.getElem_ofFn, sm4SimdEncryptX8_block, blockOf_flatten]
  rfl

theorem getElem_gather {size : Nat} (plain : Nat) (st : Streams Byte 16 size) (s j : Nat)
    (hs : s < size) (hj : j < 16) :
    (gather sm4XorBlock plain st)[s][j] = st.mem (plain + st.pos[s] + j) ^^^ st.ivs[s][j] := by
  simp [gather_stream, sm4XorBlock]

theorem simdCbcEncryptMultibuffer_eq (mem : Memory Byte) (plain cipher len : Nat) (rk : RoundKeys)
    (baseIv : Block) :
    simdCbcEncryptMultibuffer mem plain cipher len rk baseIv =
      (lockstepLoop sm4XorBlock (simdAll rk) plain cipher (len / 16)
        ⟨mem, Vector.ofFn fun s => streamIv baseIv s, Vector.ofFn fun s => s.val * len⟩).mem := by
  have batch (st : Streams Byte 16 8) : (Vector.ofFn fun i : Fin 128 =>
      st.mem (plain + st.pos[i.val / 16] + i.val % 16) ^^^ st.ivs[i.val / 16][i.val % 16]) =
        flatten (gather sm4XorBlock plain st) := by
    apply Vector.ext
    intro i hi
    simp only [flatten, Vector.getElem_ofFn, getElem_gather]
  have body (st : Streams Byte 16 8) : (fun s hs (st' : Streams Byte 16 8) =>
      let block := blockOf (sm4SimdEncryptX8 (flatten (gather sm4XorBlock plain st)) rk) ⟨s, hs⟩
      (⟨write st'.mem (cipher + st'.pos[s]) block, st'.ivs.set s block,
        st'.pos.set s (st'.pos[s] + 16)⟩ : Streams Byte 16 8)) =
        scatterLane cipher (simdAll rk (gather sm4XorBlock plain st)) := by
    funext s hs st'
    simp only [scatterLane, simdAll, Vector.getElem_ofFn]
  simp only [simdCbcEncryptMultibuffer, batch, body]
  rfl

theorem bitsliceMultibufferCbcEncrypt_eq (B : Backend) (lanes : Nat) (terms : SboxTerms)
    (mem : Memory Byte) (plain cipher len : Nat) (rk : RoundKeys) (baseIv : Block) :
    bitsliceMultibufferCbcEncrypt B lanes terms mem plain cipher len rk baseIv =
      (lockstepLoop sm4XorBlock (fun batch => sm4EncryptBitsliceX32 B terms batch rk) plain
        cipher (len / 16)
        ⟨mem, Vector.ofFn fun s : Fin lanes => streamIv baseIv s,
          Vector.ofFn fun s => s.val * len⟩).mem := by
  have batch (st : Streams Byte 16 lanes) : (Vector.ofFn fun lane => Vector.ofFn fun j : Fin 16 =>
      st.mem (plain + st.pos[lane] + j.val) ^^^ st.ivs[lane][j]) = gather sm4XorBlock plain st := by
    apply Vector.ext
    intro s hs
    apply Vector.ext
    intro j hj
    simp [getElem_gather]
  simp only [bitsliceMultibufferCbcEncrypt, batch]
  rfl

/-! ## Every stream on its own -/

def Apart (plain cipher len : Nat) : Prop := plain + len ≤ cipher ∨ cipher + len ≤ plain

def aloneByte (mem : Memory Byte) (plain cipher len : Nat) (rk : RoundKeys) (baseIv : Block)
    (s i : Nat) : Byte :=
  (sm4CbcEncrypt mem (plain + s * len) (cipher + s * len) len rk (streamIv baseIv s)).mem
    (cipher + s * len + i)

structure EachStream (size : Nat) (mem : Memory Byte) (plain cipher len : Nat) (rk : RoundKeys)
    (baseIv : Block) (out : Memory Byte) : Prop where
  bytes : ∀ s < size, ∀ i < len,
    out (cipher + s * len + i) = aloneByte mem plain cipher len rk baseIv s i
  frame : ∀ a, a < cipher ∨ cipher + size * len ≤ a → out a = mem a

theorem apart_stream {plain cipher len size s : Nat} (h : Apart plain cipher (size * len))
    (hs : s < size) : SameOrApart (plain + s * len) (cipher + s * len) len := by
  have rows := row_le (n := len) hs
  rcases h with low | high
  · exact Or.inr (Or.inl (by omega))
  · exact Or.inr (Or.inr (by omega))

variable (mem : Memory Byte) {plain cipher count : Nat} (rk : RoundKeys) (baseIv : Block)

theorem aloneByte_block {size s k : Nat} (apart : Apart plain cipher (size * (16 * count)))
    (hs : s < size) (hk : k < count) :
    read 16
      (sm4CbcEncrypt mem (plain + s * (16 * count)) (cipher + s * (16 * count)) (16 * count) rk
        (streamIv baseIv s)).mem (cipher + s * (16 * count) + 16 * k) =
      streamValue sm4XorBlock (sm4EncryptBlock · rk) plain mem
        (streamIv baseIv) count s (k + 1) := by
  refine ((sm4CbcEncrypt_done (apart_stream apart hs) mem rk (streamIv baseIv s)).blocks k hk).trans
    ?_
  have stream : blocksAt mem (plain + s * (16 * count)) =
      fun k => read 16 mem (plain + (s * (16 * count) + 16 * k)) :=
    funext fun k => by rw [blocksAt, Nat.add_assoc]
  rw [cbcCipher, stream, streamValue]

theorem lockstepLoop_eachStream {size : Nat} (encAll : Vector Block size → Vector Block size)
    (lanes : ∀ batch s (hs : s < size), (encAll batch)[s] = sm4EncryptBlock batch[s] rk)
    (apart : Apart plain cipher (size * (16 * count))) :
    EachStream size mem plain cipher (16 * count) rk baseIv
      (lockstepLoop sm4XorBlock encAll plain cipher (16 * count / 16)
        ⟨mem, Vector.ofFn fun s => streamIv baseIv s,
          Vector.ofFn fun s => s.val * (16 * count)⟩).mem := by
  rw [Nat.mul_div_cancel_left count (by decide)]
  have reached : Reached sm4XorBlock (sm4EncryptBlock · rk) plain cipher mem (streamIv baseIv) count
      (fun _ => count) _ :=
    lockstepLoop_reached lanes apart
      ⟨mem, Vector.ofFn fun s => streamIv baseIv s, Vector.ofFn fun s => s.val * (16 * count)⟩
      ⟨fun _ _ => Nat.zero_le _, fun s hs => by simp, fun s hs => by simp [streamValue, chain],
        fun _ _ j hj => absurd hj (Nat.not_lt_zero j), fun _ _ => rfl⟩
  refine ⟨fun s hs => agree_of_blocks (by decide) fun k hk => ?_, reached.frame⟩
  rw [aloneByte_block mem rk baseIv apart hs hk, Nat.add_assoc]
  exact reached.done s hs k hk

theorem aloneByte_congr {mem' : Memory Byte} {size s : Nat}
    (apart : Apart plain cipher (size * (16 * count))) (hs : s < size)
    (same : ∀ i < 16 * count,
      mem' (plain + s * (16 * count) + i) = mem (plain + s * (16 * count) + i))
    (i : Nat) (hi : i < 16 * count) :
    aloneByte mem' plain cipher (16 * count) rk baseIv s i =
      aloneByte mem plain cipher (16 * count) rk baseIv s i := by
  refine agree_of_blocks (by decide) (fun k hk => ?_) i hi
  rw [aloneByte_block mem rk baseIv apart hs hk, aloneByte_block mem' rk baseIv apart hs hk]
  refine chain_congr _ _ _ _ fun j hj => read_congr fun r hr => ?_
  rw [Nat.add_assoc, Nat.add_assoc, ← Nat.add_assoc plain]
  exact same _ (by omega)

theorem encryptWorker_stream {mem' : Memory Byte} {size s loop : Nat} (pos : 1 ≤ loop)
    (apart : Apart plain cipher (size * (16 * count))) (hs : s < size)
    (same : ∀ i < 16 * count,
      mem' (plain + s * (16 * count) + i) = mem (plain + s * (16 * count) + i)) :
    let out := (encryptWorker (16 * count) loop mem' (workerArg rk plain cipher (16 * count) s)).1
    (∀ i < 16 * count, out (cipher + s * (16 * count) + i) =
        aloneByte mem plain cipher (16 * count) rk workerBaseIv s i) ∧
      ∀ a, a < cipher + s * (16 * count) ∨ cipher + s * (16 * count) + 16 * count ≤ a →
        out a = mem' a := by
  have iv : workerBaseIv.setIfInBounds 15 (workerBaseIv[15]! ^^^ BitVec.ofInt 8 (s : Int)) =
      streamIv workerBaseIv s := by
    rw [streamIv, BitVec.ofInt_natCast]
  -- every round starts from the same IV and the same plaintext, so the last one decides
  have inv := fold_inv (fun t (m : Memory Byte) =>
      (0 < t → ∀ i < 16 * count, m (cipher + s * (16 * count) + i) =
        aloneByte mem plain cipher (16 * count) rk workerBaseIv s i) ∧
      ∀ a, a < cipher + s * (16 * count) ∨ cipher + s * (16 * count) + 16 * count ≤ a →
        m a = mem' a) loop
    (fun _ _ m => (sm4CbcEncrypt m (plain + s * (16 * count))
      (cipher + s * (16 * count)) (16 * count) rk
      (streamIv workerBaseIv s)).mem) mem' ⟨fun h => absurd h (Nat.lt_irrefl 0), fun _ _ => rfl⟩ (by
      rintro t - m ⟨-, frame⟩
      have apart' := apart_stream apart hs
      have rows := row_le (n := 16 * count) hs
      have text : ∀ i < 16 * count,
          m (plain + s * (16 * count) + i) = mem (plain + s * (16 * count) + i) := by
        intro i hi
        rw [frame _ (by rcases apart with h | h <;> omega), same i hi]
      refine ⟨fun _ => aloneByte_congr mem rk workerBaseIv apart hs text, fun a ha => ?_⟩
      rw [(sm4CbcEncrypt_done apart' m rk (streamIv workerBaseIv s)).frame a ha, frame a ha])
  simp only [encryptWorker, workerArg, iv]
  exact ⟨inv.1 pos, inv.2⟩

theorem runWorkers_streams {size loop : Nat} (pos : 1 ≤ loop)
    (apart : Apart plain cipher (size * (16 * count))) (order : List Nat)
    (ids : ∀ id ∈ order, id < size) (mem' : Memory Byte)
    (same : ∀ a, plain ≤ a → a < plain + size * (16 * count) → mem' a = mem a) :
    let out := runWorkers (16 * count) loop rk plain cipher order mem'
    (∀ s ∈ order, ∀ i < 16 * count, out (cipher + s * (16 * count) + i) =
        aloneByte mem plain cipher (16 * count) rk workerBaseIv s i) ∧
      ∀ a, (∀ s ∈ order, a < cipher + s * (16 * count) ∨
        cipher + s * (16 * count) + 16 * count ≤ a) →
        out a = mem' a := by
  induction order generalizing mem' with
  | nil => exact ⟨fun s hs => absurd hs List.not_mem_nil, fun _ _ => rfl⟩
  | cons id order ih =>
    have hid := ids id List.mem_cons_self
    have inside := row_le (n := 16 * count) hid
    obtain ⟨bytes, frame⟩ := encryptWorker_stream mem rk pos apart hid
      (fun i hi => same _ (by omega) (by omega))
    obtain ⟨rest, untouched⟩ := ih (fun s hs => ids s (List.mem_cons_of_mem _ hs))
      (encryptWorker (16 * count) loop mem' (workerArg rk plain cipher (16 * count) id)).1
      (fun a low high => by
        rw [frame a (by rcases apart with h | h <;> omega), same a low high])
    refine ⟨fun s hs i hi => ?_, fun a ha => ?_⟩
    · by_cases again : s ∈ order
      · exact rest s again i hi
      · obtain rfl : s = id := (List.mem_cons.mp hs).resolve_right again
        refine (untouched _ fun t ht => ?_).trans (bytes i hi)
        have ne : t ≠ s := fun eq => again (eq ▸ ht)
        rcases Nat.lt_or_gt_of_ne ne with lt | gt
        · have rows := row_le (n := 16 * count) lt
          omega
        · have rows := row_le (n := 16 * count) gt
          omega
    · refine (untouched a fun s hs => ha s (List.mem_cons_of_mem _ hs)).trans ?_
      exact frame a (ha id List.mem_cons_self)

theorem simdCbcEncryptMultibuffer_eachStream (apart : Apart plain cipher (8 * (16 * count))) :
    EachStream 8 mem plain cipher (16 * count) rk baseIv
      (simdCbcEncryptMultibuffer mem plain cipher (16 * count) rk baseIv) := by
  rw [simdCbcEncryptMultibuffer_eq]
  exact lockstepLoop_eachStream mem rk baseIv (simdAll rk) (simdAll_lane rk) apart

theorem bitsliceMultibufferCbcEncrypt_eachStream {B : Backend} {lanes : Nat} (build : Build B lanes)
    (calls : Nat) (apart : Apart plain cipher (lanes * (16 * count))) :
    EachStream lanes mem plain cipher (16 * count) rk baseIv
      (bitsliceMultibufferCbcEncrypt B lanes
        ((initSboxTerms sm4SboxByte)^[calls + 1] sboxTermsStatic)
        mem plain cipher (16 * count) rk baseIv) := by
  rw [bitsliceMultibufferCbcEncrypt_eq]
  refine lockstepLoop_eachStream mem rk baseIv _ (fun batch s hs => ?_) apart
  rw [sm4EncryptBitsliceX32_lane build.lawful hs (initSboxTerms_static sm4SboxByte calls),
    sm4EncryptBlockScalar_eq, sm4EncryptBlock_eq]

theorem runWorkers_eachStream {threads loop : Nat} (pos : 1 ≤ loop)
    (apart : Apart plain cipher (threads * (16 * count))) {order : List Nat}
    (all : ∀ id, id ∈ order ↔ id < threads) :
    EachStream threads mem plain cipher (16 * count) rk workerBaseIv
      (runWorkers (16 * count) loop rk plain cipher order mem) := by
  obtain ⟨bytes, frame⟩ := runWorkers_streams mem rk pos apart order (fun id h => (all id).mp h) mem
    fun _ _ _ => rfl
  refine ⟨fun s hs => bytes s ((all s).mpr hs), fun a ha => frame a fun s hs => ?_⟩
  have rows := row_le (n := 16 * count) ((all s).mp hs)
  omega

/-- The AVX2 engine, every build of the bitsliced engine and the workers of the pthread engine
give each stream the bytes of `sm4_cbc_encrypt` on that stream alone, so they agree on
every stream they share. -/
theorem multibuffer_engines_agree (mem : Memory Byte) (plain cipher len : Nat) (rk : RoundKeys)
    (baseIv : Block) (B : Backend) (lanes calls threads loop : Nat) (order : List Nat)
    (whole : len % 16 = 0) (build : Build B lanes) (pos : 1 ≤ loop)
    (all : ∀ id, id ∈ order ↔ id < threads) (apart8 : Apart plain cipher (8 * len))
    (apartLanes : Apart plain cipher (lanes * len))
    (apartThreads : Apart plain cipher (threads * len)) :
    let simd := simdCbcEncryptMultibuffer mem plain cipher len rk
    let bitslice := bitsliceMultibufferCbcEncrypt B lanes
      ((initSboxTerms sm4SboxByte)^[calls + 1] sboxTermsStatic) mem plain cipher len rk
    let workers := runWorkers len loop rk plain cipher order mem
    EachStream 8 mem plain cipher len rk baseIv (simd baseIv) ∧
      EachStream lanes mem plain cipher len rk baseIv (bitslice baseIv) ∧
      EachStream threads mem plain cipher len rk workerBaseIv workers ∧
      ∀ s i, i < len →
        (s < 8 → s < lanes →
          simd baseIv (cipher + s * len + i) = bitslice baseIv (cipher + s * len + i)) ∧
        (s < 8 → s < threads →
          simd workerBaseIv (cipher + s * len + i) = workers (cipher + s * len + i)) ∧
        (s < lanes → s < threads →
          bitslice workerBaseIv (cipher + s * len + i) = workers (cipher + s * len + i)) := by
  obtain ⟨count, rfl⟩ : ∃ count, len = 16 * count := ⟨len / 16, by omega⟩
  intro simd bitslice workers
  have simd8 (iv : Block) := simdCbcEncryptMultibuffer_eachStream mem rk iv apart8
  have sliced (iv : Block) :=
    bitsliceMultibufferCbcEncrypt_eachStream mem rk iv build calls apartLanes
  have threaded := runWorkers_eachStream mem rk pos apartThreads all
  refine ⟨simd8 baseIv, sliced baseIv, threaded, fun s i hi => ⟨fun h8 hl => ?_, fun h8 ht => ?_,
    fun hl ht => ?_⟩⟩
  · exact ((simd8 baseIv).bytes s h8 i hi).trans ((sliced baseIv).bytes s hl i hi).symm
  · exact ((simd8 workerBaseIv).bytes s h8 i hi).trans (threaded.bytes s ht i hi).symm
  · exact ((sliced workerBaseIv).bytes s hl i hi).trans (threaded.bytes s ht i hi).symm

theorem multibuffer_engines_agree_small :
    let mem : Memory Byte := fun a => BitVec.ofNat 8 a
    let rk := sm4SetKey workerBaseIv (Vector.replicate 32 0)
    ∀ i < 32, simdCbcEncryptMultibuffer mem 0 1024 32 rk workerBaseIv (1024 + 1 * 32 + i) =
      runWorkers 32 1 rk 0 1024 [1, 0] mem (1024 + 1 * 32 + i) := by
  intro mem rk i hi
  exact ((multibuffer_engines_agree mem 0 1024 32 rk workerBaseIv (generic 32) 32 0 2 1 [1, 0]
    (by decide) (Or.inl ⟨32, by decide, rfl⟩) (by decide) (fun id => by simp; omega)
    (Or.inl (by decide)) (Or.inl (by decide)) (Or.inl (by decide))).2.2.2 1 i hi).2.1
    (by decide) (by decide)

end SystemsLab.Sm4Multibuffer
