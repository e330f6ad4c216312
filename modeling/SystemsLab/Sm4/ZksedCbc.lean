import SystemsLab.Sm4.Zksed
import SystemsLab.Sm4.PortableCbc

/-! CBC encryption of the engine written with `sm4ed` and `sm4ks`. Unlike the function of the
header it does not look at the length first, so its last block may reach past both buffers. -/

namespace SystemsLab.Sm4ZksedCbc
open ByteWord Textbook Sm4Portable Sm4PortableCbc Sm4Zksed CountedLoop Buffer CipherChaining

/-- The state of the loop. `reads` and `writes` are the indices at which `in` and `out` have been
accessed; the loop does not look at them. -/
structure ZksedRun extends Progress Byte 16 where
  reads : List Nat
  writes : List Nat

def blockIndices (i : Nat) : List Nat := List.range' i 16

def sm4CbcEncryptZksed (mem : Memory Byte) (inp out len : Nat) (rk : RoundKeys) (iv : Block) :
    ZksedRun :=
  forLoop 0 len 16 (fun i st =>
    let block := sm4XorBlock (read 16 st.mem (inp + i)) st.iv
    let mem := write st.mem (out + i) (sm4EncryptBlockZksed block rk)
    ⟨⟨mem, read 16 mem (out + i)⟩, st.reads ++ blockIndices i, st.writes ++ blockIndices i⟩)
    ⟨⟨mem, iv⟩, [], []⟩

/-- What is asked of a call on buffers of exactly `len` bytes: it stays inside them, chains the
engine's blocks where the length is whole, and refuses any other length. -/
structure ZksedContract (mem : Memory Byte) (inp out len : Nat) (rk : RoundKeys) (iv : Block)
    (r : ZksedRun) : Prop where
  reads : ∀ i ∈ r.reads, i < len
  writes : ∀ i ∈ r.writes, i < len
  whole : len % 16 = 0 →
    (∀ k < len / 16, blocksAt r.mem out k =
      chain sm4XorBlock (sm4EncryptBlockZksed · rk) (blocksAt mem inp) iv (k + 1)) ∧
    r.iv = lastBlock r.mem out len iv ∧
    ∀ a, a < out ∨ out + len ≤ a → r.mem a = mem a
  refused : len % 16 ≠ 0 → (∀ i < len, r.mem (out + i) = mem (out + i)) ∧ r.iv = iv

variable (mem : Memory Byte) (inp out len : Nat) (rk : RoundKeys) (iv : Block)

theorem sm4CbcEncryptZksed_toProgress :
    (sm4CbcEncryptZksed mem inp out len rk iv).toProgress =
      encryptLoop sm4XorBlock (sm4EncryptBlockZksed · rk) inp out len ⟨mem, iv⟩ := by
  rw [sm4CbcEncryptZksed, encryptLoop]
  exact forLoop_hom ZksedRun.toProgress (fun _ _ => rfl) _

theorem mem_blockIndices_loop (a : Nat) :
    a ∈ forLoop 0 len 16 (fun i l => l ++ blockIndices i) [] ↔ a < 16 * ((len + 15) / 16) := by
  rw [forLoop, List.foldl_append_eq_append, List.nil_append]
  simp only [List.mem_flatten, List.mem_map, exists_exists_and_eq_and, blockIndices,
    List.mem_range'_1, mem_indices (by decide : 0 < 16)]
  constructor
  · rintro ⟨i, ⟨-, lt, k, hk⟩, ge, le⟩
    omega
  · intro lt
    exact ⟨16 * (a / 16), ⟨Nat.zero_le _, by omega, a / 16, by omega⟩, by omega, by omega⟩

theorem mem_reads (a : Nat) :
    a ∈ (sm4CbcEncryptZksed mem inp out len rk iv).reads ↔ a < 16 * ((len + 15) / 16) := by
  have reads : (sm4CbcEncryptZksed mem inp out len rk iv).reads =
      forLoop 0 len 16 (fun i l => l ++ blockIndices i) [] :=
    forLoop_hom ZksedRun.reads (fun _ _ => rfl) _
  rw [reads, mem_blockIndices_loop]

theorem mem_writes (a : Nat) :
    a ∈ (sm4CbcEncryptZksed mem inp out len rk iv).writes ↔ a < 16 * ((len + 15) / 16) := by
  have writes : (sm4CbcEncryptZksed mem inp out len rk iv).writes =
      forLoop 0 len 16 (fun i l => l ++ blockIndices i) [] :=
    forLoop_hom ZksedRun.writes (fun _ _ => rfl) _
  rw [writes, mem_blockIndices_loop]

/-- On buffers that coincide or do not meet, the call does what is asked of it exactly when the
length is a multiple of the block size. -/
theorem sm4CbcEncryptZksed_contract_iff (apart : SameOrApart inp out len) :
    ZksedContract mem inp out len rk iv (sm4CbcEncryptZksed mem inp out len rk iv) ↔
      len % 16 = 0 := by
  constructor
  · intro h
    by_contra uneven
    have last := h.reads (16 * (len / 16) + 15)
      ((mem_reads mem inp out len rk iv _).mpr (by omega))
    omega
  · intro whole
    obtain ⟨count, rfl⟩ : ∃ count, len = 16 * count := ⟨len / 16, by omega⟩
    have after := encryptLoop_after sm4XorBlock (sm4EncryptBlockZksed · rk) apart mem
      (by decide) iv
    rw [← sm4CbcEncryptZksed_toProgress] at after
    refine ⟨fun i hi => ?_, fun i hi => ?_, fun _ => ⟨fun k hk => ?_, ?_, after.frame⟩,
      fun uneven => absurd whole uneven⟩
    · rw [mem_reads] at hi
      omega
    · rw [mem_writes] at hi
      omega
    · exact after.done k (by omega)
    · have last := previous_congr iv count after.done
      rw [previous_chain] at last
      exact after.iv.trans (last.symm.trans (previous_blocksAt _ _ _))

theorem sm4CbcEncryptZksed_contract_two_blocks :
    let rk : RoundKeys := Vector.replicate 32 0
    ZksedContract (fun _ => 0) 0 0 32 rk (Vector.replicate 16 0)
      (sm4CbcEncryptZksed (fun _ => 0) 0 0 32 rk (Vector.replicate 16 0)) :=
  (sm4CbcEncryptZksed_contract_iff (fun _ => 0) 0 0 32 (Vector.replicate 32 0)
    (Vector.replicate 16 0) (Or.inl rfl)).mpr (by decide)

/-- A length of 17: byte 31 of both buffers is accessed, and `iv` changes. -/
theorem sm4CbcEncryptZksed_partial_block :
    let rk : RoundKeys := Vector.replicate 32 0
    let iv : Block := Vector.replicate 16 0
    let r := sm4CbcEncryptZksed (fun _ => 1) 0 32 17 rk iv
    31 ∈ r.reads ∧ 31 ∈ r.writes ∧ r.iv ≠ iv ∧ ¬ ZksedContract (fun _ => 1) 0 32 17 rk iv r := by
  intro rk iv r
  have reads : 31 ∈ r.reads := (mem_reads _ 0 32 17 rk iv 31).mpr (by decide)
  have writes : 31 ∈ r.writes := (mem_writes _ 0 32 17 rk iv 31).mpr (by decide)
  have changed : (sm4CbcEncryptZksed (fun _ => 1) 0 32 17 (Vector.replicate 32 0)
      (Vector.replicate 16 0)).iv ≠ Vector.replicate 16 0 := by decide +kernel
  exact ⟨reads, writes, changed, fun h => absurd (h.reads 31 reads) (by decide)⟩

end SystemsLab.Sm4ZksedCbc
