import SystemsLab.Sm4.ZksedCbc
import SystemsLab.General.Recorded

/-! The shifts of the engine written with `sm4ed` and `sm4ks`, in its C fallbacks. A run records
the amount of each shift of a 32-bit word; C defines a shift only by less than 32. A rotation
shifts by the amount and by what remains of 32, so a rotation by zero is undefined. -/

namespace SystemsLab.ZksedShifts
open ByteWord ShiftRegister CountedLoop Textbook Sm4Portable Sm4PortableCbc Sm4ZksedCbc Buffer
  Recorded

def shiftLeft (x : Word) (n : Nat) : Run Nat Word := ⟨x <<< n, [n]⟩

def shiftRight (x : Word) (n : Nat) : Run Nat Word := ⟨x >>> n, [n]⟩

/-- Every shift of the run is one that C defines. -/
def Defined {β : Type} (r : Run Nat β) : Prop := ∀ n ∈ r.events, n < 32

/-! ## The engine -/

def rotl32 (x : Word) (n : Nat) : Run Nat Word := do
  let left ← shiftLeft x n
  let right ← shiftRight x (32 - n)
  pure (left ||| right)

def loadBe32 (b : Block) (p : Nat) : Run Nat Word := do
  let b0 ← shiftLeft (b[p]!.setWidth 32) 24
  let b1 ← shiftLeft (b[p + 1]!.setWidth 32) 16
  let b2 ← shiftLeft (b[p + 2]!.setWidth 32) 8
  pure (b0 ||| b1 ||| b2 ||| b[p + 3]!.setWidth 32)

def storeBe32 (value : Word) : Run Nat (Vector Byte 4) := do
  let dst0 ← shiftRight value 24
  let dst1 ← shiftRight value 16
  let dst2 ← shiftRight value 8
  pure (vec4 (dst0.setWidth 8) (dst1.setWidth 8) (dst2.setWidth 8) (value.setWidth 8))

def edSpread (x : Word) : Run Nat Word := do
  let x8 ← shiftLeft x 8
  let x2 ← shiftLeft x 2
  let x18 ← shiftLeft x 18
  let x26 ← shiftLeft (x &&& 0x0000003F) 26
  let x10 ← shiftLeft (x &&& 0x000000C0) 10
  pure (x ^^^ x8 ^^^ x2 ^^^ x18 ^^^ x26 ^^^ x10)

def ksSpread (x : Word) : Run Nat Word := do
  let x29 ← shiftLeft (x &&& 0x00000007) 29
  let x7 ← shiftLeft (x &&& 0x000000FE) 7
  let x23 ← shiftLeft (x &&& 0x00000001) 23
  let x13 ← shiftLeft (x &&& 0x000000F8) 13
  pure (x ^^^ x29 ^^^ x7 ^^^ x23 ^^^ x13)

def fallback (spread : Word → Run Nat Word) (rs1 rs2 : Word) (bs : Nat) : Run Nat Word := do
  let shamt := (bs &&& 3) * 8
  let byte ← shiftRight rs2 shamt
  let sbIn : Byte := (byte &&& 0xFF).setWidth 8
  let x : Word := (sm4SboxByte sbIn).setWidth 32
  let y ← spread x
  let z ← rotl32 y shamt
  pure (rs1 ^^^ z)

def sm4edFallback (rs1 rs2 : Word) (bs : Nat) : Run Nat Word := fallback edSpread rs1 rs2 bs

def sm4ksFallback (rs1 rs2 : Word) (bs : Nat) : Run Nat Word := fallback ksSpread rs1 rs2 bs

def accumulate (ins : Word → Word → Nat → Run Nat Word) (next t : Word) : Run Nat Word := do
  let next ← ins next t 0
  let next ← ins next t 1
  let next ← ins next t 2
  ins next t 3

def loadWords (b : Block) : Run Nat (Window Word) := do
  let x0 ← loadBe32 b 0
  let x1 ← loadBe32 b 4
  let x2 ← loadBe32 b 8
  let x3 ← loadBe32 b 12
  pure ⟨x0, x1, x2, x3⟩

def zksedKeyRound (i : Nat) (h : i < 32) (st : Window Word × RoundKeys) :
    Run Nat (Window Word × RoundKeys) := do
  let (k, rk) := st
  let t := k.b ^^^ k.c ^^^ k.d ^^^ sm4Ck[i]
  let next ← accumulate sm4ksFallback k.a t
  pure (⟨k.b, k.c, k.d, next⟩, rk.set i next)

def sm4SetKeyZksed (key : Block) (rk : RoundKeys) : Run Nat RoundKeys := do
  let w ← loadWords key
  let k : Window Word := ⟨w.a ^^^ sm4Fk[0]!, w.b ^^^ sm4Fk[1]!, w.c ^^^ sm4Fk[2]!,
    w.d ^^^ sm4Fk[3]!⟩
  let st ← loopArray 32 zksedKeyRound (k, rk)
  pure st.2

def zksedRound (rk : Word) (x : Window Word) : Run Nat (Window Word) := do
  let t := x.b ^^^ x.c ^^^ x.d ^^^ rk
  let next ← accumulate sm4edFallback x.a t
  pure ⟨x.b, x.c, x.d, next⟩

def sm4EncryptBlockZksed (inp : Block) (rk : RoundKeys) : Run Nat Block := do
  let x ← loadWords inp
  let x ← loopArray 32 (fun i _ x => zksedRound rk[i] x) x
  let out0 ← storeBe32 x.d
  let out4 ← storeBe32 x.c
  let out8 ← storeBe32 x.b
  let out12 ← storeBe32 x.a
  pure (concat4 out0 out4 out8 out12)

def sm4CbcEncryptZksed (mem : Memory Byte) (inp out len : Nat) (rk : RoundKeys) (iv : Block) :
    Run Nat ZksedRun :=
  loop 0 len 16 (fun i st => do
    let block := sm4XorBlock (read 16 st.mem (inp + i)) st.iv
    let cipher ← sm4EncryptBlockZksed block rk
    let mem := write st.mem (out + i) cipher
    pure ⟨⟨mem, read 16 mem (out + i)⟩, st.reads ++ blockIndices i, st.writes ++ blockIndices i⟩)
    ⟨⟨mem, iv⟩, [], []⟩

/-- A key and one message under it; `rk` is what the array of round keys held before. -/
def zksedMessage (key : Block) (rk : RoundKeys) (mem : Memory Byte) (inp out len : Nat)
    (iv : Block) : Run Nat ZksedRun := do
  let rk ← sm4SetKeyZksed key rk
  sm4CbcEncryptZksed mem inp out len rk iv

/-! ## The values are those of the engine -/

theorem sm4SetKeyZksed_value (key : Block) (rk : RoundKeys) :
    (sm4SetKeyZksed key rk).value = Sm4Zksed.sm4SetKeyZksed key rk := by
  rw [sm4SetKeyZksed]
  simp only [value_bind, loopArray_value]
  rfl

theorem sm4EncryptBlockZksed_value (inp : Block) (rk : RoundKeys) :
    (sm4EncryptBlockZksed inp rk).value = Sm4Zksed.sm4EncryptBlockZksed inp rk := by
  simp only [sm4EncryptBlockZksed, value_bind, loopArray_value]
  rfl

theorem sm4CbcEncryptZksed_value (mem : Memory Byte) (inp out len : Nat) (rk : RoundKeys)
    (iv : Block) : (sm4CbcEncryptZksed mem inp out len rk iv).value =
      Sm4ZksedCbc.sm4CbcEncryptZksed mem inp out len rk iv := by
  rw [sm4CbcEncryptZksed, loop_value]
  simp only [value_bind, sm4EncryptBlockZksed_value]
  rfl

theorem zksedMessage_value (key : Block) (rk : RoundKeys) (mem : Memory Byte) (inp out len : Nat)
    (iv : Block) : (zksedMessage key rk mem inp out len iv).value =
      Sm4ZksedCbc.sm4CbcEncryptZksed mem inp out len (Sm4Zksed.sm4SetKeyZksed key rk) iv := by
  rw [zksedMessage, value_bind, sm4CbcEncryptZksed_value, sm4SetKeyZksed_value]

/-! ## The shifts of a run -/

/-- Where the byte is taken from, the spread byte, and the rotation back. -/
def fallbackShifts (spread : List Nat) (shamt : Nat) : List Nat :=
  shamt :: spread ++ [shamt, 32 - shamt]

def roundShifts (spread : List Nat) : List Nat := [0, 8, 16, 24].flatMap (fallbackShifts spread)

def edShifts : List Nat := roundShifts [8, 2, 18, 26, 10]

def ksShifts : List Nat := roundShifts [29, 7, 23, 13]

def loadShifts : List Nat := (List.replicate 4 [24, 16, 8]).flatten

theorem zksedKeyRound_events (i : Nat) (h : i < 32) (st : Window Word × RoundKeys) :
    (zksedKeyRound i h st).events = ksShifts := rfl

theorem zksedRound_events (rk : Word) (x : Window Word) : (zksedRound rk x).events = edShifts := rfl

theorem sm4SetKeyZksed_events (key : Block) (rk : RoundKeys) :
    (sm4SetKeyZksed key rk).events = loadShifts ++ (List.replicate 32 ksShifts).flatten := by
  rw [sm4SetKeyZksed, events_bind, events_bind, loopArray_events _ zksedKeyRound_events, pure_eq,
    List.append_nil]
  rfl

theorem sm4EncryptBlockZksed_events (inp : Block) (rk : RoundKeys) :
    (sm4EncryptBlockZksed inp rk).events =
      loadShifts ++ (List.replicate 32 edShifts).flatten ++ loadShifts := by
  rw [sm4EncryptBlockZksed, events_bind, events_bind,
    loopArray_events _ fun i _ x => zksedRound_events rk[i] x, List.append_assoc]
  rfl

theorem sm4CbcEncryptZksed_events (mem : Memory Byte) (inp out len : Nat) (rk : RoundKeys)
    (iv : Block) : (sm4CbcEncryptZksed mem inp out len rk iv).events =
      (List.replicate ((len + 15) / 16)
        (loadShifts ++ (List.replicate 32 edShifts).flatten ++ loadShifts)).flatten := by
  have blocks : (indices 0 len 16).length = (len + 15) / 16 := List.length_range' ..
  rw [← blocks, sm4CbcEncryptZksed]
  refine loop_events _ _ _ _ fun i st => ?_
  rw [events_bind, sm4EncryptBlockZksed_events, pure_eq, List.append_nil]

/-! ## Undefined shifts -/

theorem Defined.count {β : Type} {r : Run Nat β} (h : Defined r) : r.events.count 32 = 0 :=
  List.count_eq_zero.mpr fun mem => Nat.lt_irrefl 32 (h 32 mem)

theorem count_flatten_replicate (n k : Nat) (l : List Nat) :
    (List.replicate n l).flatten.count k = n * l.count k := by
  rw [List.count_flatten, List.map_replicate, List.sum_replicate_nat]

theorem sm4SetKeyZksed_count (key : Block) (rk : RoundKeys) :
    (sm4SetKeyZksed key rk).events.count 32 = 32 := by
  rw [sm4SetKeyZksed_events, List.count_append, count_flatten_replicate]
  rfl

theorem blockShifts_count :
    (loadShifts ++ (List.replicate 32 edShifts).flatten ++ loadShifts).count 32 = 32 := by
  rw [List.count_append, List.count_append, count_flatten_replicate]
  rfl

theorem sm4CbcEncryptZksed_count (mem : Memory Byte) (inp out len : Nat) (rk : RoundKeys)
    (iv : Block) : (sm4CbcEncryptZksed mem inp out len rk iv).events.count 32 =
      (len + 15) / 16 * 32 := by
  rw [sm4CbcEncryptZksed_events, count_flatten_replicate, blockShifts_count]

/-- Each round rotates once by zero, so no key schedule and no block is free of undefined shifts,
and hence no message: 32 for the key and 32 for each block that its length begins. -/
theorem zksed_undefined_shifts (key b iv : Block) (rk : RoundKeys) (mem : Memory Byte)
    (inp out len : Nat) :
    ¬Defined (zksedMessage key rk mem inp out len iv) ∧
    (zksedMessage key rk mem inp out len iv).events.count 32 = 32 + (len + 15) / 16 * 32 ∧
    ¬Defined (sm4SetKeyZksed key rk) ∧ ¬Defined (sm4EncryptBlockZksed b rk) ∧
    (Defined (sm4CbcEncryptZksed mem inp out len rk iv) ↔ len = 0) := by
  have message : (zksedMessage key rk mem inp out len iv).events.count 32 =
      32 + (len + 15) / 16 * 32 := by
    rw [zksedMessage, events_bind, List.count_append, sm4SetKeyZksed_count,
      sm4CbcEncryptZksed_count]
  have block : (sm4EncryptBlockZksed b rk).events.count 32 = 32 := by
    rw [sm4EncryptBlockZksed_events, blockShifts_count]
  refine ⟨fun h => ?_, message, fun h => ?_, fun h => ?_, fun h => ?_, ?_⟩
  · have none := h.count
    omega
  · have none := h.count
    rw [sm4SetKeyZksed_count] at none
    cases none
  · have none := h.count
    rw [block] at none
    cases none
  · have none := h.count
    rw [sm4CbcEncryptZksed_count] at none
    omega
  · rintro rfl n mem
    rw [sm4CbcEncryptZksed_events] at mem
    exact absurd mem List.not_mem_nil

theorem zksedMessage_undefined :
    ¬Defined (zksedMessage Sm4Zksed.zksedKey (Vector.replicate 32 0) (BitVec.ofNat 8) 0 16 16
      (Vector.ofFn fun i => BitVec.ofNat 8 i)) :=
  fun h => Nat.lt_irrefl 32 (h 32 (by decide +kernel))

end SystemsLab.ZksedShifts
