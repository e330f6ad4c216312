import SystemsLab.General.ByteWord
import SystemsLab.General.ShiftRegister
import SystemsLab.General.Buffer
import Mathlib.Tactic.IntervalCases

/-! SM4 as the standard describes it: thirty-two steps of a four-word shift
register on the big-endian words of a block, the window reversed at the end.
The round transform `T` stays a parameter; the engines are compared with
`cipher` one round transform at a time. -/

namespace SystemsLab.Textbook
open ByteWord ShiftRegister CountedLoop Buffer

abbrev Block := Vector Byte 16
abbrev RoundKeys := Vector Word 32

def wordAt (b : Block) (p : Nat) (h : p + 4 ≤ 16) : Word :=
  ofBytes b[p] b[p + 1] b[p + 2] b[p + 3]

def blocksAt (mem : Memory Byte) (p k : Nat) : Block := read 16 mem (p + 16 * k)

def loadWords (b : Block) : Window Word :=
  ⟨wordAt b 0 (by decide), wordAt b 4 (by decide), wordAt b 8 (by decide), wordAt b 12 (by decide)⟩

theorem load_eq_wordAt (b : Block) {p : Nat} (h : p + 4 ≤ 16) :
    (b[p]!.setWidth 32 <<< 24) ||| (b[p + 1]!.setWidth 32 <<< 16) |||
    (b[p + 2]!.setWidth 32 <<< 8) |||
      b[p + 3]!.setWidth 32 = wordAt b p h := by
  rw [getElemBang_eq b (by omega), getElemBang_eq b (by omega), getElemBang_eq b (by omega),
    getElemBang_eq b (by omega)]
  rfl

def vec4 (a b c d : Byte) : Vector Byte 4 := #v[a, b, c, d]

def bytesOf (v : Word) : Vector Byte 4 := vec4 (byteOf v 24) (byteOf v 16) (byteOf v 8) (byteOf v 0)

def concat4 (p q r s : Vector Byte 4) : Block := p ++ q ++ r ++ s

def storeWords (w : Window Word) : Block :=
  concat4 (bytesOf w.a) (bytesOf w.b) (bytesOf w.c) (bytesOf w.d)

theorem storeWords_eq (w : Window Word) : storeWords w =
    #v[byteOf w.a 24, byteOf w.a 16, byteOf w.a 8, byteOf w.a 0,
      byteOf w.b 24, byteOf w.b 16, byteOf w.b 8, byteOf w.b 0,
      byteOf w.c 24, byteOf w.c 16, byteOf w.c 8, byteOf w.c 0,
      byteOf w.d 24, byteOf w.d 16, byteOf w.d 8, byteOf w.d 0] := rfl

theorem getElem_storeWords (w : Window Word) (i : Nat) (hi : i < 16) :
    (storeWords w)[i] = byteOf #v[w.a, w.b, w.c, w.d][i / 4] (8 * (3 - i % 4)) := by
  rw [storeWords_eq]
  interval_cases i <;> rfl

theorem block_eq (b : Block) :
    b = #v[b[0], b[1], b[2], b[3], b[4], b[5], b[6], b[7],
      b[8], b[9], b[10], b[11], b[12], b[13], b[14], b[15]] := by
  apply Vector.ext
  intro i hi
  interval_cases i <;> rfl

theorem loadWords_storeWords (w : Window Word) : loadWords (storeWords w) = w := by
  rw [storeWords_eq]
  change (⟨ofBytes (byteOf w.a 24) (byteOf w.a 16) (byteOf w.a 8) (byteOf w.a 0),
    ofBytes (byteOf w.b 24) (byteOf w.b 16) (byteOf w.b 8) (byteOf w.b 0),
    ofBytes (byteOf w.c 24) (byteOf w.c 16) (byteOf w.c 8) (byteOf w.c 0),
    ofBytes (byteOf w.d 24) (byteOf w.d 16) (byteOf w.d 8) (byteOf w.d 0)⟩ : Window Word) = w
  simp only [ofBytes_byteOf]

theorem storeWords_loadWords (b : Block) : storeWords (loadWords b) = b := by
  conv_rhs => rw [block_eq b]
  rw [storeWords_eq]
  simp only [loadWords, wordAt, byteOf_ofBytes]

theorem keys_eq (rk : RoundKeys) :
    rk.toList = [rk[0], rk[1], rk[2], rk[3]] ++ [rk[4], rk[5], rk[6], rk[7]] ++
      [rk[8], rk[9], rk[10], rk[11]] ++ [rk[12], rk[13], rk[14], rk[15]] ++
      [rk[16], rk[17], rk[18], rk[19]] ++ [rk[20], rk[21], rk[22], rk[23]] ++
      [rk[24], rk[25], rk[26], rk[27]] ++ [rk[28], rk[29], rk[30], rk[31]] := by
  apply List.ext_getElem
  · simp
  · intro i hi _
    rw [Vector.getElem_toList]
    rw [Vector.length_toList] at hi
    interval_cases i <;> rfl

theorem keys_reverse (rk : RoundKeys) :
    (Vector.ofFn fun i : Fin 32 => rk[31 - i.val]!).toList = rk.toList.reverse := by
  apply List.ext_getElem
  · simp
  · intro i hi _
    rw [Vector.length_toList] at hi
    rw [Vector.getElem_toList, Vector.getElem_ofFn, getElemBang_eq rk (by omega)]
    simp [List.getElem_reverse]

def feedback (T : Word → Word) (k b c d : Word) : Word := T (b ^^^ c ^^^ d ^^^ k)

theorem feedback_symmetric (T : Word → Word) (k b c d : Word) :
    feedback T k b c d = feedback T k d c b := by
  simp only [feedback]
  congr 2
  rw [BitVec.xor_assoc, BitVec.xor_comm b, BitVec.xor_comm c d]

theorem xor_cancel {w : Nat} (a t : BitVec w) : a ^^^ t ^^^ t = a := by
  rw [BitVec.xor_assoc, BitVec.xor_self, BitVec.xor_zero]

def rounds (T : Word → Word) (keys : List Word) (w : Window Word) : Window Word :=
  run (· ^^^ ·) (feedback T) keys w

theorem rounds_append (T : Word → Word) (first second : List Word) (w : Window Word) :
    rounds T (first ++ second) w = rounds T second (rounds T first w) :=
  run_append _ _ first second w

def cipher (T : Word → Word) (keys : List Word) (b : Block) : Block :=
  storeWords (rounds T keys (loadWords b)).rev

/-- The words `X 0, X 1, ...` of the standard: `X (i + 4)` is `X i` XOR `T` of the next three
words and round key `i`. -/
structure Recurrence (T : Word → Word) (rk : RoundKeys) (b : Block) (x : Nat → Word) : Prop where
  start : loadWords b = ⟨x 0, x 1, x 2, x 3⟩
  next : ∀ i (h : i < 32), x (i + 4) = x i ^^^ T (x (i + 1) ^^^ x (i + 2) ^^^ x (i + 3) ^^^ rk[i])

theorem Recurrence.cipher_eq {T : Word → Word} {rk : RoundKeys} {b : Block} {x : Nat → Word}
    (h : Recurrence T rk b x) : cipher T rk.toList b = storeWords ⟨x 35, x 34, x 33, x 32⟩ := by
  have last := run_eq_of_recurrence (· ^^^ ·) (feedback T) rk.toList x fun i hi => by
    simpa [feedback] using h.next i (by simpa using hi)
  rw [Vector.length_toList] at last
  rw [cipher, rounds, h.start, last]
  rfl

theorem exists_recurrence (T : Word → Word) (rk : RoundKeys) (b : Block) :
    ∃ x, Recurrence T rk b x := by
  let window : Nat → Window Word := fun n =>
    Nat.rec (loadWords b) (fun i w => shift (· ^^^ ·) (feedback T) (rk.getD i 0) w) n
  refine ⟨fun n => (window n).a, rfl, fun i hi => ?_⟩
  have key : rk.getD i 0 = rk[i] := by simp [Vector.getD, hi]
  rw [← key]
  rfl

/-- Decryption is encryption with the round keys in reverse order, whatever `T` is. -/
theorem cipher_reverse (T : Word → Word) (keys : List Word) (b : Block) :
    cipher T keys.reverse (cipher T keys b) = b := by
  have back := run_reverse_rev (· ^^^ ·) (feedback T) xor_cancel (feedback_symmetric T) keys
    (loadWords b)
  simp only [cipher, rounds, loadWords_storeWords, back, Window.rev_rev, storeWords_loadWords]

theorem cipher_of_reverse (T : Word → Word) (keys : List Word) (b : Block) :
    cipher T keys (cipher T keys.reverse b) = b := by
  simpa only [List.reverse_reverse] using cipher_reverse T keys.reverse b

/-- The key schedule's register: its outputs are the round keys. -/
def schedule (T' : Word → Word) (ck : List Word) (w : Window Word) : List Word :=
  outputs (· ^^^ ·) (feedback T') ck w

theorem schedule_append (T' : Word → Word) (first second : List Word) (w : Window Word) :
    schedule T' (first ++ second) w = schedule T' first w ++ schedule T' second
      (rounds T' first w) :=
  outputs_append _ _ first second w

theorem schedule_fold (T' : Word → Word) (ck rk : Vector Word 32) (w : Window Word) :
    (Nat.fold 32 (fun i _ (st : Window Word × RoundKeys) =>
      let next := shift (· ^^^ ·) (feedback T') ck[i] st.1
      (next, st.2.set i next.d)) (w, rk)).2.toList = schedule T' ck.toList w := by
  have inv := fold_inv (fun i (st : Window Word × RoundKeys) =>
      st.1 = rounds T' (ck.toList.take i) w ∧
      st.2.toList.take i = schedule T' (ck.toList.take i) w) 32
    (fun i _ st =>
      let next := shift (· ^^^ ·) (feedback T') ck[i] st.1
      (next, st.2.set i next.d)) (w, rk) ⟨rfl, rfl⟩ (by
      intro i hi st ⟨window, filled⟩
      have one : ck.toList.take (i + 1) = ck.toList.take i ++ [ck[i]] := by
        rw [List.take_succ_eq_append_getElem (by simpa using hi), Vector.getElem_toList]
      rw [one, rounds_append, schedule_append, ← window, ← filled]
      exact ⟨rfl, take_toList_set st.2 i hi _⟩)
  have all := inv.2
  rwa [List.take_of_length_le (by simp), List.take_of_length_le (by simp)] at all

end SystemsLab.Textbook
