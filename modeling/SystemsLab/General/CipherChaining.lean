import SystemsLab.General.Buffer
import SystemsLab.General.CountedLoop

/-! Cipher block chaining over an arbitrary block function. On sequences of
blocks, `chain` gives the chaining values and `unchain` the plaintext; on
memory, `encryptLoop` and `decryptLoop` run the two forward loops, and both
are shown to compute the sequences, also when they work in place. Into another
buffer, decryption may also take the blocks one by one in any order. -/

namespace SystemsLab.CipherChaining
open Buffer CountedLoop

section Sequences

variable {β : Type*} (mix : β → β → β) (enc dec : β → β)

/-- The chaining value before block `n`; block `n` of the ciphertext is the next one. -/
def chain (plain : Nat → β) (iv : β) : Nat → β
  | 0 => iv
  | n + 1 => enc (mix (plain n) (chain plain iv n))

def previous (cipher : Nat → β) (iv : β) : Nat → β
  | 0 => iv
  | n + 1 => cipher n

def unchain (cipher : Nat → β) (iv : β) (n : Nat) : β := mix (dec (cipher n)) (previous cipher iv n)

theorem chain_congr {plain plain' : Nat → β} (iv : β) (n : Nat) (h : ∀ k < n, plain k = plain' k) :
    chain mix enc plain iv n = chain mix enc plain' iv n := by
  induction n with
  | zero => rfl
  | succ n ih => rw [chain, chain, h n (Nat.lt_succ_self n),
      ih fun k hk => h k (Nat.lt_succ_of_lt hk)]

theorem previous_congr {cipher cipher' : Nat → β} (iv : β) (n : Nat)
    (h : ∀ k < n, cipher k = cipher' k) : previous cipher iv n = previous cipher' iv n := by
  cases n with
  | zero => rfl
  | succ n => exact h n (Nat.lt_succ_self n)

theorem previous_chain (plain : Nat → β) (iv : β) (n : Nat) :
    previous (fun k => chain mix enc plain iv (k + 1)) iv n = chain mix enc plain iv n := by
  cases n <;> rfl

variable (cancel : ∀ a t, mix (mix a t) t = a)

include cancel in
theorem unchain_chain (inverse : ∀ b, dec (enc b) = b) (plain : Nat → β) (iv : β) (n : Nat) :
    unchain mix dec (fun k => chain mix enc plain iv (k + 1)) iv n = plain n := by
  rw [unchain, previous_chain, chain, inverse, cancel]

include cancel in
theorem chain_unchain (inverse : ∀ b, enc (dec b) = b) (cipher : Nat → β) (iv : β) (n : Nat) :
    chain mix enc (unchain mix dec cipher iv) iv n = previous cipher iv n := by
  induction n with
  | zero => rfl
  | succ n ih => rw [chain, ih, unchain, cancel, inverse, previous]

end Sequences

section Loops

variable {α : Type*} {n : Nat} (mix : Vector α n → Vector α n → Vector α n)
  (enc dec : Vector α n → Vector α n) (inp out : Nat)

structure Progress (α : Type*) (n : Nat) where
  mem : Memory α
  iv : Vector α n

def encryptStep (i : Nat) (st : Progress α n) : Progress α n :=
  let mem := write st.mem (out + i) (enc (mix (read n st.mem (inp + i)) st.iv))
  ⟨mem, read n mem (out + i)⟩

def decryptStep (i : Nat) (st : Progress α n) : Progress α n :=
  let prev := read n st.mem (inp + i)
  ⟨write st.mem (out + i) (mix (dec prev) st.iv), prev⟩

def encryptLoop (len : Nat) (st : Progress α n) : Progress α n :=
  forLoop 0 len n (encryptStep mix enc inp out) st

def decryptLoop (len : Nat) (st : Progress α n) : Progress α n :=
  forLoop 0 len n (decryptStep mix dec inp out) st

/-- What a forward loop has done after `k` blocks: the written blocks, the blocks
not yet read, the chaining value, and everything outside the output buffer. -/
structure After (start : Memory α) (count : Nat) (written value : Nat → Vector α n) (k : Nat)
    (st : Progress α n) : Prop where
  done : ∀ j < k, read n st.mem (out + n * j) = written j
  todo : ∀ j, k ≤ j → j < count → read n st.mem (inp + n * j) = read n start (inp + n * j)
  iv : st.iv = value k
  frame : ∀ a, a < out ∨ out + n * count ≤ a → st.mem a = start a

variable {inp out} {count : Nat} (apart : SameOrApart inp out (n * count)) (start : Memory α)

include apart in
/-- Writing block `k` of the output disturbs no other finished block and no later input. -/
theorem After.step {written value : Nat → Vector α n} {k : Nat} {st : Progress α n}
    (h : After inp out start count written value k st) (hk : k < count) (v iv : Vector α n)
    (block : v = written k) (next : iv = value (k + 1)) :
    After inp out start count written value (k + 1) ⟨write st.mem (out + n * k) v, iv⟩ where
  done j hj := by
    rcases Nat.lt_succ_iff_lt_or_eq.mp hj with lt | rfl
    · have gap := block_le (n := n) lt
      rw [read_write_of_apart _ _ _ _ (by omega), h.done j lt]
    · rw [read_write, block]
  todo j hj hc := by
    rw [read_write_of_apart _ _ _ _ (apart.block hj hc), h.todo j (by omega) hc]
  iv := next
  frame a ha := by
    have inside := block_le (n := n) hk
    exact (write_of_not_mem _ _ _ _ (by omega)).trans (h.frame a ha)

include apart in
theorem encryptLoop_after (pos : 0 < n) (iv : Vector α n) :
    let plain := fun k => read n start (inp + n * k)
    After inp out start count (fun k => chain mix enc plain iv (k + 1))
      (chain mix enc plain iv) count
      (encryptLoop mix enc inp out (n * count) ⟨start, iv⟩) := by
  intro plain
  have inv := forLoop_inv
    (fun k st => After inp out start count (fun k => chain mix enc plain iv (k + 1))
      (chain mix enc plain iv) k st) 0 count n (encryptStep mix enc inp out) ⟨start, iv⟩ pos
    ⟨fun j hj => absurd hj (Nat.not_lt_zero j), fun _ _ _ => rfl, rfl, fun _ _ => rfl⟩ (by
      intro k st hk h
      have block :
        enc (mix (read n st.mem (inp + n * k)) st.iv) = chain mix enc plain iv (k + 1) := by
        rw [h.todo k (Nat.le_refl k) hk, h.iv, chain]
      simp only [encryptStep, Nat.zero_add, read_write]
      exact h.step apart start hk _ _ block block)
  simpa only [Nat.zero_add, encryptLoop] using inv

include apart in
theorem decryptLoop_after (pos : 0 < n) (iv : Vector α n) :
    let cipher := fun k => read n start (inp + n * k)
    After inp out start count (unchain mix dec cipher iv) (previous cipher iv) count
      (decryptLoop mix dec inp out (n * count) ⟨start, iv⟩) := by
  intro cipher
  have inv := forLoop_inv
    (fun k st => After inp out start count (unchain mix dec cipher iv) (previous cipher iv) k st)
    0 count n (decryptStep mix dec inp out) ⟨start, iv⟩ pos
    ⟨fun j hj => absurd hj (Nat.not_lt_zero j), fun _ _ _ => rfl, rfl, fun _ _ => rfl⟩ (by
      intro k st hk h
      have read : read n st.mem (inp + n * k) = cipher k := h.todo k (Nat.le_refl k) hk
      simp only [decryptStep, Nat.zero_add, read]
      exact h.step apart start hk _ _ (by rw [h.iv, unchain]) rfl)
  simpa only [Nat.zero_add, decryptLoop] using inv

end Loops

/-! ## Blocks in any order -/

section AnyOrder

variable {α : Type*} {n : Nat} (mix : Vector α n → Vector α n → Vector α n)
  (dec : Vector α n → Vector α n)
  (inp out : Nat) (iv : Vector α n)

def decryptBlockAt (k : Nat) (mem : Memory α) : Memory α :=
  write mem (out + n * k)
    (mix (dec (read n mem (inp + n * k))) (previous (fun j => read n mem (inp + n * j)) iv k))

structure Scattered (start : Memory α) (count : Nat) (done : Nat → Prop) (mem : Memory α) :
    Prop where
  blocks : ∀ k < count, done k →
    read n mem (out + n * k) = unchain mix dec (fun j => read n start (inp + n * j)) iv k
  frame : ∀ a, a < out ∨ out + n * count ≤ a → mem a = start a

variable {mix dec inp out iv} {start mem : Memory α} {count k : Nat} {done done' : Nat → Prop}

theorem Scattered.refl (none : ∀ k < count, ¬ done k) :
    Scattered mix dec inp out iv start count done start :=
  ⟨fun k hk here => absurd here (none k hk), fun _ _ => rfl⟩

theorem Scattered.mono (h : Scattered mix dec inp out iv start count done mem)
    (same : ∀ j < count, done' j → done j) : Scattered mix dec inp out iv start count done' mem :=
  ⟨fun j hj here => h.blocks j hj (same j hj here), h.frame⟩

theorem Scattered.step (apart : inp + n * count ≤ out ∨ out + n * count ≤ inp)
    (h : Scattered mix dec inp out iv start count done mem) (hk : k < count)
    (grow : ∀ j < count, done' j → done j ∨ j = k) :
    Scattered mix dec inp out iv start count done' (decryptBlockAt mix dec inp out iv k mem) where
  blocks j hj here := by
    have cipher : ∀ i < count, read n mem (inp + n * i) = read n start (inp + n * i) := fun i hi =>
      read_congr fun r hr => h.frame _ (by
        have inside := block_le (n := n) hi
        omega)
    have value :
      mix (dec (read n mem (inp + n * k))) (previous (fun j => read n mem (inp + n * j)) iv k) =
        unchain mix dec (fun j => read n start (inp + n * j)) iv k := by
      rw [unchain, cipher k hk, previous_congr iv k fun i hi => cipher i (by omega)]
    rw [decryptBlockAt, value]
    by_cases same : j = k
    · rw [same, read_write]
    · rw [read_write_of_apart]
      · exact h.blocks j hj ((grow j hj here).resolve_right same)
      · rcases Nat.lt_or_gt_of_ne same with lt | gt
        · have gap := block_le (n := n) lt
          omega
        · have gap := block_le (n := n) gt
          omega
  frame a ha := by
    have inside := block_le (n := n) hk
    rw [decryptBlockAt, write_of_not_mem _ _ _ _ (by omega), h.frame a ha]

theorem Scattered.eq_decryptLoop (pos : 0 < n)
    (apart : inp + n * count ≤ out ∨ out + n * count ≤ inp)
    (h : Scattered mix dec inp out iv start count done mem) (all : ∀ k < count, done k) :
    mem = (decryptLoop mix dec inp out (n * count) ⟨start, iv⟩).mem := by
  have loop :=
    decryptLoop_after mix dec (Or.inr apart : SameOrApart inp out (n * count)) start pos iv
  funext a
  by_cases inside : out ≤ a ∧ a < out + n * count
  · have same :=
      agree_of_blocks pos (fun k hk => (h.blocks k hk (all k hk)).trans (loop.done k hk).symm)
      (a - out) (by omega)
    rwa [Nat.add_sub_of_le inside.1] at same
  · rw [h.frame a (by omega), loop.frame a (by omega)]

end AnyOrder

end SystemsLab.CipherChaining
