import SystemsLab.General.CountedLoop

/-! A flat memory and the buffers in it. A buffer is an address and a length;
reading one gives a vector, writing one changes no other address. Two buffers
of one length are safe for a forward loop when they coincide or do not meet. -/

namespace SystemsLab.Buffer
open CountedLoop

abbrev Memory (α : Type*) := Nat → α

section Blocks

variable {α : Type*} {n : Nat}

def read (n : Nat) (mem : Memory α) (p : Nat) : Vector α n := Vector.ofFn fun i => mem (p + i)

def write (mem : Memory α) (p : Nat) (v : Vector α n) : Memory α := fun a =>
  if h : p ≤ a ∧ a < p + n then v[a - p] else mem a

@[simp] theorem getElem_read (mem : Memory α) (p i : Nat) (h : i < n) :
    (read n mem p)[i] = mem (p + i) := by
  simp only [read, Vector.getElem_ofFn]

theorem read_congr {mem mem' : Memory α} {p q : Nat}
    (h : ∀ i < n, mem (p + i) = mem' (q + i)) : read n mem p = read n mem' q := by
  apply Vector.ext
  intro i hi
  rw [getElem_read, getElem_read, h i hi]

theorem write_of_mem (mem : Memory α) (p i : Nat) (v : Vector α n) (h : i < n) :
    write mem p v (p + i) = v[i] := by
  rw [write, dif_pos ⟨by omega, by omega⟩]
  congr 1
  omega

theorem write_of_not_mem (mem : Memory α) (p a : Nat) (v : Vector α n) (h : a < p ∨ p + n ≤ a) :
    write mem p v a = mem a := by
  rw [write, dif_neg (by omega)]

@[simp] theorem read_write (mem : Memory α) (p : Nat) (v : Vector α n) :
    read n (write mem p v) p = v := by
  apply Vector.ext
  intro i hi
  rw [getElem_read, write_of_mem mem p i v hi]

theorem read_write_of_apart (mem : Memory α) (p q : Nat) (v : Vector α n)
    (h : p + n ≤ q ∨ q + n ≤ p) : read n (write mem p v) q = read n mem q :=
  read_congr fun i hi => write_of_not_mem mem p (q + i) v (by omega)

end Blocks

/-! ## Places of blocks -/

theorem block_le {n k j : Nat} (lt : k < j) : n * k + n ≤ n * j := by
  rw [← Nat.mul_succ]
  exact Nat.mul_le_mul_left n lt

theorem row_le {n s t : Nat} (lt : s < t) : s * n + n ≤ t * n := by
  rw [← Nat.succ_mul]
  exact Nat.mul_le_mul_right n lt

/-! ## Two buffers of one length -/

/-- The buffers at `p` and `q` are the same one, or have no byte in common. -/
def SameOrApart (p q len : Nat) : Prop := p = q ∨ p + len ≤ q ∨ q + len ≤ p

theorem SameOrApart.block {p q n count k j : Nat} (h : SameOrApart p q (n * count))
    (hk : k < j) (hj : j < count) : q + n * k + n ≤ p + n * j ∨ p + n * j + n ≤ q + n * k := by
  have kj := block_le (n := n) hk
  have jc := block_le (n := n) hj
  rcases h with rfl | low | high <;> omega

theorem agree_of_blocks {α : Type*} {n count : Nat} (pos : 0 < n) {mem mem' : Memory α} {p q : Nat}
    (h : ∀ k < count, read n mem (p + n * k) = read n mem' (q + n * k)) (i : Nat)
    (hi : i < n * count) : mem (p + i) = mem' (q + i) := by
  have below : i % n < n := Nat.mod_lt i pos
  have entry := congrArg (fun v : Vector α n => v[i % n]) (h (i / n) (Nat.div_lt_of_lt_mul hi))
  simp only [getElem_read] at entry
  rwa [Nat.add_assoc, Nat.add_assoc, Nat.div_add_mod] at entry

/-! ## Block by block -/

section MapBlocks

variable {α : Type*} {n : Nat} (f : Vector α n → Vector α n) {inp out count : Nat}

def mapBlocks (inp out count : Nat) (mem : Memory α) : Memory α :=
  Nat.fold count (fun i _ mem => write mem (out + i * n) (f (read n mem (inp + i * n)))) mem

/-- Also in place, every block is the function of the original block. -/
theorem mapBlocks_spec (apart : SameOrApart inp out (n * count)) (mem : Memory α) :
    (∀ k < count, read n (mapBlocks f inp out count mem) (out + n * k) =
        f (read n mem (inp + n * k))) ∧
      ∀ a, a < out ∨ out + n * count ≤ a → mapBlocks f inp out count mem a = mem a := by
  -- blocks below `i` are written, the inputs from `i` on are still the original ones
  have inv := fold_inv (fun i (m : Memory α) =>
      (∀ k < i, read n m (out + n * k) = f (read n mem (inp + n * k))) ∧
      (∀ k, i ≤ k → k < count → read n m (inp + n * k) = read n mem (inp + n * k)) ∧
      ∀ a, a < out ∨ out + n * count ≤ a → m a = mem a) count
    (fun i _ mem => write mem (out + i * n) (f (read n mem (inp + i * n)))) mem
    ⟨fun k hk => absurd hk (Nat.not_lt_zero k), fun _ _ _ => rfl, fun _ _ => rfl⟩ (by
      rintro i hi m ⟨done, todo, frame⟩
      rw [Nat.mul_comm i n, todo i (Nat.le_refl i) hi]
      refine ⟨fun k hk => ?_, fun k hk hc => ?_, fun a ha => ?_⟩
      · rcases Nat.lt_succ_iff_lt_or_eq.mp hk with lt | rfl
        · have gap := block_le (n := n) lt
          rw [read_write_of_apart _ _ _ _ (by omega), done k lt]
        · rw [read_write]
      · rw [read_write_of_apart _ _ _ _ (apart.block hk hc), todo k (by omega) hc]
      · have inside := block_le (n := n) hi
        rw [write_of_not_mem _ _ _ _ (by omega), frame a ha])
  exact ⟨inv.1, inv.2.2⟩

end MapBlocks

end SystemsLab.Buffer
