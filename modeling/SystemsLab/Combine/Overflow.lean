import SystemsLab.Combine.Versions
import SystemsLab.General.CheckedInt
import Mathlib.Algebra.Order.BigOperators.Group.Finset

/-! Signed overflow in the sums of a vector. The additions of `int` elements are followed in exact
arithmetic: a run has no overflow when the result of each of its additions is an `int`. -/

namespace SystemsLab.Combine
open Recorded CheckedInt

def exact (v : VecRec (BitVec 32)) : VecRec Int := ⟨v.len, fun i => (v.data i).toInt⟩

def NoOverflow {β : Type} (r : Run (Event Int) β) : Prop := ∀ x ∈ sums r, InInt x

instance {β : Type} (r : Run (Event Int) β) : Decidable (NoOverflow r) :=
  inferInstanceAs (Decidable (∀ x ∈ sums r, InInt x))

/-- The running sums of every `ways`-th element, and the sums of the first of their totals. -/
structure LanesFit (v : VecRec Int) (ways : Nat) : Prop where
  running : ∀ j < ways, ∀ n ≤ v.len / ways,
    InInt (∑ q ∈ Finset.range n, v.data (ways * q + j))
  totals : ∀ k ≤ ways,
    InInt (∑ j ∈ Finset.range k, ∑ q ∈ Finset.range (v.len / ways), v.data (ways * q + j))

section Sums

variable {α β : Type}

theorem mem_sums {r : Run (Event α) β} {x : α} : x ∈ sums r ↔ .sum x ∈ r.events := by
  rw [sums, List.mem_filterMap]
  constructor
  · rintro ⟨event, mem, found⟩
    cases event with
    | read i => cases found
    | sum y =>
      cases found
      exact mem
  · exact fun mem => ⟨_, mem, rfl⟩

variable [AddCommMonoid α] {v : VecRec α} {ways n lo : Nat} {x : α}

theorem mem_tailEvents : .sum x ∈ tailEvents v lo n ↔ ∃ t < n, x = total v (lo + t + 1) := by
  simp [tailEvents]

theorem mem_laneEvents :
    .sum x ∈ laneEvents v ways n ↔ ∃ q < n, ∃ j < ways, x = laneSum v ways j (q + 1) := by
  simp [laneEvents, iterationEvents, Fin.exists_iff]

theorem mem_prefixSums_laneSums : x ∈ prefixSums (laneSums v ways n).toList ↔
    ∃ k, k + 1 < ways ∧ x = ∑ j ∈ Finset.range (k + 2), laneSum v ways j n := by
  have first : ∀ k, k + 1 < ways → ((laneSums v ways n).toList.take (k + 2)).sum =
      ∑ j ∈ Finset.range (k + 2), laneSum v ways j n := by
    intro k lt
    rw [laneSums_toList, ← List.map_take, List.take_range, Nat.min_eq_left lt]
    rfl
  simp only [prefixSums, List.mem_map, List.mem_range, Vector.length_toList, Nat.lt_sub_iff_add_lt]
  constructor
  · rintro ⟨k, lt, rfl⟩
    exact ⟨k, lt, first k lt⟩
  · rintro ⟨k, lt, rfl⟩
    exact ⟨k, lt, first k lt⟩

end Sums

/-! ## Runs without overflow -/

section NoOverflow

variable {v : VecRec Int} {ways : Nat}

theorem inInt_zero : InInt 0 := by decide

theorem noOverflow_combine1 {junk : Int} :
    NoOverflow (combine1 v junk) ↔ ∀ n ≤ v.len, InInt (total v n) := by
  simp only [NoOverflow, mem_sums, combine1_eq, mem_tailEvents, Nat.zero_add]
  constructor
  · intro fits n le
    cases n with
    | zero => exact inInt_zero
    | succ n => exact fits _ ⟨n, le, rfl⟩
  · rintro fits x ⟨t, lt, rfl⟩
    exact fits (t + 1) lt

theorem noOverflow_unrolled (pos : 0 < ways) (prefixes : ∀ n ≤ v.len, InInt (total v n)) :
    NoOverflow (unrolled v ways) ↔ LanesFit v ways := by
  have whole : ways * (v.len / ways) + v.len % ways = v.len := Nat.div_add_mod ..
  simp only [NoOverflow, mem_sums, unrolled_eq v ways pos, List.mem_append, mem_laneEvents,
    mem_tailEvents, List.mem_map, Event.sum.injEq, exists_eq_right, mem_prefixSums_laneSums]
  constructor
  · intro fits
    have running : ∀ j < ways, ∀ n ≤ v.len / ways, InInt (laneSum v ways j n) := by
      intro j way n le
      cases n with
      | zero => exact inInt_zero
      | succ n => exact fits _ (.inl ⟨n, le, j, way, rfl⟩)
    refine ⟨running, fun k le => ?_⟩
    match k with
    | 0 => exact inInt_zero
    | 1 =>
      rw [Finset.sum_range_one]
      exact running 0 pos _ le_rfl
    | k + 2 => exact fits _ (.inr (.inl ⟨k, le, rfl⟩))
  · rintro fits x (⟨q, lt, j, way, rfl⟩ | ⟨k, lt, rfl⟩ | ⟨t, lt, rfl⟩)
    · exact fits.running j way (q + 1) lt
    · exact fits.totals (k + 2) lt
    · exact prefixes _ (by omega)

theorem sum_laneSum_bounds (nonneg : ∀ i < v.len, 0 ≤ v.data i) {n : Nat}
    (inside : n ≤ v.len / ways) {lanes : Finset Nat} (part : lanes ⊆ Finset.range ways) :
    0 ≤ ∑ j ∈ lanes, laneSum v ways j n ∧ ∑ j ∈ lanes, laneSum v ways j n ≤ total v v.len := by
  have whole : ways * n ≤ v.len := (Nat.mul_le_mul_left ways inside).trans (Nat.mul_div_le ..)
  have lane : ∀ j ∈ Finset.range ways, 0 ≤ laneSum v ways j n := by
    intro j way
    apply Finset.sum_nonneg
    intro q lt
    apply nonneg
    rw [Finset.mem_range] at way lt
    calc ways * q + j < ways * (q + 1) := by rw [Nat.mul_succ]; omega
      _ ≤ ways * n := Nat.mul_le_mul_left ways lt
      _ ≤ v.len := whole
  refine ⟨Finset.sum_nonneg fun j mem => lane j (part mem), ?_⟩
  calc ∑ j ∈ lanes, laneSum v ways j n
      ≤ ∑ j ∈ Finset.range ways, laneSum v ways j n :=
        Finset.sum_le_sum_of_subset_of_nonneg part fun j mem _ => lane j mem
    _ = total v (ways * n) := (total_eq_sum_laneSum v ways n).symm
    _ ≤ total v v.len :=
        Finset.sum_le_sum_of_subset_of_nonneg (Finset.range_mono whole) fun i mem _ =>
          nonneg i (Finset.mem_range.mp mem)

theorem lanesFit_of_sign (fits : InInt (total v v.len))
    (sign : (∀ i < v.len, 0 ≤ v.data i) ∨ ∀ i < v.len, v.data i ≤ 0) : LanesFit v ways := by
  have fit : ∀ n ≤ v.len / ways, ∀ lanes ⊆ Finset.range ways,
      InInt (∑ j ∈ lanes, laneSum v ways j n) := by
    intro n inside lanes part
    obtain nonneg | nonpos := sign
    · have bounds := sum_laneSum_bounds nonneg inside part
      constructor <;> omega
    · have bounds := sum_laneSum_bounds (v := ⟨v.len, fun i => -v.data i⟩)
        (fun i lt => Int.neg_nonneg.mpr (nonpos i lt)) inside part
      simp only [total, laneSum, Finset.sum_neg_distrib] at bounds fits ⊢
      constructor <;> omega
  constructor
  · intro j way n inside
    have single := fit n inside {j} (Finset.singleton_subset_iff.mpr (Finset.mem_range.mpr way))
    rw [Finset.sum_singleton] at single
    exact single
  · exact fun k le => fit _ le_rfl _ (Finset.range_mono le)

end NoOverflow

/-! ## The versions on 32-bit elements -/

section Exact

variable {v : VecRec (BitVec 32)}

theorem total_exact (n : Nat) : BitVec.ofInt 32 (total (exact v) n) = total v n := by
  have sum : Int.castRingHom (BitVec 32) (total (exact v) n) = total v n := by
    rw [total, map_sum]
    exact Finset.sum_congr rfl fun i _ => BitVec.ofInt_toInt
  exact sum

theorem combine1_exact {junk : Int} {word : BitVec 32}
    (fits : NoOverflow (combine1 (exact v) junk)) :
    (combine1 v word).value.toInt = (combine1 (exact v) junk).value := by
  have inside := noOverflow_combine1.mp fits v.len le_rfl
  rw [combine1_eq, combine1_eq, ← total_exact, BitVec.toInt_ofInt]
  exact Int.bmod_eq_of_le (by simpa using inside.1) (by simpa using inside.2)

end Exact

/-- Where `combine1` has no overflow, an unrolled version has none exactly if the sums of its
accumulators fit. With elements of one sign they do. -/
theorem unrolled_noOverflow_iff (v : VecRec (BitVec 32)) (junk : Int)
    (fits : NoOverflow (combine1 (exact v) junk)) :
    (NoOverflow (combineOptimized2 (exact v)) ↔ LanesFit (exact v) 4) ∧
    (NoOverflow (combineOptimized3 (exact v)) ↔ LanesFit (exact v) 4) ∧
    (NoOverflow (combineOptimized4 (exact v)) ↔ LanesFit (exact v) 8) ∧
    ((∀ i < v.len, 0 ≤ (v.data i).toInt) ∨ (∀ i < v.len, (v.data i).toInt ≤ 0) →
      LanesFit (exact v) 4 ∧ LanesFit (exact v) 8) := by
  have prefixes := noOverflow_combine1.mp fits
  rw [combineOptimized3_eq]
  refine ⟨noOverflow_unrolled (by decide) prefixes, noOverflow_unrolled (by decide) prefixes,
    noOverflow_unrolled (by decide) prefixes, fun sign => ?_⟩
  have whole := prefixes v.len le_rfl
  exact ⟨lanesFit_of_sign whole sign, lanesFit_of_sign whole sign⟩

theorem unrolled_noOverflow_iff_ones :
    let ones : VecRec (BitVec 32) := ⟨9, fun _ => 1⟩
    NoOverflow (combine1 (exact ones) 0) ∧ LanesFit (exact ones) 4 ∧ LanesFit (exact ones) 8 ∧
      NoOverflow (combineOptimized2 (exact ones)) ∧ NoOverflow (combineOptimized3 (exact ones)) ∧
      NoOverflow (combineOptimized4 (exact ones)) := by
  intro ones
  have free : NoOverflow (combine1 (exact ones) 0) := by decide
  obtain ⟨two, three, four, sign⟩ := unrolled_noOverflow_iff ones 0 free
  obtain ⟨lanes4, lanes8⟩ := sign (.inl (by decide))
  exact ⟨free, lanes4, lanes8, two.mpr lanes4, three.mpr lanes4, four.mpr lanes8⟩

def mixedSigns : VecRec (BitVec 32) where
  len := 16
  data i := if i = 0 then 0x7fffffff else if i = 1 then 0x80000001
    else if i = 4 ∨ i = 8 then 1 else 0

theorem mixedSigns_overflow : NoOverflow (combine1 (exact mixedSigns) 0) ∧
    ¬NoOverflow (combineOptimized2 (exact mixedSigns)) ∧
    ¬NoOverflow (combineOptimized3 (exact mixedSigns)) ∧
    ¬NoOverflow (combineOptimized4 (exact mixedSigns)) := by
  decide +kernel

end SystemsLab.Combine
