import SystemsLab.General.StreamMachine

/-! A block machine that is fed pieces of any length. Elements that do not fill a block wait
in a cache; a machine that holds back keeps a full last block there as well, because
only the end of the stream decides what becomes of it. However the stream is cut, the
output and the final state are those of one piece. -/

namespace SystemsLab.BlockStream
open StreamMachine

def kept (n : Nat) (hold : Bool) (len : Nat) : Nat :=
  if hold = true ∧ len ≠ 0 ∧ len % n = 0 then n else len % n

theorem kept_le (n : Nat) (hold : Bool) (len : Nat) : kept n hold len ≤ len := by
  unfold kept
  split_ifs with full
  · exact Nat.le_of_dvd (by omega) (Nat.dvd_of_mod_eq_zero full.2.2)
  · exact Nat.mod_le len n

theorem kept_mod (n : Nat) (hold : Bool) (len : Nat) : kept n hold len % n = len % n := by
  unfold kept
  split_ifs with full
  · rw [Nat.mod_self, full.2.2]
  · exact Nat.mod_mod len n

theorem dvd_sub_kept (n : Nat) (hold : Bool) (len : Nat) : n ∣ len - kept n hold len :=
  (Nat.modEq_iff_dvd' (kept_le n hold len)).mp (kept_mod n hold len)

theorem kept_le_unit {n : Nat} (pos : 0 < n) (hold : Bool) (len : Nat) : kept n hold len ≤ n := by
  unfold kept
  split_ifs
  · exact Nat.le_refl n
  · exact Nat.le_of_lt (Nat.mod_lt len pos)

theorem kept_eq_zero {n : Nat} (pos : 0 < n) {hold : Bool} {len : Nat}
    (zero : kept n hold len = 0) : hold = true → len = 0 := by
  intro held
  by_contra some
  unfold kept at zero
  split_ifs at zero with full
  · omega
  · exact full ⟨held, some, zero⟩

theorem kept_kept_add {n : Nat} (pos : 0 < n) (hold : Bool) (len more : Nat) :
    kept n hold (kept n hold len + more) = kept n hold (len + more) := by
  have mod : (kept n hold len + more) % n = (len + more) % n := by
    rw [Nat.add_mod, kept_mod, ← Nat.add_mod]
  rcases Bool.eq_false_or_eq_true hold with held | free
  · have same : kept n hold len + more ≠ 0 ↔ len + more ≠ 0 := by
      have back (zero : kept n hold len = 0) := kept_eq_zero pos zero
      have le := kept_le n hold len
      constructor
      · omega
      · intro some none
        exact some (by have := back (by omega) held; omega)
    unfold kept at mod same ⊢
    simp only [mod, same]
  · have plain (l : Nat) : kept n hold l = l % n := by
      rw [kept, free, if_neg (by simp)]
    rw [plain (kept n hold len + more), mod, plain]

structure Waiting (σ α : Type*) where
  state : σ
  cache : List α

section Updates

variable {σ α : Type*} {n : Nat} (T : Transducer σ α n) (hold : Bool)

/-- One piece: all complete blocks but those held back are processed. -/
def update (w : Waiting σ α) (a : List α) : List α × Waiting σ α :=
  let all := w.cache ++ a
  let done := all.length - kept n hold all.length
  let r := T.feed w.state (all.take done)
  (r.1, ⟨r.2, all.drop done⟩)

def updates (w : Waiting σ α) : List (List α) → List α × Waiting σ α
  | [] => ([], w)
  | a :: pieces =>
    let r := update T hold w a
    let rest := updates r.2 pieces
    (r.1 ++ rest.1, rest.2)

def Settled (n : Nat) (hold : Bool) (w : Waiting σ α) : Prop :=
  kept n hold w.cache.length = w.cache.length

theorem settled_nil (s : σ) : Settled n hold (⟨s, []⟩ : Waiting σ α) := by
  unfold Settled kept
  simp

theorem length_update_cache (w : Waiting σ α) (a : List α) :
    (update T hold w a).2.cache.length = kept n hold (w.cache ++ a).length := by
  have le := kept_le n hold (w.cache ++ a).length
  simp only [update, List.length_drop]
  omega

theorem length_update (w : Waiting σ α) (a : List α) :
    (update T hold w a).1.length = (w.cache ++ a).length - kept n hold (w.cache ++ a).length := by
  have le : (w.cache ++ a).length - kept n hold (w.cache ++ a).length ≤ (w.cache ++ a).length :=
    Nat.sub_le _ _
  have taken : ((w.cache ++ a).take
      ((w.cache ++ a).length - kept n hold (w.cache ++ a).length)).length = _ :=
    List.length_take_of_le le
  have dvd := dvd_sub_kept n hold (w.cache ++ a).length
  rw [← taken] at dvd
  rw [update, T.length_feed _ _ dvd, taken]

theorem update_settled (pos : 0 < n) (w : Waiting σ α) (a : List α) :
    Settled n hold (update T hold w a).2 := by
  unfold Settled
  rw [length_update_cache]
  simpa using kept_kept_add pos hold (w.cache ++ a).length 0

theorem update_nil {w : Waiting σ α} (h : Settled n hold w) : update T hold w [] = ([], w) := by
  unfold Settled at h
  simp only [update, List.append_nil, h, Nat.sub_self, List.take_zero, List.drop_zero, T.feed_nil]

theorem update_waiting {w : Waiting σ α} {a : List α}
    (short : kept n hold (w.cache ++ a).length = (w.cache ++ a).length) :
    update T hold w a = ([], ⟨w.state, w.cache ++ a⟩) := by
  simp only [update, short, Nat.sub_self, List.take_zero, List.drop_zero, T.feed_nil]

theorem update_block {w : Waiting σ α} {a first b : List α} (cut : w.cache ++ a = first ++ b)
    (block : first.length = n) (more : b ≠ [] ∨ hold = false) :
    let r := T.feed w.state first
    let u := update T hold ⟨r.2, []⟩ b
    update T hold w a = (r.1 ++ u.1, u.2) := by
  intro r u
  have keep : kept n hold (n + b.length) = kept n hold b.length := by
    unfold kept
    rw [Nat.add_mod_left]
    refine if_congr (and_congr_right fun held => and_congr_left fun _ => ?_) rfl rfl
    have some : b.length ≠ 0 := by
      intro none
      rcases more with more | free
      · exact more (List.length_eq_zero_iff.mp none)
      · rw [free] at held
        cases held
    exact iff_of_true (by omega) some
  have done : (first ++ b).length - kept n hold (first ++ b).length =
      first.length + (b.length - kept n hold b.length) := by
    have le := kept_le n hold b.length
    rw [List.length_append, block, keep]
    omega
  simp only [update, cut, done, List.take_length_add_append, List.drop_length_add_append,
    T.feed_append _ first _ (by rw [block])]
  rfl

theorem update_update (pos : 0 < n) (w : Waiting σ α) (a b : List α) :
    let first := update T hold w a
    let second := update T hold first.2 b
    update T hold w (a ++ b) = (first.1 ++ second.1, second.2) := by
  intro first second
  let all := w.cache ++ a
  let done := all.length - kept n hold all.length
  have cached : first.2.cache = all.drop done := rfl
  have le := kept_le n hold all.length
  have rest : (all.drop done ++ b).length = kept n hold all.length + b.length := by
    rw [List.length_append, List.length_drop]
    omega
  have total : w.cache ++ (a ++ b) = all.take done ++ (all.drop done ++ b) := by
    rw [← List.append_assoc, ← List.append_assoc, List.take_append_drop]
  have taken : (all.take done).length = done := List.length_take_of_le (Nat.sub_le _ _)
  have dvd : n ∣ (all.take done).length := by
    rw [taken]
    exact dvd_sub_kept n hold all.length
  have count : (all.take done ++ (all.drop done ++ b)).length -
      kept n hold (all.take done ++ (all.drop done ++ b)).length =
      (all.take done).length +
        ((all.drop done ++ b).length - kept n hold (all.drop done ++ b).length) := by
    have same : (all.take done ++ (all.drop done ++ b)).length = all.length + b.length := by
      rw [List.length_append, rest, taken]
      omega
    have keep := kept_kept_add pos hold all.length b.length
    have low := kept_le n hold (kept n hold all.length + b.length)
    rw [same, rest, taken, keep]
    omega
  have goal : update T hold w (a ++ b) =
      ((T.feed w.state (all.take done)).1 ++ (update T hold first.2 b).1,
        (update T hold first.2 b).2) := by
    simp only [update, total, count, List.take_length_add_append, List.drop_length_add_append,
      T.feed_append _ _ _ dvd, cached]
    rfl
  exact goal

/-- However a stream is cut into pieces, it is processed as one. -/
theorem updates_eq (pos : 0 < n) {w : Waiting σ α} (h : Settled n hold w)
    (pieces : List (List α)) : updates T hold w pieces = update T hold w pieces.flatten := by
  induction pieces generalizing w with
  | nil => exact (update_nil T hold h).symm
  | cons a pieces ih =>
    rw [updates, ih (update_settled T hold pos w a), List.flatten_cons]
    exact (update_update T hold pos w a pieces.flatten).symm

end Updates

/-! ## The end of a stream -/

/-- How a stream of blocks of `n` elements ends: `pad` fills what is left of a message, `unpad`
takes it out of a last block, and `hold` says whether there always is one to take it out of. -/
structure Padding (α : Type*) (n : Nat) where
  hold : Bool
  pad : List α → Option (List α)
  unpad : List α → Option (List α)
  pad_block : ∀ a b, a.length < n → pad a = some b → hold = true → b.length = n
  pad_free : ∀ a b, a.length < n → pad a = some b → hold = false → b = a ∧ n ∣ a.length
  unpad_nil : unpad [] = some []

section Streams

variable {σ α : Type*} {n : Nat} (P : Padding α n) (E D : Transducer σ α n)

/-- Encryption pads at the end; it never holds a block back. -/
def encrypt (s : σ) (pieces : List (List α)) : Option (List α) :=
  let r := updates E false ⟨s, []⟩ pieces
  (P.pad r.2.cache).map fun tail => r.1 ++ (E.feed r.2.state tail).1

def decrypt (s : σ) (pieces : List (List α)) : Option (List α) :=
  let r := updates D P.hold ⟨s, []⟩ pieces
  if n ∣ r.2.cache.length then
    (P.unpad (D.feed r.2.state r.2.cache).1).map fun tail => r.1 ++ tail
  else none

def front (n : Nat) (plain : List α) : List α := plain.take (plain.length - plain.length % n)

def rest (n : Nat) (plain : List α) : List α := plain.drop (plain.length - plain.length % n)

theorem front_append_rest (plain : List α) : front n plain ++ rest n plain = plain :=
  List.take_append_drop _ _

theorem length_rest (plain : List α) : (rest n plain).length = plain.length % n := by
  have le := Nat.mod_le plain.length n
  simp only [rest, List.length_drop]
  omega

theorem dvd_length_front (plain : List α) : n ∣ (front n plain).length := by
  rw [front, List.length_take_of_le (Nat.sub_le _ _)]
  exact Nat.dvd_sub_mod plain.length

theorem encrypt_eq (pos : 0 < n) (s : σ) (pieces : List (List α)) :
    encrypt P E s pieces = (P.pad (rest n pieces.flatten)).map fun tail =>
      (E.feed s (front n pieces.flatten ++ tail)).1 := by
  rw [encrypt, updates_eq E false pos (settled_nil false s)]
  have feeds (tail : List α) := E.feed_append s (front n pieces.flatten) tail
    (dvd_length_front pieces.flatten)
  simp only [feeds]
  simp [update, kept, front, rest]

theorem decrypt_eq (pos : 0 < n) (s : σ) (pieces : List (List α)) :
    let c := pieces.flatten
    let done := c.length - kept n P.hold c.length
    decrypt P D s pieces = if n ∣ c.length then
      (P.unpad (D.feed (D.feed s (c.take done)).2 (c.drop done)).1).map
        fun tail => (D.feed s (c.take done)).1 ++ tail
      else none := by
  intro c done
  have dvd : n ∣ (c.drop done).length ↔ n ∣ c.length := by
    have le := kept_le n P.hold c.length
    have length : (c.drop done).length = kept n P.hold c.length := by
      rw [List.length_drop]
      omega
    rw [length, Nat.dvd_iff_mod_eq_zero, kept_mod, ← Nat.dvd_iff_mod_eq_zero]
  rw [decrypt, updates_eq D P.hold pos (settled_nil P.hold s)]
  exact if_congr dvd rfl rfl

theorem decrypt_of_block (pos : 0 < n) (held : P.hold = true) (s : σ) {pieces : List (List α)}
    {c last : List α} (cut : pieces.flatten = c ++ last) (whole : n ∣ c.length)
    (block : last.length = n) :
    decrypt P D s pieces = (P.unpad (D.feed (D.feed s c).2 last).1).map
      fun tail => (D.feed s c).1 ++ tail := by
  obtain ⟨k, hk⟩ := whole
  have length : (c ++ last).length = n * k + n := by rw [List.length_append, hk, block]
  have full : (n * k + n) % n = 0 := by
    rw [Nat.add_mod_right, Nat.mul_mod_right]
  have keep : kept n P.hold (n * k + n) = n := by
    rw [kept, if_pos ⟨held, by omega, full⟩]
  have done : n * k + n - n = c.length := by omega
  have dvd : n ∣ (c ++ last).length := by
    rw [length]
    exact Nat.dvd_of_mod_eq_zero full
  rw [decrypt_eq P D pos, cut, if_pos dvd]
  simp only [length, keep, done, List.take_left', List.drop_left']

theorem decrypt_of_free (pos : 0 < n) (free : P.hold = false) (s : σ) {pieces : List (List α)}
    (whole : n ∣ pieces.flatten.length) :
    decrypt P D s pieces = some (D.feed s pieces.flatten).1 := by
  have keep : kept n P.hold pieces.flatten.length = 0 := by
    rw [kept, if_neg (by simp [free])]
    exact Nat.mod_eq_zero_of_dvd whole
  rw [decrypt_eq P D pos, if_pos whole]
  simp only [keep, Nat.sub_zero, List.take_length, List.drop_length, D.feed_nil, P.unpad_nil,
    Option.map_some, List.append_nil]

variable {P E D}

theorem decrypt_encrypt (pos : 0 < n) (inverse : E.Inverse D) (held : P.hold = true) (s : σ)
    {plain cipher : List α} {pieces pieces' : List (List α)} (parts : pieces.flatten = plain)
    (parts' : pieces'.flatten = cipher) (done : encrypt P E s pieces = some cipher) :
    decrypt P D s pieces' = ((P.pad (rest n plain)).bind P.unpad).map
      fun tail => front n plain ++ tail := by
  rw [encrypt_eq P E pos, parts] at done
  obtain ⟨tail, padded, rfl⟩ := Option.map_eq_some_iff.mp done
  have short : (rest n plain).length < n := by
    rw [length_rest]
    exact Nat.mod_lt _ pos
  have block : tail.length = n := P.pad_block _ _ short padded held
  have whole := dvd_length_front (n := n) plain
  have cut := E.feed_append s (front n plain) tail whole
  have first := inverse s (front n plain) whole
  have second := inverse (E.feed s (front n plain)).2 tail (by rw [block])
  have length := E.length_feed s (front n plain) whole
  have last := E.length_feed (E.feed s (front n plain)).2 tail (by rw [block])
  rw [cut] at parts'
  rw [decrypt_of_block P D pos held s parts' (length ▸ whole) (last.trans block), first, second,
    padded]
  rfl

theorem decrypt_encrypt_free (pos : 0 < n) (inverse : E.Inverse D) (free : P.hold = false) (s : σ)
    {plain cipher : List α} {pieces pieces' : List (List α)} (parts : pieces.flatten = plain)
    (parts' : pieces'.flatten = cipher) (done : encrypt P E s pieces = some cipher) :
    decrypt P D s pieces' = some plain := by
  rw [encrypt_eq P E pos, parts] at done
  obtain ⟨tail, padded, rfl⟩ := Option.map_eq_some_iff.mp done
  have short : (rest n plain).length < n := by
    rw [length_rest]
    exact Nat.mod_lt _ pos
  obtain ⟨rfl, last⟩ := P.pad_free _ _ short padded free
  have whole : n ∣ plain.length := by
    rw [← front_append_rest (n := n) plain, List.length_append]
    exact Nat.dvd_add (dvd_length_front plain) last
  rw [front_append_rest] at parts'
  rw [decrypt_of_free P D pos free s (by rw [parts', E.length_feed s plain whole]; exact whole),
    parts', inverse s plain whole]

/-- Where `unpad` accepts only what `pad` makes, decryption accepts only what encryption makes. -/
theorem decrypt_iff (pos : 0 < n) (inverse : E.Inverse D) (inverse' : D.Inverse E)
    (held : P.hold = true)
    (exact : ∀ a b, b.length = n → (P.unpad b = some a ↔ a.length < n ∧ P.pad a = some b)) (s : σ)
    {plain cipher : List α} {pieces pieces' : List (List α)} (parts : pieces.flatten = plain)
    (parts' : pieces'.flatten = cipher) (some : cipher ≠ []) :
    decrypt P D s pieces' = .some plain ↔ encrypt P E s pieces = .some cipher := by
  constructor
  · intro accepted
    have whole : n ∣ cipher.length := by
      by_contra part
      rw [decrypt_eq P D pos, parts', if_neg part] at accepted
      cases accepted
    obtain ⟨k, hk⟩ := whole
    have more : k ≠ 0 := by
      rintro rfl
      exact some (List.length_eq_zero_iff.mp (by omega))
    obtain ⟨j, rfl⟩ : ∃ j, k = j + 1 := ⟨k - 1, by omega⟩
    rw [Nat.mul_succ] at hk
    have cut := (List.take_append_drop (n * j) cipher).symm
    have low : (cipher.take (n * j)).length = n * j := List.length_take_of_le (by omega)
    have last : (cipher.drop (n * j)).length = n := by
      rw [List.length_drop]
      omega
    have dvd : n ∣ (cipher.take (n * j)).length := ⟨j, low⟩
    rw [decrypt_of_block P D pos held s (parts'.trans cut) dvd last] at accepted
    obtain ⟨tail, unpadded, joined⟩ := Option.map_eq_some_iff.mp accepted
    have block := D.length_feed (D.feed s (cipher.take (n * j))).2 (cipher.drop (n * j))
      (by rw [last])
    obtain ⟨short, padded⟩ := (exact _ _ (block.trans last)).mp unpadded
    have before := (D.length_feed s (cipher.take (n * j)) dvd).trans low
    have length : plain.length = n * j + tail.length := by
      rw [← joined, List.length_append, before]
    have mod : plain.length - plain.length % n = n * j := by
      rw [length, Nat.mul_add_mod, Nat.mod_eq_of_lt short]
      omega
    have head : front n plain = (D.feed s (cipher.take (n * j))).1 := by
      rw [front, mod, ← joined, List.take_left' before]
    have back : rest n plain = tail := by
      rw [rest, mod, ← joined, List.drop_left' before]
    rw [encrypt_eq P E pos, parts, back, padded, Option.map_some, head,
      E.feed_append _ _ _ ⟨j, before⟩, inverse' s _ dvd,
      inverse' _ _ (by rw [last]), List.take_append_drop]
  · intro made
    have again := decrypt_encrypt pos inverse held s parts parts' made
    rw [encrypt_eq P E pos, parts] at made
    obtain ⟨tail, padded, -⟩ := Option.map_eq_some_iff.mp made
    have short : (rest n plain).length < n := by
      rw [length_rest]
      exact Nat.mod_lt _ pos
    have unpadded := (exact _ _ (P.pad_block _ _ short padded held)).mpr ⟨short, padded⟩
    rw [again, padded, Option.bind_some, unpadded, Option.map_some, front_append_rest]

end Streams

end SystemsLab.BlockStream
