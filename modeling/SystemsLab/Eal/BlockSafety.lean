import SystemsLab.General.StepRuns
import SystemsLab.Eal.Sm4Blocks

/-! What the calls of the block modes may write. Whatever buffers a caller passes and in whatever
order it makes the calls, an update or a final call stays inside of the output that it was
given room for, and the waiting bytes stay inside of their array, unless the padding is
taken away while a full block is held back. -/

namespace SystemsLab.EalBlockSafety
open ByteWord Textbook Buffer CountedLoop StreamMachine BlockStream Sm4OpenHitls EalCipher
open ModesPadding ModesBlockCrypt ModesCipherUpdate ModesBlockModes EalBlockMessages
open Sm4SetKey EalSm4Blocks

variable {κ : Type}

/-! ## The block functions -/

theorem dataXor_frame {width : Nat} (pos : 0 < width) (units : width ∣ 16) (mem : Memory Byte)
    (a : Ptr) (b : Block) (bAt r : Nat) : Frame r 16 mem (dataXor width mem a b bAt r) := by
  rw [dataXor]
  split_ifs with unaligned
  · refine Frame.forLoop (fun i mem' now => ?_) mem
    rw [mem_indices Nat.one_pos] at mem'
    exact (Frame.update now (r + i) _).mono (Nat.le_add_right r i) (by omega)
  · refine Frame.forLoop (fun i mem' now => ?_) mem
    rw [mem_indices pos] at mem'
    have inside : i + width ≤ 16 := by
      obtain ⟨k, hk⟩ := mem'.2.2
      obtain ⟨count, hc⟩ := units
      have lt : k < count := by
        by_contra ge
        have := Nat.mul_le_mul_left width (Nat.le_of_not_lt ge)
        omega
      have := block_le (n := width) lt
      omega
    exact (Frame.write now (r + i) _).mono (Nat.le_add_right r i) (by omega)

theorem cbcSameBlock_frame (p : Nat) (tmp : Block) (r : Memory Byte × Block) :
    Frame p 16 r.1 (cbcSameBlock p tmp r).1 :=
  Frame.fold (fun i hi t => (Frame.update t.1 (p + i) _).mono (Nat.le_add_right p i) (by omega)) r

/-- A block function, on any buffers: it writes whole blocks of its output only, and fails exactly
on parts of blocks. -/
structure Bounded (blockUpdate : BlockUpdate κ) : Prop where
  frame : ∀ ctx mem p out len, Frame out (len / 16 * 16) mem (blockUpdate ctx mem p out len).mem
  ret : ∀ ctx mem p out len, len ≠ 0 →
    ((blockUpdate ctx mem p out len).ret = cryptSuccess ↔ 16 ∣ len)

variable (m : EalSymMethod κ)

theorem errInputLen_ne : cryptModeErrInputLen ≠ cryptSuccess := by decide

theorem modesEcbCrypt_bounded (enc : Bool) :
    Bounded fun ctx mem p out len => modesEcbCrypt m ctx mem p out len enc where
  frame ctx mem p out len := by
    rw [modesEcbCrypt]
    split_ifs
    · exact Frame.refl out _ mem
    all_goals
      refine fold_inv (fun _ now => Frame out (len / 16 * 16) mem now) (len / 16) _ mem
        (Frame.refl out _ mem) fun i hi now inv => inv.trans ?_
      exact (Frame.write now (out + 16 * i) _).mono (Nat.le_add_right _ _) (by omega)
  ret ctx mem p out len some := by
    rw [modesEcbCrypt, if_neg some]
    show (if 0 < len % 16 then cryptModeErrInputLen else cryptSuccess) = cryptSuccess ↔ 16 ∣ len
    split_ifs with part
    · exact iff_of_false errInputLen_ne (by omega)
    · exact iff_of_true rfl (by omega)

theorem modesCbcEncrypt_bounded : Bounded (modesCbcEncrypt m) where
  frame ctx mem p out len := by
    rw [modesCbcEncrypt]
    split_ifs
    · exact Frame.refl out _ mem
    · refine Frame.fold (fun i hi t => ?_) (mem, ivPtr ctx)
      exact (Frame.write t.1 (out + 16 * i) _).mono (Nat.le_add_right _ _) (by omega)
  ret ctx mem p out len some := by
    rw [modesCbcEncrypt]
    split_ifs with part
    · exact iff_of_false errInputLen_ne (by omega)
    · exact iff_of_true rfl (by omega)

theorem modesCbcDecrypt_bounded : Bounded (modesCbcDecrypt m) where
  frame ctx mem p out len := by
    rw [modesCbcDecrypt]
    split_ifs
    · exact Frame.refl out _ mem
    · refine Frame.fold (fun i hi t => ?_) (mem, ivPtr ctx)
      exact (dataXor_frame (by decide) (by decide) t.1 _ _ _ (out + 16 * i)).mono
        (Nat.le_add_right _ _) (by omega)
    · refine Frame.fold (fun i hi t => ?_) (mem, ctx.iv)
      exact (cbcSameBlock_frame (out + 16 * i) _ t).mono (Nat.le_add_right _ _) (by omega)
  ret ctx mem p out len some := by
    rw [modesCbcDecrypt]
    split_ifs with part
    · exact iff_of_false errInputLen_ne (by omega)
    all_goals exact iff_of_true rfl (by omega)

theorem blockUpdate_bounded (mode : BlockMode) (enc : Bool) :
    Bounded (mode.blockUpdate m enc) := by
  cases mode with
  | ecb => cases enc with
    | false => exact modesEcbCrypt_bounded m false
    | true => exact modesEcbCrypt_bounded m true
  | cbc => cases enc with
    | false => exact modesCbcDecrypt_bounded m
    | true => exact modesCbcEncrypt_bounded m

/-! ## Updates and final calls -/

/-- The waiting bytes: at most a block, a full one only while padding may have to be taken out of
it, and nothing written behind their array. -/
structure Safe (beyond : Memory Byte) (ctx : ModesCipherCtx κ) : Prop where
  dataLen : ctx.dataLen ≤ 16
  encrypts : ctx.enc = true → ctx.dataLen < 16
  held : ctx.pad = .none → ctx.dataLen < 16
  kind : ifXts ctx.algId = false
  array : Frame 0 ealMaxBlockLength beyond ctx.data

structure Confined (beyond mem : Memory Byte) (out outLen : Nat)
    (r : UpdateResult (ModesCipherCtx κ)) : Prop where
  safe : Safe beyond r.ctx
  frame : Frame out outLen mem r.mem
  outLen : r.outLen ≤ outLen

section Steps

variable {blockUpdate : BlockUpdate κ} (bounded : Bounded blockUpdate) {beyond : Memory Byte}

theorem modeCheckUpdateParam_success {cacheLen inLen outLen : Nat} (small : cacheLen ≤ 16)
    (word : inLen < 2 ^ 32) (ok : modeCheckUpdateParam 16 cacheLen inLen outLen = cryptSuccess) :
    (inLen + cacheLen) / 16 * 16 ≤ outLen := by
  simp only [modeCheckUpdateParam] at ok
  split_ifs at ok with wrapped short
  · exact absurd ok (by decide)
  · exact absurd ok (by decide)
  · omega

include bounded in
theorem modesCipherUpdateRest_safe {c : CacheResult κ} (safe : Safe beyond c.ctx) :
    let r := modesCipherUpdateRest blockUpdate c
    Safe beyond r.ctx ∧ Frame c.out (c.inLen / 16 * 16) c.mem r.mem ∧
      r.outLen ≤ c.outLen + c.inLen / 16 * 16 := by
  intro r
  by_cases more : c.inLen = 0
  · have result : r = ⟨cryptSuccess, c.ctx, c.mem, c.outLen⟩ := if_pos more
    rw [result]
    exact ⟨safe, Frame.refl _ _ _, Nat.le_add_right _ _⟩
  obtain ⟨left, len, hleft, hlen, whole, held⟩ : ∃ left len,
      (if 0 < c.inLen - c.inLen % 16 ∧ c.ctx.enc = false ∧ c.ctx.pad ≠ .none ∧ c.inLen % 16 = 0
        then 16 else c.inLen % 16) = left ∧
      (if 0 < c.inLen - c.inLen % 16 ∧ c.ctx.enc = false ∧ c.ctx.pad ≠ .none ∧ c.inLen % 16 = 0
        then c.inLen - c.inLen % 16 - 16 else c.inLen - c.inLen % 16) = len ∧ 16 ∣ len ∧
      (left < 16 ∨ left = 16 ∧ c.ctx.enc = false ∧ c.ctx.pad ≠ .none) := by
    refine ⟨_, _, rfl, rfl, ?_, ?_⟩
    · split_ifs <;> omega
    · split_ifs with back
      · exact Or.inr ⟨rfl, back.2.1, back.2.2.1⟩
      · exact Or.inl (Nat.mod_lt _ (by decide))
  have le : len ≤ c.inLen / 16 * 16 := by
    rw [← hlen]
    split_ifs <;> omega
  obtain ⟨b, hb⟩ : ∃ b : BlockResult κ, b = if 0 < len then
    blockUpdate c.ctx.commonCtx c.mem (.shared c.inp) c.out len
    else ⟨cryptSuccess, c.ctx.commonCtx, c.mem⟩ := ⟨_, rfl⟩
  have ok : b.ret = cryptSuccess := by
    rw [hb]
    split_ifs with some
    · exact (bounded.ret _ _ _ _ _ (by omega)).mpr whole
    · rfl
  have inside : Frame c.out (c.inLen / 16 * 16) c.mem b.mem := by
    rw [hb]
    split_ifs with some
    · exact (bounded.frame _ _ _ _ _).mono (Nat.le_refl _) (by omega)
    · exact Frame.refl _ _ _
  have result : r = ⟨cryptSuccess, if 0 < left then { c.ctx with
      commonCtx := b.ctx
      data := store c.ctx.data 0 (load b.mem (c.inp + len) left)
      dataLen := left } else { c.ctx with commonCtx := b.ctx }, b.mem, c.outLen + len⟩ := by
    show modesCipherUpdateRest blockUpdate c = _
    rw [modesCipherUpdateRest, if_neg more]
    simp only [hleft, hlen, ← hb, ok, ne_eq, not_true_eq_false, if_false]
  rw [result]
  refine ⟨?_, inside, Nat.add_le_add_left le _⟩
  show Safe beyond (if 0 < left then _ else _)
  split_ifs with some
  · refine ⟨?_, fun enc => ?_, fun none => ?_, safe.kind, safe.array.trans ?_⟩
    · show left ≤ 16
      omega
    · show left < 16
      rcases held with less | ⟨-, dec, -⟩
      · exact less
      · have enc : c.ctx.enc = true := enc
        rw [dec] at enc
        cases enc
    · show left < 16
      rcases held with less | ⟨-, -, padded⟩
      · exact less
      · exact absurd none padded
    · refine (Frame.store c.ctx.data 0 _).mono (Nat.le_refl 0) ?_
      rw [length_load, ealMaxBlockLength]
      omega
  · exact ⟨safe.dataLen, safe.encrypts, safe.held, safe.kind, safe.array⟩

include bounded in
theorem modesCipherUpdate_safe {ctx : ModesCipherCtx κ} (safe : Safe beyond ctx) (mem : Memory Byte)
    {inp inLen out outLen : Nat} (word : inLen < 2 ^ 32) :
    Confined beyond mem out outLen
      (modesCipherUpdate blockUpdate ctx mem inp inLen out outLen) := by
  obtain ⟨r, hr⟩ : ∃ r, r = modesCipherUpdate blockUpdate ctx mem inp inLen out outLen := ⟨_, rfl⟩
  rw [← hr]
  by_cases refused : modeCheckUpdateParam 16 ctx.dataLen inLen outLen ≠ cryptSuccess
  · have result : r = ⟨_, ctx, mem, outLen⟩ := hr.trans (if_pos refused)
    rw [result]
    exact ⟨safe, Frame.refl _ _ _, Nat.le_refl _⟩
  have room := modeCheckUpdateParam_success safe.dataLen word (not_not.mp refused)
  obtain ⟨padding, hp⟩ : ∃ padding, padding = cachePadding ctx inLen := ⟨_, rfl⟩
  obtain ⟨le, total, -, -⟩ := cachePadding_spec ctx inLen safe.dataLen
  rw [← hp] at le total
  obtain ⟨ctx', hctx⟩ : ∃ ctx', ctx' = fillCache ctx mem inp padding := ⟨_, rfl⟩
  have length : ctx'.dataLen = ctx.dataLen + padding := by rw [hctx]; rfl
  have array : Frame 0 ealMaxBlockLength beyond ctx'.data := by
    rw [hctx]
    refine safe.array.trans ((Frame.store ctx.data ctx.dataLen _).mono (Nat.zero_le _) ?_)
    rw [length_load, ealMaxBlockLength]
    omega
  have same : ctx'.enc = ctx.enc ∧ ctx'.pad = ctx.pad ∧ ctx'.algId = ctx.algId := by
    rw [hctx]
    exact ⟨rfl, rfl, rfl⟩
  have source : r = finish blockUpdate
      (processCache blockUpdate ctx' mem (inp + padding) (inLen - padding) out 0) := by
    have filled : (if padding ≠ 0 then fillCache ctx mem inp padding else ctx) = ctx' := by
      split_ifs with some
      · exact hctx.symm
      · rw [hctx, not_not.mp some, fillCache_zero]
    rw [hr, modesCipherUpdate, if_neg refused]
    simp only [modesCipherUpdateCache, ← hp, filled, finish]
  suffices h : ∃ c, processCache blockUpdate ctx' mem (inp + padding) (inLen - padding) out 0 = c ∧
      c.ret = cryptSuccess ∧ Safe beyond c.ctx ∧ out ≤ c.out ∧
      c.out + c.inLen / 16 * 16 ≤ out + outLen ∧ Frame out outLen mem c.mem ∧
      c.outLen + c.inLen / 16 * 16 ≤ outLen by
    obtain ⟨c, cache, ok, keep, low, high, inside, size⟩ := h
    have rest := modesCipherUpdateRest_safe bounded keep
    have result : r = modesCipherUpdateRest blockUpdate c := by
      rw [source, cache, finish, if_neg (not_not.mpr ok)]
    rw [result]
    exact ⟨rest.1, inside.trans (rest.2.1.mono low (by omega)), by omega⟩
  rw [processCache]
  split_ifs with part last
  · have less : ctx'.dataLen < 16 := by omega
    refine ⟨_, rfl, rfl, ⟨Nat.le_of_lt less, fun _ => less, fun _ => less, ?_, array⟩,
      Nat.le_refl _, ?_, Frame.refl _ _ _, ?_⟩
    · show ifXts ctx'.algId = false
      rw [same.2.2]
      exact safe.kind
    · show out + (inLen - padding) / 16 * 16 ≤ out + outLen
      omega
    · show 0 + (inLen - padding) / 16 * 16 ≤ outLen
      omega
  · obtain ⟨dec, none, padded⟩ := last
    refine ⟨_, rfl, rfl, ⟨?_, fun enc => ?_, fun free => absurd free padded, ?_, array⟩,
      Nat.le_refl _, ?_, Frame.refl _ _ _, ?_⟩
    · show ctx'.dataLen ≤ 16
      omega
    · have enc : ctx'.enc = true := enc
      rw [dec] at enc
      cases enc
    · show ifXts ctx'.algId = false
      rw [same.2.2]
      exact safe.kind
    · show out + (inLen - padding) / 16 * 16 ≤ out + outLen
      omega
    · show 0 + (inLen - padding) / 16 * 16 ≤ outLen
      omega
  · have full : ctx'.dataLen = 16 := not_not.mp part
    have ok := (bounded.ret ctx'.commonCtx mem (.own ctx'.data ctx'.dataAt) out 16
      (by decide)).mpr (dvd_refl 16)
    have inside := bounded.frame ctx'.commonCtx mem (.own ctx'.data ctx'.dataAt) out 16
    simp only [ok, ne_eq, not_true_eq_false, if_false]
    refine ⟨_, rfl, rfl, ⟨Nat.zero_le _, fun _ => Nat.succ_pos _, fun _ => Nat.succ_pos _, ?_,
      array⟩, Nat.le_add_right _ _, ?_, inside.mono (Nat.le_refl _) ?_, ?_⟩
    · show ifXts ctx'.algId = false
      rw [same.2.2]
      exact safe.kind
    · show out + 16 + (inLen - padding) / 16 * 16 ≤ out + outLen
      omega
    · omega
    · show 16 + (inLen - padding) / 16 * 16 ≤ outLen
      omega

theorem Safe.setCommon {ctx : ModesCipherCtx κ} (safe : Safe beyond ctx)
    (common : ModesCipherCommonCtx κ) : Safe beyond { ctx with commonCtx := common } :=
  ⟨safe.dataLen, safe.encrypts, safe.held, safe.kind, safe.array⟩

theorem Safe.empty {ctx : ModesCipherCtx κ} (kind : ifXts ctx.algId = false)
    (array : Frame 0 ealMaxBlockLength beyond ctx.data) (zero : ctx.dataLen = 0) :
    Safe beyond ctx :=
  ⟨by omega, fun _ => by omega, fun _ => by omega, kind, array⟩

include bounded in
theorem modesCipherFinal_safe {ctx : ModesCipherCtx κ} (safe : Safe beyond ctx) (mem : Memory Byte)
    (out outLen : Nat) :
    Confined beyond mem out outLen
      (modesCipherFinal blockUpdate ctx mem (some out) (some outLen)) := by
  have refuse (ret : Int) (ctx : ModesCipherCtx κ) (safe : Safe beyond ctx) :
      Confined beyond mem out outLen ⟨ret, ctx, mem, outLen⟩ :=
    ⟨safe, Frame.refl _ _ _, Nat.le_refl _⟩
  have nothing (ctx : ModesCipherCtx κ) (safe : Safe beyond ctx) :
      Confined beyond mem out outLen ⟨cryptSuccess, ctx, mem, 0⟩ :=
    ⟨safe, Frame.refl _ _ _, Nat.zero_le _⟩
  rw [modesCipherFinal]
  by_cases short : ctx.pad ≠ .none ∧ outLen < 16
  · rw [if_pos short]
    exact refuse _ _ safe
  have room (padded : ctx.pad ≠ .none) : 16 ≤ outLen := by
    by_contra less
    exact short ⟨padded, by omega⟩
  rw [if_neg short]
  by_cases enc : ctx.enc = true
  · have less := safe.encrypts enc
    rw [if_pos enc]
    by_cases none : ctx.pad = .none
    · have padding : modesBlockPadding ctx.algId ctx.pad 16 ctx.data ctx.dataLen =
          ⟨if ctx.dataLen = 0 then cryptSuccess else cryptModeErrInputLen, ctx.data,
            ctx.dataLen⟩ := by
        rw [none]
        simp only [modesBlockPadding, safe.kind, Nat.mod_eq_of_lt less]
        split_ifs <;> simp_all
      rw [padding]
      by_cases zero : ctx.dataLen = 0
      · simp only [zero, ne_eq, not_true_eq_false, if_false, if_true]
        exact nothing _ (Safe.empty safe.kind safe.array rfl)
      · simp only [zero, if_false]
        rw [if_pos (by decide)]
        exact refuse _ _ safe
    · obtain ⟨l, hl⟩ : ∃ l, l = fill ctx.pad (16 - ctx.dataLen) := ⟨_, rfl⟩
      have length : l.length = 16 - ctx.dataLen := hl ▸ length_fill none (by omega)
      have array : Frame 0 ealMaxBlockLength beyond (store ctx.data ctx.dataLen l) :=
        safe.array.trans ((Frame.store ctx.data ctx.dataLen l).mono (Nat.zero_le _) (by
          rw [length]
          show ctx.dataLen + (16 - ctx.dataLen) ≤ 0 + 32
          omega))
      rw [modesBlockPadding_eq ctx.algId none ctx.data less, ← hl]
      have ok := (bounded.ret ctx.commonCtx mem (.own (store ctx.data ctx.dataLen l) ctx.dataAt) out
        16 (by decide)).mpr (dvd_refl 16)
      have inside := bounded.frame ctx.commonCtx mem
        (.own (store ctx.data ctx.dataLen l) ctx.dataAt) out 16
      have le := room none
      simp only [ok, ne_eq, not_true_eq_false, if_false, OfNat.ofNat_ne_zero]
      exact ⟨Safe.empty safe.kind array rfl, inside.mono (Nat.le_refl _) (by omega), le⟩
  · rw [if_neg enc]
    by_cases zero : ctx.dataLen = 0
    · rw [if_pos zero]
      exact nothing _ safe
    rw [if_neg zero]
    have small := safe.dataLen
    have inside := bounded.frame ctx.commonCtx mem (.own ctx.data ctx.dataAt) out ctx.dataLen
    have iff := bounded.ret ctx.commonCtx mem (.own ctx.data ctx.dataAt) out ctx.dataLen zero
    generalize blockUpdate ctx.commonCtx mem (.own ctx.data ctx.dataAt) out ctx.dataLen = b at *
    simp only
    by_cases full : ctx.dataLen = 16
    · have le : 16 ≤ outLen := room fun none => by
        have := safe.held none
        omega
      have frame : Frame out outLen mem b.mem := inside.mono (Nat.le_refl _) (by omega)
      rw [if_neg (not_not.mpr (iff.mpr (by omega)))]
      split
      · exact ⟨safe.setCommon _, frame, Nat.le_refl _⟩
      · next len result =>
        have bound := modesBlockUnPadding_le (by omega) result
        exact ⟨Safe.empty safe.kind safe.array rfl, frame, Nat.le_trans bound le⟩
    · have part : ¬ 16 ∣ ctx.dataLen := by omega
      rw [if_pos fun ok => part (iff.mp ok)]
      exact ⟨safe.setCommon _, inside.mono (Nat.le_refl _) (by omega), Nat.le_refl _⟩

end Steps

/-! ## Every call -/

/-- Where the caller lets a call write: the address and the length that it gives. -/
def room : Call → Nat × Nat
  | .update _ _ out outLen | .final out outLen => (out.getD 0, outLen.getD 0)
  | .ctrl .getIv data len | .ctrl .getPadding data len | .ctrl .getBlocksize data len =>
    (data.getD 0, len)
  | _ => (0, 0)

def removesPadding (mem : Memory Byte) : Call → Prop
  | .setPadding type => (BitVec.ofInt 32 type).toInt = 0
  | .ctrl .setPadding data _ => int32At mem (data.getD 0) = 0
  | _ => False

/-- Lengths are of type `uint32_t`, the control calls for the padding, which look at neither their
pointer nor their length, have both, and the padding is not taken away from a full block. -/
structure Allowed (ctx : CryptEalCipherCtx (ModesCipherCtx κ)) (a : Memory Byte × Call) : Prop where
  inLen : ∀ inp inLen out outLen, a.2 = .update inp inLen out outLen → inLen < 2 ^ 32
  padding : ∀ type data len, a.2 = .ctrl type data len → type = .getPadding ∨ type = .setPadding →
    data.isSome ∧ 4 ≤ len
  held : removesPadding a.1 a.2 → ctx.ctx.dataLen < 16

section Calls

variable (mode : BlockMode) {beyond : Memory Byte}

theorem clearData_safe {ctx : ModesCipherCtx κ} (safe : Safe beyond ctx) :
    Safe beyond (clearData ctx) := by
  refine Safe.empty safe.kind (safe.array.trans ?_) rfl
  exact (Frame.store ctx.data 0 _).mono (Nat.le_refl 0) (by rw [List.length_replicate])

theorem initCtx_safe {ctx : ModesCipherCtx κ} (safe : Safe beyond ctx) (zero : ctx.dataLen = 0)
    (mem : Memory Byte) (key : Option Nat) (keyLen : Nat) (iv : Option Nat) (ivLen : Nat)
    (enc : Bool) :
    Safe beyond ((mode.method m).initCtx ctx mem key keyLen iv ivLen enc).2 := by
  have made : ∃ common direction, ((mode.method m).initCtx ctx mem key keyLen iv ivLen enc).2 =
      { ctx with commonCtx := common, enc := direction } := by
    cases mode with
    | ecb =>
      show ∃ common direction, (modesEcbInitCtx m ctx mem key keyLen iv ivLen enc).2 = _
      simp only [modesEcbInitCtx]
      split_ifs
      · exact ⟨_, _, rfl⟩
      · exact ⟨_, _, rfl⟩
      · exact ⟨_, _, rfl⟩
      · exact ⟨_, _, rfl⟩
    | cbc => exact ⟨_, _, rfl⟩
  obtain ⟨common, direction, made⟩ := made
  rw [made]
  exact Safe.empty safe.kind safe.array zero

theorem setPadding_safe {ctx : ModesCipherCtx κ} (safe : Safe beyond ctx) (mem : Memory Byte)
    (val : Option Nat) (allowed : int32At mem (val.getD 0) = 0 → ctx.dataLen < 16) :
    Safe beyond (setPadding ctx mem val).ctx := by
  rw [setPadding]
  cases code : paddingOfCode (int32At mem (val.getD 0)) with
  | none => exact safe
  | some pad =>
    refine ⟨safe.dataLen, safe.encrypts, fun none => allowed ?_, safe.kind, safe.array⟩
    have none : pad = .none := none
    have match' := List.find?_some code
    rw [none] at match'
    exact (of_decide_eq_true match').symm

theorem ctrl_confined {ctx : ModesCipherCtx κ} (safe : Safe beyond ctx) (mem : Memory Byte)
    (type : CryptCipherCtrl) (data : Option Nat) (len : Nat)
    (wide : type = .getPadding → 4 ≤ len)
    (allowed : type = .setPadding → int32At mem (data.getD 0) = 0 → ctx.dataLen < 16) :
    let r := (mode.method m).ctrl ctx mem type data len
    Safe beyond r.ctx ∧
      Frame (room (.ctrl type data len)).1 (room (.ctrl type data len)).2 mem r.mem := by
  have still : Safe beyond ctx ∧ Frame (room (.ctrl type data len)).1
      (room (.ctrl type data len)).2 mem mem := ⟨safe, Frame.refl _ _ _⟩
  have size : ∀ x, (int32Bytes x).length = 4 := fun _ => rfl
  have block (refused : Int) : let r := getBlockSize refused ctx mem data len
      Safe beyond r.ctx ∧ Frame (data.getD 0) len mem r.mem := by
    cases data with
    | none => exact ⟨safe, Frame.refl _ _ _⟩
    | some p =>
      simp only [getBlockSize]
      split_ifs with size
      · exact ⟨safe, Frame.refl _ _ _⟩
      · rw [not_not.mp size]
        exact ⟨safe, Frame.store mem p (int32Bytes 16)⟩
  have iv : let r := modesCipherCtrl ctx mem .getIv data len
      Safe beyond r.ctx ∧ Frame (data.getD 0) len mem r.mem := by
    cases data with
    | none => exact ⟨safe, Frame.refl _ _ _⟩
    | some p =>
      simp only [modesCipherCtrl, modesGetIv]
      split_ifs with size
      · exact ⟨safe, Frame.refl _ _ _⟩
      · rw [not_not.mp size]
        exact ⟨safe, Frame.write mem p _⟩
  cases mode <;> cases type
  case ecb.setPadding | cbc.setPadding =>
    refine ⟨setPadding_safe safe mem data (allowed rfl), ?_⟩
    show Frame 0 0 mem (setPadding ctx mem data).mem
    rw [setPadding]
    split <;> exact Frame.refl _ _ _
  case ecb.getPadding | cbc.getPadding =>
    have bytes := Frame.store mem (data.getD 0) (int32Bytes (paddingCode ctx.pad))
    exact ⟨safe, bytes.mono (Nat.le_refl _) (Nat.add_le_add_left (wide rfl) _)⟩
  case ecb.getBlocksize | cbc.getBlocksize => exact block _
  case ecb.getIv | cbc.getIv => exact iv
  case ecb.reinitStatus => exact ⟨clearData_safe safe, Frame.refl _ _ _⟩
  case cbc.reinitStatus => exact ⟨(clearData_safe safe).setCommon _, Frame.refl _ _ _⟩
  all_goals exact still

theorem perform_confined {ctx : CryptEalCipherCtx (ModesCipherCtx κ)} (safe : Safe beyond ctx.ctx)
    (mem : Memory Byte) (call : Call) (allowed : Allowed ctx (mem, call)) :
    let r := call.perform (mode.method m) ctx mem
    Safe beyond r.ctx.ctx ∧ Frame (room call).1 (room call).2 mem r.mem ∧
      r.outLen ≤ (room call).2 := by
  have cleared : Safe beyond ((mode.method m).deinitCtx ctx.ctx) := by
    rw [mode.method_deinitCtx]
    exact (clearData_safe safe).setCommon _
  have zero : ((mode.method m).deinitCtx ctx.ctx).dataLen = 0 := by
    rw [mode.method_deinitCtx]
    rfl
  cases call with
  | init key keyLen iv ivLen enc =>
    have made := initCtx_safe m mode cleared zero mem key keyLen iv ivLen enc
    refine ⟨?_, Frame.refl _ _ _, Nat.le_refl _⟩
    show Safe beyond (cryptEalCipherInit (mode.method m) ctx mem key keyLen iv ivLen enc).2.ctx
    rw [cryptEalCipherInit]
    by_cases failed : ((mode.method m).initCtx ((mode.method m).deinitCtx ctx.ctx) mem key keyLen
      iv ivLen enc).1 = cryptSuccess
    · simp only [cryptEalCipherDeinit, failed, ne_eq, not_true_eq_false, if_false]
      exact made
    · simp only [cryptEalCipherDeinit, failed, ne_eq, not_false_eq_true, if_true]
      exact made
  | deinit => exact ⟨cleared, Frame.refl _ _ _, Nat.le_refl _⟩
  | reinit iv ivLen =>
    have made := ctrl_confined m mode safe mem .reinitStatus iv ivLen (by rintro ⟨⟩) (by rintro ⟨⟩)
    simp only [Call.perform, cryptEalCipherReinit]
    split_ifs
    · exact ⟨safe, Frame.refl _ _ _, Nat.le_refl _⟩
    · exact ⟨made.1, made.2, Nat.le_refl _⟩
    · exact ⟨made.1, made.2, Nat.le_refl _⟩
  | update inp inLen out outLen =>
    have made : Confined _ mem (out.getD 0) (outLen.getD 0)
        (modesCipherUpdate (mode.blockUpdate m ctx.ctx.enc) ctx.ctx mem (inp.getD 0) inLen
          (out.getD 0) (outLen.getD 0)) :=
      modesCipherUpdate_safe (blockUpdate_bounded m mode ctx.ctx.enc) safe mem
        (allowed.inLen inp inLen out outLen rfl)
    rw [← mode.method_update] at made
    simp only [Call.perform, cryptEalCipherUpdate]
    split_ifs
    · exact ⟨safe, Frame.refl _ _ _, Nat.le_refl _⟩
    · exact ⟨made.safe, made.frame, made.outLen⟩
    · exact ⟨made.safe, made.frame, made.outLen⟩
  | final out outLen =>
    have made := modesCipherFinal_safe (blockUpdate_bounded m mode ctx.ctx.enc) safe mem
      (out.getD 0) (outLen.getD 0)
    rw [← mode.method_final] at made
    simp only [Call.perform, cryptEalCipherFinal]
    split_ifs
    · exact ⟨safe, Frame.refl _ _ _, Nat.le_refl _⟩
    · exact ⟨made.safe, made.frame, made.outLen⟩
    · exact ⟨made.safe, made.frame, made.outLen⟩
  | ctrl type data len =>
    have made := ctrl_confined m mode safe mem type data len
      (fun get => (allowed.padding type data len rfl (Or.inl get)).2) (by
        rintro rfl none
        exact allowed.held none)
    simp only [Call.perform, cryptEalCipherCtrl]
    split_ifs
    all_goals first
      | exact ⟨safe, Frame.refl _ _ _, Nat.zero_le _⟩
      | exact ⟨made.1, made.2, Nat.zero_le _⟩
  | setPadding type =>
    refine ⟨?_, Frame.refl _ _ _, Nat.le_refl _⟩
    simp only [Call.perform, cryptEalCipherSetPadding, mode.method_setPadding]
    refine setPadding_safe safe _ _ fun none => allowed.held ?_
    rwa [Option.getD_some, int32At_store] at none
  | getPadding =>
    have made := ctrl_confined m mode safe (fun _ => 0) .getPadding (some 0) 4
      (fun _ => Nat.le_refl 4) (by rintro ⟨⟩)
    exact ⟨made.1, Frame.refl _ _ _, Nat.le_refl _⟩

/-- A call changes the context and nothing else that later calls see; the memory may be any. -/
def step (ctx : CryptEalCipherCtx (ModesCipherCtx κ)) (a : Memory Byte × Call) :
    Option (CryptEalCipherCtx (ModesCipherCtx κ)) :=
  some (a.2.perform (mode.method m) ctx a.1).ctx

/-- A run of allowed calls on a context without waiting bytes, as a new one is: each of them stays
inside of its output and says no more than it was given room for, and at no time does anything
but the array of the context change. -/
theorem run_confined {ctx : CryptEalCipherCtx (ModesCipherCtx κ)}
    (kind : ifXts ctx.ctx.algId = false) (new : ctx.ctx.dataLen = 0)
    (calls : List (Memory Byte × Call)) (mem : Memory Byte) (call : Call)
    (meets : StepRuns.Meets (step m mode) Allowed ctx (calls ++ [(mem, call)])) :
    let r := call.perform (mode.method m) (after (mode.method m) ctx calls) mem
    Frame (room call).1 (room call).2 mem r.mem ∧ r.outLen ≤ (room call).2 ∧
      Frame 0 ealMaxBlockLength ctx.ctx.data r.ctx.ctx.data ∧ r.ctx.ctx.dataLen ≤ 16 := by
  obtain ⟨beyond, hb⟩ : ∃ beyond, beyond = ctx.ctx.data := ⟨_, rfl⟩
  have safe : Safe beyond ctx.ctx := Safe.empty kind (hb ▸ Frame.refl _ _ _) new
  rw [← hb]
  clear kind new hb
  induction calls generalizing ctx with
  | nil =>
    obtain ⟨keep, frame, outLen⟩ := perform_confined m mode safe mem call meets.1
    exact ⟨frame, outLen, keep.array, keep.dataLen⟩
  | cons first later ih =>
    obtain ⟨mem', call'⟩ := first
    exact ih (meets.2 _ rfl) (perform_confined m mode safe mem' call' meets.1).1

end Calls

def newCtx : CryptEalCipherCtx (ModesCipherCtx CryptSm4Ctx) :=
  ⟨.new, modesCipherNewCtx .sm4Cbc ⟨Vector.replicate 16 0, Vector.replicate 32 0⟩ 0 0 0⟩

theorem run_confined_new :
    let r := Call.perform ((BlockMode.cbc).method sm4Method)
      (after ((BlockMode.cbc).method sm4Method) newCtx [
        (sampleMem, .init (some 0) 16 (some 16) 16 false), (sampleMem, .setPadding 5),
        (sampleMem, .ctrl .getPadding (some 1040) 4),
        (sampleMem, .update (some 32) 20 (some 1000) (some 32)),
        (sampleMem, .update (some 52) 12 (some 1016) (some 16))])
      sampleMem (.final (some 1016) (some 16))
    Frame 1016 16 sampleMem r.mem ∧ r.outLen ≤ 16 ∧ Frame 0 32 newCtx.ctx.data r.ctx.ctx.data ∧
      r.ctx.ctx.dataLen ≤ 16 := by
  have plain {ctx : CryptEalCipherCtx (ModesCipherCtx CryptSm4Ctx)} {call : Call}
      (small : ∀ inp inLen out outLen, call = .update inp inLen out outLen → inLen < 2 ^ 32)
      (given : ∀ type data len, call = .ctrl type data len →
        type = .getPadding ∨ type = .setPadding → data.isSome ∧ 4 ≤ len)
      (keeps : ¬ removesPadding sampleMem call) : Allowed ctx (sampleMem, call) :=
    ⟨small, given, fun removes => absurd removes keeps⟩
  refine run_confined sm4Method .cbc rfl rfl _ sampleMem (.final (some 1016) (some 16)) ?_
  refine ⟨plain (by rintro _ _ _ _ ⟨⟩) (by rintro _ _ _ ⟨⟩) (by rintro ⟨⟩), fun _ _ =>
    ⟨plain (by rintro _ _ _ _ ⟨⟩) (by rintro _ _ _ ⟨⟩) ?_, fun _ _ =>
    ⟨plain (by rintro _ _ _ _ ⟨⟩) ?_ (by rintro ⟨⟩), fun _ _ =>
    ⟨plain ?_ (by rintro _ _ _ ⟨⟩) (by rintro ⟨⟩), fun _ _ =>
    ⟨plain ?_ (by rintro _ _ _ ⟨⟩) (by rintro ⟨⟩), fun _ _ =>
    ⟨plain (by rintro _ _ _ _ ⟨⟩) (by rintro _ _ _ ⟨⟩) (by rintro ⟨⟩), fun _ _ =>
      trivial⟩⟩⟩⟩⟩⟩
  · show ¬ (BitVec.ofInt 32 5).toInt = 0
    decide
  · rintro type data len ⟨⟩ -
    exact ⟨rfl, Nat.le_refl 4⟩
  · rintro inp inLen out outLen ⟨⟩
    decide
  · rintro inp inLen out outLen ⟨⟩
    decide

/-! ## A full block without padding -/

/-- Without padding the final call does not look at its room. -/
theorem modesCipherFinal_full (mode : BlockMode) {ctx : ModesCipherCtx κ} (dec : ctx.enc = false)
    (free : ctx.pad = .none) (full : ctx.dataLen = 16) (mem : Memory Byte) {out : Nat}
    (outLen : Nat) (own : ctx.dataAt ≠ out) :
    let r := modesCipherFinal (mode.blockUpdate m false) ctx mem (some out) (some outLen)
    let u := (mode.machine m false ctx.commonCtx.ciphCtx).feed ctx.commonCtx.iv (load ctx.data 0 16)
    r.ret = cryptSuccess ∧ r.outLen = 16 ∧ r.mem = store mem out u.1 := by
  have block := (mode.runs m false).own ctx.commonCtx mem ctx.data ctx.dataAt out own
  simp only [modesCipherFinal, free, dec, full, block, modesBlockUnPadding, ne_eq,
    not_true_eq_false, false_and, if_false, Bool.false_eq_true, OfNat.ofNat_ne_zero, and_self]

theorem final_free {mode : BlockMode} {ctx : CryptEalCipherCtx (ModesCipherCtx κ)}
    {padding : CryptPaddingType} {k : κ} {dataAt : Nat} {state : Block} {block : List Byte}
    (h : Running ctx false padding k dataAt ⟨state, block⟩) (full : block.length = 16)
    (mem : Memory Byte) {out : Nat} (outLen : Nat) (own : dataAt ≠ out) :
    let set := cryptEalCipherSetPadding (mode.method m) ctx (paddingCode .none)
    let r := cryptEalCipherFinal (mode.method m) set.2 mem (some out) (some outLen)
    set.1 = cryptSuccess ∧ r.ret = cryptSuccess ∧ r.outLen = 16 ∧
      load r.mem out 16 = ((mode.machine m false k).feed state block).1 := by
  intro set r
  obtain ⟨free, hfree⟩ : ∃ free, free = { ctx.ctx with pad := CryptPaddingType.none } := ⟨_, rfl⟩
  have set_eq : set = (cryptSuccess, ⟨ctx.states, free⟩) := by
    rw [hfree]
    exact setPadding_eq m mode ctx .none
  have dataLen : free.dataLen = 16 := by
    rw [hfree, ← full]
    exact h.dataLen
  have dec : free.enc = false := by rw [hfree]; exact h.direction
  have held : waiting free = ⟨state, block⟩ := by rw [hfree]; exact h.waiting
  rw [waiting, dataLen] at held
  obtain ⟨rfl, rfl⟩ := Waiting.mk.inj held
  have key : free.commonCtx.ciphCtx = k := by rw [hfree]; exact h.key
  have last := modesCipherFinal_full m mode dec (by rw [hfree]) dataLen mem outLen
    (by rw [hfree]; rwa [← h.dataAt] at own)
  rw [← key]
  have check : checkFinalParam (CryptEalCipherCtx.mk ctx.states free) (some out) (some outLen) =
      cryptSuccess := by
    rw [checkFinalParam_eq, if_pos h.states]
  obtain ⟨q, hq⟩ : ∃ q, q = modesCipherFinal (mode.blockUpdate m false) free mem (some out)
    (some outLen) := ⟨_, rfl⟩
  rw [← hq] at last
  have result : r = ⟨cryptSuccess, ⟨.final, q.ctx⟩, q.mem, q.outLen⟩ := by
    show cryptEalCipherFinal _ _ _ _ _ = _
    rw [set_eq, cryptEalCipherFinal, check]
    simp only [ne_eq, not_true_eq_false, if_false, Option.getD_some, mode.method_final, dec, ← hq,
      last.1]
  have length : ((mode.machine m false free.commonCtx.ciphCtx).feed free.commonCtx.iv
      (load free.data 0 16)).1.length = 16 := by
    rw [Transducer.length_feed _ _ _ (by rw [length_load]), length_load]
  rw [result, set_eq]
  refine ⟨rfl, rfl, last.2.1, ?_⟩
  show load q.mem out 16 = _
  rw [last.2.2]
  exact load_store _ _ _ length

theorem update_holds {mode : BlockMode} {ctx : CryptEalCipherCtx (ModesCipherCtx κ)}
    {padding : CryptPaddingType} {k : κ} {dataAt : Nat} {state : Block}
    (h : Running ctx false padding k dataAt ⟨state, []⟩) (padded : padding ≠ .none)
    (mem : Memory Byte) {inp out : Nat} (serves : mode.serves false inp out 16)
    (own : dataAt ≠ out) :
    let held := cryptEalCipherUpdate (mode.method m) ctx mem (some inp) 16 (some out) (some 16)
    held.ret = cryptSuccess ∧ held.outLen = 0 ∧
      Running held.ctx false padding k dataAt ⟨state, load mem inp 16⟩ := by
  have clear : out ≤ inp ∨ inp + 16 ≤ out := (mode.runs m false).clear _ _ _ serves
  have fits : UpdateFits (mode.serves false) dataAt 0 ⟨mem, inp, 16, out, 16⟩ :=
    ⟨show 16 + 0 < 2 ^ 32 by decide, show (16 + 0) / 16 * 16 ≤ 16 by decide, serves, clear, own⟩
  obtain ⟨ret, -, size, later⟩ := h.update m mode fits
  have hold : (!false && decide (padding ≠ .none)) = true := by simpa using padded
  have still : BlockStream.update (mode.machine m false k)
      (!false && decide (padding ≠ .none)) ⟨state, []⟩ (load mem inp 16) =
      ([], ⟨state, load mem inp 16⟩) := by
    rw [hold]
    exact update_waiting _ _ (by rw [List.nil_append, length_load]; rfl)
  have piece : UpdateCall.piece ⟨mem, inp, 16, out, 16⟩ = load mem inp 16 := rfl
  rw [piece, still] at size later
  exact ⟨ret, size, later⟩

/-- Where the padding is taken away while a full block is held back, the final call gets by the
check of its room, and writes a block into a buffer of any length, also of none. A block given
to a context that pads and has nothing else leads there. -/
theorem final_overrun (mode : BlockMode) (k : κ) {dataAt out : Nat} (own : dataAt ≠ out) :
    (∀ ctx padding state block, Running ctx false padding k dataAt ⟨state, block⟩ →
      block.length = 16 → ∀ mem outLen,
        let set := cryptEalCipherSetPadding (mode.method m) ctx (paddingCode .none)
        let r := cryptEalCipherFinal (mode.method m) set.2 mem (some out) (some outLen)
        set.1 = cryptSuccess ∧ r.ret = cryptSuccess ∧ r.outLen = 16 ∧
          load r.mem out 16 = ((mode.machine m false k).feed state block).1) ∧
    ∀ ctx padding state, Running ctx false padding k dataAt ⟨state, []⟩ → padding ≠ .none →
      ∀ mem inp, mode.serves false inp out 16 →
        let held := cryptEalCipherUpdate (mode.method m) ctx mem (some inp) 16 (some out) (some 16)
        held.ret = cryptSuccess ∧ held.outLen = 0 ∧
          Running held.ctx false padding k dataAt ⟨state, load mem inp 16⟩ :=
  ⟨fun _ _ _ _ running full mem outLen => final_free m running full mem outLen own,
    fun _ _ _ running padded mem _ serves => update_holds m running padded mem serves own⟩

theorem final_overrun_empty :
    let ctx : CryptEalCipherCtx (ModesCipherCtx CryptSm4Ctx) :=
      ⟨.init, { newCtx.ctx with pad := .pkcs7, enc := false }⟩
    let method := BlockMode.cbc.method sm4Method
    let held := cryptEalCipherUpdate method ctx sampleMem (some 32) 16 (some 1000) (some 16)
    let set := cryptEalCipherSetPadding method held.ctx (paddingCode .none)
    let r := cryptEalCipherFinal method set.2 held.mem (some 1000) (some 0)
    held.ret = cryptSuccess ∧ held.outLen = 0 ∧ set.1 = cryptSuccess ∧ r.ret = cryptSuccess ∧
      r.outLen = 16 ∧ load r.mem 1000 16 = ((BlockMode.cbc.machine sm4Method false
        ctx.ctx.commonCtx.ciphCtx).feed ctx.ctx.commonCtx.iv (load sampleMem 32 16)).1 := by
  intro ctx method held
  have running : Running ctx false .pkcs7 ctx.ctx.commonCtx.ciphCtx 0
      ⟨ctx.ctx.commonCtx.iv, []⟩ :=
    ⟨rfl, rfl, rfl, rfl, rfl, rfl, rfl, settled_nil _ _⟩
  obtain ⟨overrun, hold⟩ := final_overrun sm4Method .cbc ctx.ctx.commonCtx.ciphCtx
    (by decide : 0 ≠ 1000)
  obtain ⟨ret, size, later⟩ :=
    hold ctx .pkcs7 _ running (by decide) sampleMem 32 (Or.inr (Or.inr (by decide)))
  exact ⟨ret, size, overrun _ _ _ _ later (length_load _ _ _) held.mem 0⟩

end SystemsLab.EalBlockSafety
