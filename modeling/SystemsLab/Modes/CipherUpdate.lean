import SystemsLab.Eal.Cipher
import SystemsLab.Modes.BlockCrypt

/-! The buffering of the block modes of openHiTLS (`modes.c`): `MODES_CipherUpdate` completes the
waiting block, runs over the whole blocks of the input and keeps the rest; `MODES_CipherFinal`
pads or unpads. On buffers that it can serve, an update is one step of the block stream. -/

namespace SystemsLab.ModesCipherUpdate
open ByteWord Textbook Buffer StreamMachine BlockStream Sm4OpenHitls EalCipher ModesPadding
open ModesBlockCrypt

def cryptEalBuffLenNotEnough : Int := 0x01040001
def cryptEalBuffLenTooLong : Int := 0x01040002

/-- `MODES_CipherCtx`, with the address of its array `data`. -/
structure ModesCipherCtx (κ : Type) where
  commonCtx : ModesCipherCommonCtx κ
  algId : CryptCipherAlgId
  data : Memory Byte
  dataAt : Nat
  dataLen : Nat
  pad : CryptPaddingType
  enc : Bool

variable {κ : Type}

/-! ## Update -/

def modeCheckUpdateParam (blockSize cacheLen inLen outLen : Nat) : Int :=
  let total := (inLen + cacheLen) % 2 ^ 32
  if total < inLen then cryptEalBuffLenTooLong
  else if outLen < total / blockSize * blockSize then cryptEalBuffLenNotEnough
  else cryptSuccess

/-- What `MODES_CipherUpdateCache` leaves in the variables it was given the addresses of. -/
structure CacheResult (κ : Type) where
  ret : Int
  ctx : ModesCipherCtx κ
  mem : Memory Byte
  inp : Nat
  inLen : Nat
  out : Nat
  outLen : Nat

def cachePadding (ctx : ModesCipherCtx κ) (inLen : Nat) : Nat :=
  if 0 < ctx.dataLen then
    let padding := 16 - ctx.dataLen
    if padding < inLen then padding else inLen
  else 0

def fillCache (ctx : ModesCipherCtx κ) (mem : Memory Byte) (inp padding : Nat) :
    ModesCipherCtx κ :=
  { ctx with
    data := store ctx.data ctx.dataLen (load mem inp padding)
    dataLen := ctx.dataLen + padding }

/-- `MODES_CipherUpdateCache` after the cache is filled up. -/
def processCache (blockUpdate : BlockUpdate κ) (ctx : ModesCipherCtx κ) (mem : Memory Byte)
    (inp inLen out outLen : Nat) : CacheResult κ :=
  if ctx.dataLen ≠ 16 then ⟨cryptSuccess, ctx, mem, inp, inLen, out, outLen⟩
  else if ctx.enc = false ∧ inLen = 0 ∧ ctx.pad ≠ .none then
    ⟨cryptSuccess, ctx, mem, inp, inLen, out, 0⟩
  else
    let r := blockUpdate ctx.commonCtx mem (.own ctx.data ctx.dataAt) out 16
    let ctx := { ctx with commonCtx := r.ctx }
    if r.ret ≠ cryptSuccess then ⟨r.ret, ctx, r.mem, inp, inLen, out, outLen⟩
    else ⟨cryptSuccess, { ctx with dataLen := 0 }, r.mem, inp, inLen, out + 16, 16⟩

def modesCipherUpdateCache (blockUpdate : BlockUpdate κ) (ctx : ModesCipherCtx κ)
    (mem : Memory Byte) (inp inLen out outLen : Nat) : CacheResult κ :=
  let padding := cachePadding ctx inLen
  let ctx := if padding ≠ 0 then fillCache ctx mem inp padding else ctx
  processCache blockUpdate ctx mem (inp + padding) (inLen - padding) out outLen

/-- `MODES_CipherUpdate` after the cache is dealt with. -/
def modesCipherUpdateRest (blockUpdate : BlockUpdate κ) (c : CacheResult κ) :
    UpdateResult (ModesCipherCtx κ) :=
  if c.inLen = 0 then ⟨cryptSuccess, c.ctx, c.mem, c.outLen⟩
  else
    let left := c.inLen % 16
    let len := c.inLen - left
    let back := 0 < len ∧ c.ctx.enc = false ∧ c.ctx.pad ≠ .none ∧ left = 0
    let left := if back then 16 else left
    let len := if back then len - 16 else len
    let r := if 0 < len then blockUpdate c.ctx.commonCtx c.mem (.shared c.inp) c.out len
      else ⟨cryptSuccess, c.ctx.commonCtx, c.mem⟩
    let ctx := { c.ctx with commonCtx := r.ctx }
    if r.ret ≠ cryptSuccess then ⟨r.ret, ctx, r.mem, c.outLen⟩
    else
      let ctx := if 0 < left then { ctx with
        data := store ctx.data 0 (load r.mem (c.inp + len) left), dataLen := left } else ctx
      ⟨cryptSuccess, ctx, r.mem, c.outLen + len⟩

def modesCipherUpdate (blockUpdate : BlockUpdate κ) (ctx : ModesCipherCtx κ) (mem : Memory Byte)
    (inp inLen out outLen : Nat) : UpdateResult (ModesCipherCtx κ) :=
  let ret := modeCheckUpdateParam 16 ctx.dataLen inLen outLen
  if ret ≠ cryptSuccess then ⟨ret, ctx, mem, outLen⟩
  else
    let c := modesCipherUpdateCache blockUpdate ctx mem inp inLen out 0
    if c.ret ≠ cryptSuccess then ⟨c.ret, c.ctx, c.mem, c.outLen⟩
    else modesCipherUpdateRest blockUpdate c

/-! ## Final -/

/-- The pointers `out` and `outLen` may be null; `outLen` points to the value given. -/
def modesCipherFinal (blockUpdate : BlockUpdate κ) (ctx : ModesCipherCtx κ) (mem : Memory Byte)
    (out outLen : Option Nat) : UpdateResult (ModesCipherCtx κ) :=
  match out, outLen with
  | some out, some outLen =>
    if ctx.pad ≠ .none ∧ outLen < 16 then ⟨cryptEalBuffLenNotEnough, ctx, mem, outLen⟩
    else if ctx.enc then
      let p := modesBlockPadding ctx.algId ctx.pad 16 ctx.data ctx.dataLen
      let ctx := { ctx with data := p.data, dataLen := p.dataLen }
      if p.ret ≠ cryptSuccess then ⟨p.ret, ctx, mem, outLen⟩
      else if ctx.dataLen = 0 then ⟨cryptSuccess, ctx, mem, 0⟩
      else
        let r := blockUpdate ctx.commonCtx mem (.own ctx.data ctx.dataAt) out ctx.dataLen
        let ctx := { ctx with commonCtx := r.ctx }
        if r.ret ≠ cryptSuccess then ⟨r.ret, ctx, r.mem, outLen⟩
        else ⟨cryptSuccess, { ctx with dataLen := 0 }, r.mem, ctx.dataLen⟩
    else if ctx.dataLen = 0 then ⟨cryptSuccess, ctx, mem, 0⟩
    else
      let r := blockUpdate ctx.commonCtx mem (.own ctx.data ctx.dataAt) out ctx.dataLen
      let ctx := { ctx with commonCtx := r.ctx }
      if r.ret ≠ cryptSuccess then ⟨r.ret, ctx, r.mem, outLen⟩
      else match modesBlockUnPadding ctx.pad (fun i => r.mem (out + i)) 16 ctx.dataLen with
        | .error ret => ⟨ret, ctx, r.mem, outLen⟩
        | .ok len => ⟨cryptSuccess, { ctx with dataLen := 0 }, r.mem, len⟩
  | _, _ => ⟨cryptNullInput, ctx, mem, outLen.getD 0⟩

/-! ## An update as a step of the block stream -/

def waiting (ctx : ModesCipherCtx κ) : Waiting Block Byte :=
  ⟨ctx.commonCtx.iv, load ctx.data 0 ctx.dataLen⟩

def holds (ctx : ModesCipherCtx κ) : Bool := !ctx.enc && ctx.pad ≠ .none

structure SameSetting (a b : ModesCipherCtx κ) : Prop where
  ciphCtx : a.commonCtx.ciphCtx = b.commonCtx.ciphCtx
  algId : a.algId = b.algId
  dataAt : a.dataAt = b.dataAt
  pad : a.pad = b.pad
  enc : a.enc = b.enc

theorem SameSetting.refl (ctx : ModesCipherCtx κ) : SameSetting ctx ctx := ⟨rfl, rfl, rfl, rfl, rfl⟩

theorem SameSetting.trans {a b c : ModesCipherCtx κ} (h : SameSetting a b) (h' : SameSetting b c) :
    SameSetting a c :=
  ⟨h.ciphCtx.trans h'.ciphCtx, h.algId.trans h'.algId, h.dataAt.trans h'.dataAt,
    h.pad.trans h'.pad, h.enc.trans h'.enc⟩

theorem SameSetting.holds_eq {a b : ModesCipherCtx κ} (h : SameSetting a b) :
    holds a = holds b := by
  rw [holds, holds, h.enc, h.pad]

/-- The buffers of an update: long enough, lengths that do not wrap, and an output that does not
run ahead of the input by what is waiting. -/
structure Fits (serves : Nat → Nat → Nat → Prop) (ctx : ModesCipherCtx κ)
    (inp inLen out outLen : Nat) : Prop where
  total : inLen + ctx.dataLen < 2 ^ 32
  room : (inLen + ctx.dataLen) / 16 * 16 ≤ outLen
  serves : serves inp (out + ctx.dataLen) inLen
  behind : out + ctx.dataLen ≤ inp ∨ inp + inLen ≤ out
  apart : ctx.dataAt ≠ out

structure Updated (ctx : ModesCipherCtx κ) (mem : Memory Byte) (out before : Nat)
    (u : List Byte × Waiting Block Byte) (r : UpdateResult (ModesCipherCtx κ)) : Prop where
  ret : r.ret = cryptSuccess
  outLen : r.outLen = before + u.1.length
  mem : r.mem = store mem out u.1
  waiting : waiting r.ctx = u.2
  same : SameSetting r.ctx ctx

section Steps

variable {blockUpdate : BlockUpdate κ} {T : κ → Transducer Block Byte 16}
  {serves : Nat → Nat → Nat → Prop} (runs : Runs blockUpdate T serves)

theorem holds_iff (ctx : ModesCipherCtx κ) :
    holds ctx = true ↔ ctx.enc = false ∧ ctx.pad ≠ .none := by
  simp [holds]

include runs in
theorem modesCipherUpdateRest_spec (c : CacheResult κ) (empty : c.inLen ≠ 0 → c.ctx.dataLen = 0)
    (served : serves c.inp c.out c.inLen) (more : c.inLen ≠ 0) :
    Updated c.ctx c.mem c.out c.outLen (update (T c.ctx.commonCtx.ciphCtx) (holds c.ctx)
      ⟨c.ctx.commonCtx.iv, []⟩ (load c.mem c.inp c.inLen))
      (modesCipherUpdateRest blockUpdate c) := by
  have back : (0 < c.inLen - c.inLen % 16 ∧ c.ctx.enc = false ∧ c.ctx.pad ≠ .none ∧
      c.inLen % 16 = 0) ↔ (holds c.ctx = true ∧ c.inLen ≠ 0 ∧ c.inLen % 16 = 0) := by
    rw [holds_iff]
    constructor
    · rintro ⟨-, dec, padded, whole⟩
      exact ⟨⟨dec, padded⟩, more, whole⟩
    · rintro ⟨⟨dec, padded⟩, -, whole⟩
      exact ⟨by omega, dec, padded, whole⟩
  obtain ⟨left, hleft⟩ : ∃ left, left = kept 16 (holds c.ctx) c.inLen := ⟨_, rfl⟩
  have le : left ≤ c.inLen := hleft ▸ kept_le 16 (holds c.ctx) c.inLen
  obtain ⟨count, hcount⟩ : 16 ∣ c.inLen - left := hleft ▸ dvd_sub_kept 16 (holds c.ctx) c.inLen
  have source : modesCipherUpdateRest blockUpdate c =
      let r := if 0 < c.inLen - left then
        blockUpdate c.ctx.commonCtx c.mem (.shared c.inp) c.out (c.inLen - left)
        else ⟨cryptSuccess, c.ctx.commonCtx, c.mem⟩
      let ctx := { c.ctx with commonCtx := r.ctx }
      if r.ret ≠ cryptSuccess then ⟨r.ret, ctx, r.mem, c.outLen⟩
      else ⟨cryptSuccess, if 0 < left then { ctx with
        data := store ctx.data 0 (load r.mem (c.inp + (c.inLen - left)) left)
        dataLen := left } else ctx,
        r.mem, c.outLen + (c.inLen - left)⟩ := by
    have leftEq : (if holds c.ctx = true ∧ c.inLen ≠ 0 ∧ c.inLen % 16 = 0 then 16
        else c.inLen % 16) = left := hleft.symm
    have lenEq : (if holds c.ctx = true ∧ c.inLen ≠ 0 ∧ c.inLen % 16 = 0
        then c.inLen - c.inLen % 16 - 16 else c.inLen - c.inLen % 16) = c.inLen - left := by
      rw [← leftEq]
      split_ifs with full
      · rw [full.2.2, Nat.sub_zero]
      · rfl
    simp only [modesCipherUpdateRest, if_neg more, back, leftEq, lenEq]
  have call : (if 0 < c.inLen - left then
      blockUpdate c.ctx.commonCtx c.mem (.shared c.inp) c.out (c.inLen - left)
      else ⟨cryptSuccess, c.ctx.commonCtx, c.mem⟩) =
      let r := (T c.ctx.commonCtx.ciphCtx).feed c.ctx.commonCtx.iv
        (load c.mem c.inp (c.inLen - left))
      ⟨cryptSuccess, { c.ctx.commonCtx with iv := r.2 }, store c.mem c.out r.1⟩ := by
    split_ifs with some
    · have within := runs.within _ _ _ 0 (c.inLen - left) served (by omega)
      rw [Nat.add_zero, Nat.add_zero, hcount] at within
      rw [hcount]
      exact runs.shared _ _ _ _ count (by rintro rfl; omega) within
    · have none : c.inLen - left = 0 := by omega
      have nothing : load c.mem c.inp 0 = [] := rfl
      simp only [none, nothing, Transducer.feed_nil, store_nil]
  obtain ⟨u, hu⟩ : ∃ u, u = (T c.ctx.commonCtx.ciphCtx).feed c.ctx.commonCtx.iv
    (load c.mem c.inp (c.inLen - left)) := ⟨_, rfl⟩
  have length : u.1.length = c.inLen - left := by
    rw [hu, Transducer.length_feed _ _ _ (by rw [length_load, hcount]; exact ⟨count, rfl⟩),
      length_load]
  have whole : load c.mem c.inp c.inLen =
      load c.mem c.inp (c.inLen - left) ++ load c.mem (c.inp + (c.inLen - left)) left := by
    rw [← load_add, Nat.sub_add_cancel le]
  have stream : update (T c.ctx.commonCtx.ciphCtx) (holds c.ctx) ⟨c.ctx.commonCtx.iv, []⟩
      (load c.mem c.inp c.inLen) =
      (u.1, ⟨u.2, load c.mem (c.inp + (c.inLen - left)) left⟩) := by
    simp only [update, List.nil_append, length_load, ← hleft, hu]
    rw [whole, List.take_left' (length_load _ _ _), List.drop_left' (length_load _ _ _)]
  -- the rest of the input is read after the output is written
  have unread : load (store c.mem c.out u.1) (c.inp + (c.inLen - left)) left =
      load c.mem (c.inp + (c.inLen - left)) left :=
    load_store_of_apart _ _ _ _ _ (by
      have clear := runs.clear _ _ _ served
      rw [length]
      rcases clear with below | behind <;> omega)
  rw [source, stream]
  simp only [call, ← hu, ne_eq, not_true_eq_false, if_false, unread]
  refine ⟨rfl, by simp only [length], rfl, ?_, ?_⟩
  · rcases Nat.eq_zero_or_pos left with zero | some
    · rw [if_neg (by omega), zero]
      simp only [waiting, empty more]
      rfl
    · rw [if_pos some]
      simp only [waiting, load_store _ _ _ (length_load _ _ _)]
  · split_ifs <;> exact ⟨rfl, rfl, rfl, rfl, rfl⟩

theorem modeCheckUpdateParam_ok {cacheLen inLen outLen : Nat} (total : inLen + cacheLen < 2 ^ 32)
    (room : (inLen + cacheLen) / 16 * 16 ≤ outLen) :
    modeCheckUpdateParam 16 cacheLen inLen outLen = cryptSuccess := by
  have whole : (inLen + cacheLen) % 2 ^ 32 = inLen + cacheLen := Nat.mod_eq_of_lt total
  simp only [modeCheckUpdateParam, whole]
  rw [if_neg (by omega), if_neg (by omega)]

theorem fillCache_zero (ctx : ModesCipherCtx κ) (mem : Memory Byte) (inp : Nat) :
    fillCache ctx mem inp 0 = ctx := by
  have nothing : load mem inp 0 = [] := rfl
  simp only [fillCache, nothing, store_nil, Nat.add_zero]

theorem waiting_fillCache (ctx : ModesCipherCtx κ) (mem : Memory Byte) (inp padding : Nat) :
    waiting (fillCache ctx mem inp padding) =
      ⟨(waiting ctx).state, (waiting ctx).cache ++ load mem inp padding⟩ := by
  have new := load_store ctx.data ctx.dataLen _ (length_load mem inp padding)
  have old := load_store_of_apart ctx.data ctx.dataLen 0 ctx.dataLen (load mem inp padding)
    (Or.inr (by omega))
  simp only [waiting, fillCache, load_add, Nat.zero_add, new, old]

theorem cachePadding_spec (ctx : ModesCipherCtx κ) (inLen : Nat) (small : ctx.dataLen ≤ 16) :
    let padding := cachePadding ctx inLen
    padding ≤ inLen ∧ ctx.dataLen + padding ≤ 16 ∧
      (ctx.dataLen = 0 → padding = 0) ∧
      (ctx.dataLen ≠ 0 → ctx.dataLen + padding ≠ 16 → padding = inLen) := by
  intro padding
  simp only [padding, cachePadding]
  split_ifs <;> omega

def finish (blockUpdate : BlockUpdate κ) (c : CacheResult κ) : UpdateResult (ModesCipherCtx κ) :=
  if c.ret ≠ cryptSuccess then ⟨c.ret, c.ctx, c.mem, c.outLen⟩
  else modesCipherUpdateRest blockUpdate c

include runs in
theorem finish_of_block {ctx : ModesCipherCtx κ} (mem : Memory Byte) {inp inLen out : Nat}
    (complete : ctx.dataLen = 16) (ready : inLen ≠ 0 ∨ holds ctx = false)
    (served : serves inp (out + 16) inLen) (behind : out + 16 ≤ inp ∨ inp + inLen ≤ out)
    (apart : ctx.dataAt ≠ out) :
    Updated ctx mem out 0 (update (T ctx.commonCtx.ciphCtx) (holds ctx) (waiting ctx)
      (load mem inp inLen))
      (finish blockUpdate (processCache blockUpdate ctx mem inp inLen out 0)) := by
  have go : ¬ (ctx.enc = false ∧ inLen = 0 ∧ ctx.pad ≠ .none) := by
    rintro ⟨dec, none, padded⟩
    rcases ready with more | free
    · exact more none
    · rw [(holds_iff ctx).mpr ⟨dec, padded⟩] at free
      cases free
  obtain ⟨f, hf⟩ : ∃ f, f = (T ctx.commonCtx.ciphCtx).feed ctx.commonCtx.iv (load ctx.data 0 16) :=
    ⟨_, rfl⟩
  have flush := runs.own ctx.commonCtx mem ctx.data ctx.dataAt out apart
  simp only [← hf] at flush
  have block : f.1.length = 16 := by
    rw [hf, Transducer.length_feed _ _ _ (by simp), length_load]
  obtain ⟨c, hc⟩ : ∃ c : CacheResult κ, c = ⟨cryptSuccess,
    { ctx with commonCtx := { ctx.commonCtx with iv := f.2 }, dataLen := 0 },
    store mem out f.1, inp, inLen, out + 16, 16⟩ := ⟨_, rfl⟩
  have source : processCache blockUpdate ctx mem inp inLen out 0 = c := by
    rw [processCache, if_neg (not_not.mpr complete), if_neg go, flush, hc]
    simp only [ne_eq, not_true_eq_false, if_false]
  have ok : c.ret = cryptSuccess := by rw [hc]
  have unread : load (store mem out f.1) inp inLen = load mem inp inLen :=
    load_store_of_apart _ _ _ _ _ (by rw [block]; exact behind)
  obtain ⟨u, hu⟩ : ∃ u, u = update (T ctx.commonCtx.ciphCtx) (holds ctx) ⟨f.2, []⟩
    (load mem inp inLen) := ⟨_, rfl⟩
  have stream : update (T ctx.commonCtx.ciphCtx) (holds ctx) (waiting ctx) (load mem inp inLen) =
      (f.1 ++ u.1, u.2) := by
    rw [hu, hf]
    refine update_block _ _ (by rw [waiting, complete]) (length_load _ _ _) ?_
    rcases ready with more | free
    · refine Or.inl fun nil => more ?_
      rw [← length_load mem inp inLen, nil, List.length_nil]
    · exact Or.inr free
  have result : Updated ctx (store mem out f.1) (out + 16) 16 u
      (modesCipherUpdateRest blockUpdate c) := by
    by_cases none : inLen = 0
    · have nothing : load mem inp 0 = [] := rfl
      rw [none, nothing, update_nil _ _ (settled_nil _ _)] at hu
      rw [hu, modesCipherUpdateRest, if_pos (by rw [hc]; exact none), hc]
      exact ⟨rfl, rfl, (store_nil _ _).symm, rfl, ⟨rfl, rfl, rfl, rfl, rfl⟩⟩
    · have rest := modesCipherUpdateRest_spec runs c (fun _ => by rw [hc])
        (by rw [hc]; exact served) (by rw [hc]; exact none)
      rw [hc] at rest ⊢
      simp only [unread] at rest
      rw [hu]
      exact ⟨rest.ret, rest.outLen, rest.mem, rest.waiting,
        rest.same.trans ⟨rfl, rfl, rfl, rfl, rfl⟩⟩
  rw [stream, source, finish, if_neg (not_not.mpr ok)]
  refine ⟨result.ret, ?_, ?_, result.waiting, result.same⟩
  · rw [result.outLen, List.length_append, block, Nat.zero_add]
  · rw [result.mem, ← block, store_append]

include runs in
/-- On buffers that fit, an update is a step of the block stream. -/
theorem modesCipherUpdate_spec {ctx : ModesCipherCtx κ} (mem : Memory Byte)
    {inp inLen out outLen : Nat} (small : ctx.dataLen ≤ 16)
    (fits : Fits serves ctx inp inLen out outLen) :
    Updated ctx mem out 0 (update (T ctx.commonCtx.ciphCtx) (holds ctx) (waiting ctx)
      (load mem inp inLen)) (modesCipherUpdate blockUpdate ctx mem inp inLen out outLen) := by
  obtain ⟨padding, hp⟩ : ∃ padding, padding = cachePadding ctx inLen := ⟨_, rfl⟩
  obtain ⟨le, total, fresh, short⟩ := cachePadding_spec ctx inLen small
  rw [← hp] at le total fresh short
  obtain ⟨ctx', hctx⟩ : ∃ ctx', ctx' = fillCache ctx mem inp padding := ⟨_, rfl⟩
  have cached := waiting_fillCache ctx mem inp padding
  rw [← hctx] at cached
  have length : ctx'.dataLen = ctx.dataLen + padding := by rw [hctx]; rfl
  have common : ctx'.commonCtx = ctx.commonCtx := by rw [hctx]; rfl
  have same : SameSetting ctx' ctx := by rw [hctx]; exact ⟨rfl, rfl, rfl, rfl, rfl⟩
  have source : modesCipherUpdate blockUpdate ctx mem inp inLen out outLen =
      finish blockUpdate
        (processCache blockUpdate ctx' mem (inp + padding) (inLen - padding) out 0) := by
    have filled : (if padding ≠ 0 then fillCache ctx mem inp padding else ctx) = ctx' := by
      split_ifs with some
      · exact hctx.symm
      · rw [hctx, not_not.mp some, fillCache_zero]
    have ok : ¬ (modeCheckUpdateParam 16 ctx.dataLen inLen outLen ≠ cryptSuccess) :=
      not_not.mpr (modeCheckUpdateParam_ok fits.total fits.room)
    rw [modesCipherUpdate, if_neg ok]
    simp only [modesCipherUpdateCache, ← hp, filled, finish]
  have cut : (waiting ctx).cache ++ load mem inp inLen =
      (waiting ctx').cache ++ load mem (inp + padding) (inLen - padding) := by
    rw [cached, List.append_assoc, ← load_add, Nat.add_sub_of_le le]
  have stream : update (T ctx.commonCtx.ciphCtx) (holds ctx) (waiting ctx) (load mem inp inLen) =
      update (T ctx'.commonCtx.ciphCtx) (holds ctx') (waiting ctx')
        (load mem (inp + padding) (inLen - padding)) := by
    simp only [update, cut, common, same.holds_eq]
    rw [cached]
  rw [stream, source]
  suffices h : Updated ctx' mem out 0 (update (T ctx'.commonCtx.ciphCtx) (holds ctx') (waiting ctx')
      (load mem (inp + padding) (inLen - padding))) (finish blockUpdate
        (processCache blockUpdate ctx' mem (inp + padding) (inLen - padding) out 0)) from
    ⟨h.ret, h.outLen, h.mem, h.waiting, h.same.trans same⟩
  have size : (waiting ctx').cache.length = ctx'.dataLen := by rw [waiting, length_load]
  by_cases complete : ctx'.dataLen = 16
  · by_cases ready : inLen - padding ≠ 0 ∨ holds ctx' = false
    · have within := runs.within _ _ _ padding (inLen - padding) fits.serves (by omega)
      have place : out + ctx.dataLen + padding = out + 16 := by omega
      rw [place] at within
      have behind := fits.behind
      exact finish_of_block runs mem complete ready within (by omega) (by
        rw [same.dataAt]
        exact fits.apart)
    · obtain ⟨none, held⟩ : inLen - padding = 0 ∧ holds ctx' = true := by
        rw [not_or, not_not, Bool.not_eq_false] at ready
        exact ready
      have nothing (p : Nat) : load mem p 0 = [] := rfl
      have keep : kept 16 (holds ctx') ((waiting ctx').cache ++ []).length =
          ((waiting ctx').cache ++ []).length := by
        rw [List.append_nil, size, complete, held]
        rfl
      have hold := (holds_iff ctx').mp held
      have stay : processCache blockUpdate ctx' mem (inp + padding) 0 out 0 =
          ⟨cryptSuccess, ctx', mem, inp + padding, 0, out, 0⟩ := by
        rw [processCache, if_neg (not_not.mpr complete), if_pos ⟨hold.1, rfl, hold.2⟩]
      rw [none, nothing, update_waiting _ _ keep, List.append_nil, stay, finish,
        if_neg (not_not.mpr rfl), modesCipherUpdateRest, if_pos rfl]
      exact ⟨rfl, rfl, (store_nil _ _).symm, rfl, SameSetting.refl _⟩
  · have go : finish blockUpdate
        (processCache blockUpdate ctx' mem (inp + padding) (inLen - padding) out 0) =
        modesCipherUpdateRest blockUpdate ⟨cryptSuccess, ctx', mem, inp + padding,
          inLen - padding, out, 0⟩ := by
      rw [processCache, if_pos complete, finish]
      simp only [ne_eq, not_true_eq_false, if_false]
    rw [go]
    by_cases none : inLen - padding = 0
    · have nothing (p : Nat) : load mem p 0 = [] := rfl
      have keep : kept 16 (holds ctx') ((waiting ctx').cache ++ []).length =
          ((waiting ctx').cache ++ []).length := by
        rw [List.append_nil, size, kept, if_neg (by omega)]
        omega
      rw [none, nothing, update_waiting _ _ keep, List.append_nil, modesCipherUpdateRest,
        if_pos rfl]
      exact ⟨rfl, rfl, (store_nil _ _).symm, rfl, SameSetting.refl _⟩
    · have empty : ctx.dataLen = 0 := by
        by_contra some
        have all := short some (by omega)
        omega
      have zero := fresh empty
      have served := fits.serves
      rw [empty, Nat.add_zero] at served
      have rest := modesCipherUpdateRest_spec runs ⟨cryptSuccess, ctx', mem, inp + padding,
        inLen - padding, out, 0⟩ (fun _ => by simp only; omega) (by simpa [zero] using served) none
      have state : waiting ctx' = ⟨ctx'.commonCtx.iv, []⟩ := by
        have nothing : load ctx'.data 0 0 = [] := rfl
        rw [waiting, length, empty, zero, Nat.add_zero, nothing]
      rw [state]
      exact rest

/-! ## The final call -/

structure Ended {σ : Type} (mem : Memory Byte) (out : Nat) (code : Int) (tail : Option (List Byte))
    (r : UpdateResult σ) : Prop where
  refused : tail = none → r.ret = code
  done : ∀ b, tail = some b → r.ret = cryptSuccess ∧ r.outLen = b.length ∧
    load r.mem out b.length = b
  frame : ∀ a, a < out ∨ out + 16 ≤ a → r.mem a = mem a

theorem ended_of_ret {mem : Memory Byte} {out : Nat} {code : Int} {tail : Option (List Byte)}
    {r : UpdateResult (ModesCipherCtx κ)} (same : r.mem = mem)
    (refused : tail = none → r.ret = code)
    (done : ∀ b, tail = some b → r.ret = cryptSuccess ∧ b = [] ∧ r.outLen = 0) :
    Ended mem out code tail r := by
  refine ⟨refused, fun b some => ?_, fun a _ => by rw [same]⟩
  obtain ⟨ok, rfl, none⟩ := done b some
  exact ⟨ok, none, rfl⟩

theorem ended_of_store {mem : Memory Byte} {out : Nat} {code : Int} {tail : Option (List Byte)}
    {r : UpdateResult (ModesCipherCtx κ)} {written : List Byte} (block : written.length = 16)
    (same : r.mem = store mem out written) (refused : tail = none → r.ret = code)
    (done : ∀ b, tail = some b → r.ret = cryptSuccess ∧ r.outLen = b.length ∧
      ∃ more, written = b ++ more) : Ended mem out code tail r := by
  refine ⟨refused, fun b some => ?_, fun a outside => ?_⟩
  · obtain ⟨ok, length, more, cut⟩ := done b some
    have loaded := load_store mem out written rfl
    rw [cut, List.length_append, load_add] at loaded
    refine ⟨ok, length, ?_⟩
    rw [same, cut]
    exact (List.append_inj loaded (length_load _ _ _)).1
  · rw [same]
    exact store_of_not_mem mem out a written (by rw [block]; exact outside)

include runs in
theorem modesCipherFinal_enc {ctx : ModesCipherCtx κ} (mem : Memory Byte) {out outLen : Nat}
    (enc : ctx.enc = true) (short : ctx.dataLen < 16) (kind : ifXts ctx.algId = false)
    (room : 16 ≤ outLen) (apart : ctx.dataAt ≠ out) :
    Ended mem out cryptModeErrInputLen ((padded ctx.pad (waiting ctx).cache).map fun b =>
      ((T ctx.commonCtx.ciphCtx).feed (waiting ctx).state b).1)
      (modesCipherFinal blockUpdate ctx mem (some out) (some outLen)) := by
  have fits : ¬ (ctx.pad ≠ .none ∧ outLen < 16) := by omega
  have nothing : load ctx.data 0 0 = [] := rfl
  rw [modesCipherFinal, if_neg fits, if_pos enc, waiting, padded, length_load]
  by_cases none : ctx.pad = .none
  · rw [if_pos none, none]
    simp only [modesBlockPadding, kind, Nat.mod_eq_of_lt short]
    by_cases empty : ctx.dataLen = 0
    · simp only [empty, ne_eq, not_true_eq_false, if_false, if_true, nothing, Option.map_some,
        Transducer.feed_nil]
      refine ended_of_ret rfl (fun h => by cases h) fun b h => ?_
      exact ⟨rfl, (Option.some.inj h).symm, rfl⟩
    · simp only [empty, ne_eq, not_false_eq_true, if_true, Bool.false_eq_true, if_false]
      rw [if_pos (by decide)]
      exact ended_of_ret rfl (fun _ => rfl) fun b h => by cases h
  · obtain ⟨l, hl⟩ : ∃ l, l = fill ctx.pad (16 - ctx.dataLen) := ⟨_, rfl⟩
    have length : l.length = 16 - ctx.dataLen := hl ▸ length_fill none (by omega)
    have bytes : load (store ctx.data ctx.dataLen l) 0 16 = load ctx.data 0 ctx.dataLen ++ l := by
      have behind := load_store_behind ctx.data 0 ctx.dataLen l
      rwa [Nat.zero_add, length, Nat.add_sub_of_le (Nat.le_of_lt short)] at behind
    have block := runs.own ctx.commonCtx mem (store ctx.data ctx.dataLen l) ctx.dataAt out apart
    have size : (load ctx.data 0 ctx.dataLen ++ l).length = 16 := by rw [← bytes, length_load]
    have written := (T ctx.commonCtx.ciphCtx).length_feed ctx.commonCtx.iv
      (load ctx.data 0 ctx.dataLen ++ l) (by rw [size])
    rw [size] at written
    rw [if_neg none, modesBlockPadding_eq ctx.algId none ctx.data short, ← hl]
    simp only [block, bytes, ne_eq, not_true_eq_false, if_false, OfNat.ofNat_ne_zero,
      Option.map_some]
    refine ended_of_store written rfl (fun h => by cases h) fun b h => ?_
    obtain rfl := Option.some.inj h
    exact ⟨rfl, written.symm, [], (List.append_nil _).symm⟩

theorem modesBlockUnPadding_ended {ctx : ModesCipherCtx κ} {mem : Memory Byte} {out outLen : Nat}
    {written : List Byte} (block : written.length = 16) (next : ModesCipherCtx κ)
    (next' : ModesCipherCtx κ) :
    Ended mem out cryptEalCipherDataError (unpadded ctx.pad written)
      (match modesBlockUnPadding ctx.pad (fun i => store mem out written (out + i)) 16 16 with
        | .error ret => ⟨ret, next, store mem out written, outLen⟩
        | .ok len => ⟨cryptSuccess, next', store mem out written, len⟩) := by
  have reads : modesBlockUnPadding ctx.pad (fun i => store mem out written (out + i)) 16 16 =
      modesBlockUnPadding ctx.pad (fun i => written.getD i 0) 16 16 := by
    refine modesBlockUnPadding_congr 16 (by decide) fun i hi => ?_
    have inside : i < written.length := by rw [block]; exact hi
    rw [store_of_mem mem out i written inside]
    simp [inside]
  have some : written ≠ [] := by
    rintro rfl
    cases block
  rw [reads, unpadded, if_neg some, block]
  cases result : modesBlockUnPadding ctx.pad (fun i => written.getD i 0) 16 16 with
  | error e =>
    refine ended_of_store block rfl (fun _ => modesBlockUnPadding_error result) fun b h => ?_
    cases h
  | ok len =>
    refine ended_of_store block rfl (fun h => by cases h) fun b h => ?_
    obtain rfl := Option.some.inj h
    have le : len ≤ 16 := modesBlockUnPadding_le (Nat.le_refl 16) result
    refine ⟨rfl, ?_, written.drop len, (List.take_append_drop len written).symm⟩
    rw [List.length_take_of_le (by rw [block]; exact le)]

include runs in
theorem modesCipherFinal_dec {ctx : ModesCipherCtx κ} (mem : Memory Byte) {out outLen : Nat}
    (dec : ctx.enc = false) (small : ctx.dataLen ≤ 16) (room : 16 ≤ outLen)
    (apart : ctx.dataAt ≠ out) :
    Ended mem out (if 16 ∣ ctx.dataLen then cryptEalCipherDataError else cryptModeErrInputLen)
      (if 16 ∣ (waiting ctx).cache.length then
        unpadded ctx.pad ((T ctx.commonCtx.ciphCtx).feed (waiting ctx).state (waiting ctx).cache).1
        else none)
      (modesCipherFinal blockUpdate ctx mem (some out) (some outLen)) := by
  have fits : ¬ (ctx.pad ≠ .none ∧ outLen < 16) := by omega
  have notEnc : ¬ ctx.enc = true := by rw [dec]; decide
  have nothing : load ctx.data 0 0 = [] := rfl
  rw [modesCipherFinal, if_neg fits, if_neg notEnc, waiting, length_load]
  by_cases empty : ctx.dataLen = 0
  · rw [if_pos empty]
    simp only [empty, nothing, Transducer.feed_nil, dvd_zero, if_true]
    refine ended_of_ret rfl (fun h => by cases h) fun b h => ?_
    exact ⟨rfl, (Option.some.inj h).symm, rfl⟩
  rw [if_neg empty]
  by_cases full : ctx.dataLen = 16
  · have block := runs.own ctx.commonCtx mem ctx.data ctx.dataAt out apart
    obtain ⟨u, hu⟩ : ∃ u, u =
      (T ctx.commonCtx.ciphCtx).feed ctx.commonCtx.iv (load ctx.data 0 16) := ⟨_, rfl⟩
    have length : u.1.length = 16 := by
      rw [hu, Transducer.length_feed _ _ _ (by simp), length_load]
    simp only [← hu] at block
    simp only [full, block, ne_eq, not_true_eq_false, if_false, ← hu, dvd_refl, if_true]
    exact modesBlockUnPadding_ended length _ _
  · have part := runs.part ctx.commonCtx mem ctx.data ctx.dataAt out ctx.dataLen (by omega)
      (by omega)
    have no : ¬ 16 ∣ ctx.dataLen := by omega
    simp only [part, if_neg no]
    rw [if_pos (by decide)]
    exact ended_of_ret rfl (fun _ => rfl) fun b h => by cases h

end Steps

end SystemsLab.ModesCipherUpdate
