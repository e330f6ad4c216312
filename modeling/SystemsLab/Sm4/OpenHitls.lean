import SystemsLab.Sm4.Demo
import SystemsLab.Sm4.PortableCbc

/-! The rewritten SM4 core of openHiTLS (`crypt_sm4.c`): literal tables, an encryption macro of
32 hand-unrolled rounds on rotating registers, a decryption loop of eight rounds per
turn, and the block loop with its input checks. -/

namespace SystemsLab.Sm4OpenHitls
open ByteWord ShiftRegister CountedLoop Textbook Sm4Portable Sm4RoundTables Buffer

/-! ## Tables -/

def xbox0 : Vector Word 256 := printed0

def xbox1 : Vector Word 256 := printed1

def xbox2 : Vector Word 256 := printed2

def xbox3 : Vector Word 256 := printed3

/-! ## One block -/

/-- `CRYPT_SM4_ROUND`: the new value of its register `x0`. -/
def cryptSm4Round (x0 x1 x2 x3 rk : Word) : Word :=
  let t1 := x1 ^^^ x2
  let t2 := x3 ^^^ rk
  let t := t1 ^^^ t2
  let te := lookup xbox3 (((t >>> 24) &&& 0xFF).setWidth 8) ^^^
    lookup xbox2 (((t >>> 16) &&& 0xFF).setWidth 8) ^^^
    lookup xbox1 (((t >>> 8) &&& 0xFF).setWidth 8) ^^^ lookup xbox0 ((t &&& 0xFF).setWidth 8)
  x0 ^^^ te

def encRoundFunction (x : Window Word) (roundKey : RoundKeys) : Window Word :=
  let x0 := x.a
  let x1 := x.b
  let x2 := x.c
  let x3 := x.d
  let x0 := cryptSm4Round x0 x1 x2 x3 roundKey[0]!
  let x1 := cryptSm4Round x1 x2 x3 x0 roundKey[1]!
  let x2 := cryptSm4Round x2 x3 x0 x1 roundKey[2]!
  let x3 := cryptSm4Round x3 x0 x1 x2 roundKey[3]!
  let x0 := cryptSm4Round x0 x1 x2 x3 roundKey[4]!
  let x1 := cryptSm4Round x1 x2 x3 x0 roundKey[5]!
  let x2 := cryptSm4Round x2 x3 x0 x1 roundKey[6]!
  let x3 := cryptSm4Round x3 x0 x1 x2 roundKey[7]!
  let x0 := cryptSm4Round x0 x1 x2 x3 roundKey[8]!
  let x1 := cryptSm4Round x1 x2 x3 x0 roundKey[9]!
  let x2 := cryptSm4Round x2 x3 x0 x1 roundKey[10]!
  let x3 := cryptSm4Round x3 x0 x1 x2 roundKey[11]!
  let x0 := cryptSm4Round x0 x1 x2 x3 roundKey[12]!
  let x1 := cryptSm4Round x1 x2 x3 x0 roundKey[13]!
  let x2 := cryptSm4Round x2 x3 x0 x1 roundKey[14]!
  let x3 := cryptSm4Round x3 x0 x1 x2 roundKey[15]!
  let x0 := cryptSm4Round x0 x1 x2 x3 roundKey[16]!
  let x1 := cryptSm4Round x1 x2 x3 x0 roundKey[17]!
  let x2 := cryptSm4Round x2 x3 x0 x1 roundKey[18]!
  let x3 := cryptSm4Round x3 x0 x1 x2 roundKey[19]!
  let x0 := cryptSm4Round x0 x1 x2 x3 roundKey[20]!
  let x1 := cryptSm4Round x1 x2 x3 x0 roundKey[21]!
  let x2 := cryptSm4Round x2 x3 x0 x1 roundKey[22]!
  let x3 := cryptSm4Round x3 x0 x1 x2 roundKey[23]!
  let x0 := cryptSm4Round x0 x1 x2 x3 roundKey[24]!
  let x1 := cryptSm4Round x1 x2 x3 x0 roundKey[25]!
  let x2 := cryptSm4Round x2 x3 x0 x1 roundKey[26]!
  let x3 := cryptSm4Round x3 x0 x1 x2 roundKey[27]!
  let x0 := cryptSm4Round x0 x1 x2 x3 roundKey[28]!
  let x1 := cryptSm4Round x1 x2 x3 x0 roundKey[29]!
  let x2 := cryptSm4Round x2 x3 x0 x1 roundKey[30]!
  let x3 := cryptSm4Round x3 x0 x1 x2 roundKey[31]!
  ⟨x0, x1, x2, x3⟩

/-- `DEC_ROUND_FUNCTION`: the loop `for (i = 32; i > 0; i -= 8)`, with `i = 8 * (j + 1)`. -/
def decRoundFunction (x : Window Word) (roundKey : RoundKeys) : Window Word :=
  Nat.foldRev 4 (fun j _ x =>
    let i := 8 * (j + 1)
    let x0 := x.a
    let x1 := x.b
    let x2 := x.c
    let x3 := x.d
    let x0 := cryptSm4Round x0 x1 x2 x3 roundKey[i - 1]!
    let x1 := cryptSm4Round x1 x2 x3 x0 roundKey[i - 2]!
    let x2 := cryptSm4Round x2 x3 x0 x1 roundKey[i - 3]!
    let x3 := cryptSm4Round x3 x0 x1 x2 roundKey[i - 4]!
    let x0 := cryptSm4Round x0 x1 x2 x3 roundKey[i - 5]!
    let x1 := cryptSm4Round x1 x2 x3 x0 roundKey[i - 6]!
    let x2 := cryptSm4Round x2 x3 x0 x1 roundKey[i - 7]!
    let x3 := cryptSm4Round x3 x0 x1 x2 roundKey[i - 8]!
    (⟨x0, x1, x2, x3⟩ : Window Word)) x

def getUint32Be (p : Block) (i : Nat) : Word :=
  (p[i]!.setWidth 32 <<< 24) ||| (p[i + 1]!.setWidth 32 <<< 16) |||
    (p[i + 2]!.setWidth 32 <<< 8) ||| (p[i + 3]!.setWidth 32 <<< 0)

def putUint32Be (v : Word) : Vector Byte 4 :=
  vec4 ((v >>> 24).setWidth 8) ((v >>> 16).setWidth 8) ((v >>> 8).setWidth 8) ((v >>> 0).setWidth 8)

def sm4Crypt (inp : Block) (rk : RoundKeys) (enc : Bool) : Block :=
  let x : Window Word := ⟨getUint32Be inp 0, getUint32Be inp 4,
    getUint32Be inp 8, getUint32Be inp 12⟩
  let x := if enc then encRoundFunction x rk else decRoundFunction x rk
  concat4 (putUint32Be x.d) (putUint32Be x.c) (putUint32Be x.b) (putUint32Be x.a)

/-! ## The interface -/

def cryptSuccess : Int := 0
def cryptNullInput : Int := 0x01010001
def cryptSm4ErrMsgLen : Int := 0x011B0002

structure CryptSm4Ctx where
  iv : Block
  rk : RoundKeys

structure CryptResult where
  mem : Memory Byte
  ret : Int

/-- `CRYPT_SM4_Crypt`; a null pointer is `none`, and the pushed error record is left out. -/
def cryptSm4Crypt (mem : Memory Byte) (ctx : Option CryptSm4Ctx)
    (inp out : Option Nat) (length : Nat) (enc : Bool) : CryptResult :=
  match ctx, inp, out with
  | some ctx, some inp, some out =>
    if length = 0 then ⟨mem, cryptNullInput⟩
    else if length % 16 ≠ 0 then ⟨mem, cryptSm4ErrMsgLen⟩
    else
      let blocks := length / 16
      let mem := Nat.fold blocks (fun i _ mem =>
        write mem (out + i * 16) (sm4Crypt (read 16 mem (inp + i * 16)) ctx.rk enc)) mem
      ⟨mem, cryptSuccess⟩
  | _, _, _ => ⟨mem, cryptNullInput⟩

def cryptSm4Encrypt (mem : Memory Byte) (ctx : Option CryptSm4Ctx) (inp out : Option Nat)
    (length : Nat) : CryptResult := cryptSm4Crypt mem ctx inp out length true

def cryptSm4Decrypt (mem : Memory Byte) (ctx : Option CryptSm4Ctx) (inp out : Option Nat)
    (length : Nat) : CryptResult := cryptSm4Crypt mem ctx inp out length false

/-! ## The macros against the textbook -/

theorem xbox_spec : IsBox xbox0 0 ∧ IsBox xbox1 8 ∧ IsBox xbox2 16 ∧ IsBox xbox3 24 := printed_spec

theorem cryptSm4Round_eq (x0 x1 x2 x3 rk : Word) :
    cryptSm4Round x0 x1 x2 x3 rk = x0 ^^^ feedback sm4RoundT rk x1 x2 x3 := by
  obtain ⟨h0, h1, h2, h3⟩ := xbox_spec
  have last (t : Word) : (t &&& 0xFF).setWidth 8 = byteOf t 0 := setWidth_and_ff t 0
  simp only [cryptSm4Round, setWidth_and_ff]
  rw [last, feedback, sm4RoundT_eq_lookups h0 h1 h2 h3]
  simp only [BitVec.xor_assoc]

def quad (x : Window Word) (k0 k1 k2 k3 : Word) : Window Word :=
  let x0 := cryptSm4Round x.a x.b x.c x.d k0
  let x1 := cryptSm4Round x.b x.c x.d x0 k1
  let x2 := cryptSm4Round x.c x.d x0 x1 k2
  let x3 := cryptSm4Round x.d x0 x1 x2 k3
  ⟨x0, x1, x2, x3⟩

theorem quad_eq (x : Window Word) (k0 k1 k2 k3 : Word) :
    quad x k0 k1 k2 k3 = rounds sm4RoundT [k0, k1, k2, k3] x := by
  simp only [quad, cryptSm4Round_eq]
  rfl

theorem encRoundFunction_eq (x : Window Word) (rk : RoundKeys) :
    encRoundFunction x rk = rounds sm4RoundT rk.toList x := by
  have quads : encRoundFunction x rk =
      quad (quad (quad (quad (quad (quad (quad (quad x rk[0] rk[1] rk[2] rk[3])
        rk[4] rk[5] rk[6] rk[7]) rk[8] rk[9] rk[10] rk[11]) rk[12] rk[13] rk[14] rk[15])
        rk[16] rk[17] rk[18] rk[19]) rk[20] rk[21] rk[22] rk[23]) rk[24] rk[25] rk[26] rk[27])
        rk[28] rk[29] rk[30] rk[31] := rfl
  rw [quads, keys_eq]
  simp only [quad_eq, rounds_append]

theorem decRoundFunction_eq (x : Window Word) (rk : RoundKeys) :
    decRoundFunction x rk = rounds sm4RoundT rk.toList.reverse x := by
  have quads : decRoundFunction x rk =
      quad (quad (quad (quad (quad (quad (quad (quad x rk[31] rk[30] rk[29] rk[28])
        rk[27] rk[26] rk[25] rk[24]) rk[23] rk[22] rk[21] rk[20]) rk[19] rk[18] rk[17] rk[16])
        rk[15] rk[14] rk[13] rk[12]) rk[11] rk[10] rk[9] rk[8]) rk[7] rk[6] rk[5] rk[4])
        rk[3] rk[2] rk[1] rk[0] := rfl
  rw [quads, keys_eq]
  simp only [quad_eq, List.reverse_append, rounds_append]
  rfl

theorem sm4Crypt_eq (inp : Block) (rk : RoundKeys) (enc : Bool) :
    sm4Crypt inp rk enc = cipher sm4RoundT (if enc then rk.toList else rk.toList.reverse) inp := by
  have put (v : Word) : putUint32Be v = bytesOf v := by simp [putUint32Be, bytesOf, byteOf]
  have get (i : Nat) (h : i + 4 ≤ 16) : getUint32Be inp i = wordAt inp i h := by
    rw [getUint32Be, BitVec.shiftLeft_zero]
    exact load_eq_wordAt inp h
  simp only [sm4Crypt, put, get 0 (by decide), get 4 (by decide), get 8 (by decide),
    get 12 (by decide),
    encRoundFunction_eq, decRoundFunction_eq]
  cases enc <;> rfl

/-! ## Whole messages -/

theorem cryptSm4Crypt_blocks (mem : Memory Byte) (ctx : CryptSm4Ctx)
    {inp out count : Nat} (enc : Bool)
    (pos : 16 * count ≠ 0) (apart : SameOrApart inp out (16 * count)) :
    let r := cryptSm4Crypt mem (some ctx) (some inp) (some out) (16 * count) enc
    r.ret = cryptSuccess ∧
      (∀ k < count, blocksAt r.mem out k =
        cipher sm4RoundT (if enc then ctx.rk.toList else ctx.rk.toList.reverse)
          (blocksAt mem inp k)) ∧
      ∀ a, a < out ∨ out + 16 * count ≤ a → r.mem a = mem a := by
  have run : cryptSm4Crypt mem (some ctx) (some inp) (some out) (16 * count) enc =
      ⟨mapBlocks (fun b => sm4Crypt b ctx.rk enc) inp out count mem, cryptSuccess⟩ := by
    rw [cryptSm4Crypt, if_neg pos, if_neg (by omega), Nat.mul_div_cancel_left count (by decide)]
    rfl
  obtain ⟨blocks, frame⟩ := mapBlocks_spec (fun b => sm4Crypt b ctx.rk enc) apart mem
  simp only [run, true_and]
  refine ⟨fun k hk => (blocks k hk).trans ?_, frame⟩
  rw [sm4Crypt_eq]
  rfl

theorem cryptSm4Crypt_inverse {mem : Memory Byte} {ctx : CryptSm4Ctx} {inp out back count : Nat}
    (enc : Bool) (pos : 16 * count ≠ 0) (apart : SameOrApart inp out (16 * count))
    (next : SameOrApart out back (16 * count)) :
    let r := cryptSm4Crypt mem (some ctx) (some inp) (some out) (16 * count) enc
    ∀ i < 16 * count,
      (cryptSm4Crypt r.mem (some ctx) (some out) (some back) (16 * count) !enc).mem (back + i) =
        mem (inp + i) := by
  intro r
  have first := (cryptSm4Crypt_blocks mem ctx enc pos apart).2.1
  have second := (cryptSm4Crypt_blocks r.mem ctx (!enc) pos next).2.1
  refine agree_of_blocks (by decide) fun k hk => (second k hk).trans ?_
  rw [first k hk]
  cases enc
  · exact cipher_of_reverse _ _ _
  · exact cipher_reverse _ _ _

theorem cryptSm4Crypt_missing {mem : Memory Byte} {ctx : Option CryptSm4Ctx} {inp out : Option Nat}
    {length : Nat} (enc : Bool) (missing : ctx = none ∨ inp = none ∨ out = none ∨ length = 0) :
    cryptSm4Crypt mem ctx inp out length enc = ⟨mem, cryptNullInput⟩ := by
  match ctx, inp, out with
  | none, _, _ => rfl
  | some _, none, _ => rfl
  | some _, some _, none => rfl
  | some _, some _, some _ =>
    have zero : length = 0 := by simpa using missing
    rw [cryptSm4Crypt, if_pos zero]

theorem cryptSm4Crypt_uneven {mem : Memory Byte} {ctx : CryptSm4Ctx} {inp out length : Nat}
    (enc : Bool) (part : length % 16 ≠ 0) :
    cryptSm4Crypt mem (some ctx) (some inp) (some out) length enc = ⟨mem, cryptSm4ErrMsgLen⟩ := by
  rw [cryptSm4Crypt, if_neg (by omega), if_pos part]

/-- For a non-empty message of whole blocks, encryption writes block by block the words of the
standard's recurrence and decryption is its inverse, also in place; otherwise, or for
a null pointer, both report the error and write nothing. -/
theorem cryptSm4_spec (mem : Memory Byte) (length : Nat) :
    (∀ ctx inp out, length ≠ 0 → length % 16 = 0 → SameOrApart inp out length →
      let e := cryptSm4Encrypt mem (some ctx) (some inp) (some out) length
      let d := cryptSm4Decrypt mem (some ctx) (some inp) (some out) length
      e.ret = cryptSuccess ∧ d.ret = cryptSuccess ∧
      (∀ k < length / 16, ∃ x, Recurrence Sm4Demo.sm4T ctx.rk (blocksAt mem inp k) x ∧
        blocksAt e.mem out k = storeWords ⟨x 35, x 34, x 33, x 32⟩) ∧
      (∀ a, a < out ∨ out + length ≤ a → e.mem a = mem a ∧ d.mem a = mem a) ∧
      ∀ back, SameOrApart out back length → ∀ i < length,
        (cryptSm4Decrypt e.mem (some ctx) (some out) (some back) length).mem
          (back + i) = mem (inp + i) ∧
        (cryptSm4Encrypt d.mem (some ctx) (some out) (some back) length).mem (back + i) =
          mem (inp + i)) ∧
    (∀ ctx inp out, ctx = none ∨ inp = none ∨ out = none ∨ length = 0 →
      cryptSm4Encrypt mem ctx inp out length = ⟨mem, cryptNullInput⟩ ∧
        cryptSm4Decrypt mem ctx inp out length = ⟨mem, cryptNullInput⟩) ∧
    ∀ ctx inp out, length % 16 ≠ 0 →
      cryptSm4Encrypt mem (some ctx) (some inp) (some out) length = ⟨mem, cryptSm4ErrMsgLen⟩ ∧
        cryptSm4Decrypt mem (some ctx) (some inp) (some out) length = ⟨mem, cryptSm4ErrMsgLen⟩ := by
  refine ⟨fun ctx inp out pos whole apart => ?_,
    fun _ _ _ missing => ⟨cryptSm4Crypt_missing true missing, cryptSm4Crypt_missing false missing⟩,
    fun _ _ _ part => ⟨cryptSm4Crypt_uneven true part, cryptSm4Crypt_uneven false part⟩⟩
  obtain ⟨count, rfl⟩ : ∃ count, length = 16 * count := ⟨length / 16, by omega⟩
  obtain ⟨eret, eblocks, eframe⟩ := cryptSm4Crypt_blocks mem ctx true pos apart
  obtain ⟨dret, -, dframe⟩ := cryptSm4Crypt_blocks mem ctx false pos apart
  refine ⟨eret, dret, fun k hk => ?_, fun a ha => ⟨eframe a ha, dframe a ha⟩, fun back next i hi =>
    ⟨cryptSm4Crypt_inverse true pos apart next i hi,
      cryptSm4Crypt_inverse false pos apart next i hi⟩⟩
  have same : Sm4Demo.sm4T = sm4RoundT := funext Sm4Demo.sm4T_eq
  obtain ⟨x, hx⟩ := exists_recurrence sm4RoundT ctx.rk (blocksAt mem inp k)
  exact ⟨x, same ▸ hx, (eblocks k (by omega)).trans hx.cipher_eq⟩

theorem cryptSm4_spec_in_place :
    let mem : Memory Byte := fun a => BitVec.ofNat 8 (3 * a)
    let ctx : CryptSm4Ctx :=
      ⟨Vector.replicate 16 0, Vector.ofFn fun i : Fin 32 => BitVec.ofNat 32 i⟩
    let e := cryptSm4Encrypt mem (some ctx) (some 64) (some 64) 32
    e.ret = 0 ∧ ∀ i < 32,
      (cryptSm4Decrypt e.mem (some ctx) (some 64) (some 64) 32).mem (64 + i) = mem (64 + i) := by
  intro mem ctx e
  obtain ⟨ret, -, -, -, back⟩ :=
    (cryptSm4_spec mem 32).1 ctx 64 64 (by decide) (by decide) (Or.inl rfl)
  exact ⟨ret, fun i hi => (back 64 (Or.inl rfl) i hi).1⟩

end SystemsLab.Sm4OpenHitls
