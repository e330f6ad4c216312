import SystemsLab.Modes.Padding

/-! The block functions of the ECB and CBC modes of openHiTLS (`modes_ecb.c`, `modes_cbc.c`). They
run over pointers, so the chaining value is a pointer into what was just written or read; each
is shown to be one call of a machine whose state is the chaining value, for the buffers
that it can serve. -/

namespace SystemsLab.ModesBlockCrypt
open ByteWord Textbook Buffer CountedLoop CipherChaining StreamMachine Sm4OpenHitls Sm4PortableCbc
open ModesPadding

/-- A block cipher in the method table, on its contexts; blocks are never refused. -/
structure EalSymMethod (κ : Type) where
  setEncryptKey : κ → Memory Byte → Option Nat → Nat → Int × κ
  setDecryptKey : κ → Memory Byte → Option Nat → Nat → Int × κ
  encryptBlock : κ → Block → Block
  decryptBlock : κ → Block → Block
  cipherDeInitCtx : κ → κ

/-- `MODES_CipherCommonCtx`, as far as the block modes use it, with the addresses of the arrays
`iv` and `buf`. -/
structure ModesCipherCommonCtx (κ : Type) where
  ciphCtx : κ
  iv : Block
  ivAt : Nat
  bufAt : Nat

/-! ## Pointers -/

/-- A pointer into an array of the context, or into the memory of the caller. -/
inductive Ptr
  | own (array : Memory Byte) (addr : Nat)
  | shared (addr : Nat)

namespace Ptr

def addr : Ptr → Nat
  | own _ a => a
  | shared p => p

def get (mem : Memory Byte) : Ptr → Nat → Byte
  | own array _, i => array i
  | shared p, i => mem (p + i)

def add : Ptr → Nat → Ptr
  | own array a, k => own (fun i => array (k + i)) (a + k)
  | shared p, k => shared (p + k)

def block (mem : Memory Byte) (p : Ptr) : Block := Vector.ofFn fun i : Fin 16 => p.get mem i.val

@[simp] theorem block_shared (mem : Memory Byte) (p : Nat) :
    (shared p).block mem = read 16 mem p := rfl

theorem block_own (mem array : Memory Byte) (a : Nat) :
    (own array a).block mem = read 16 array 0 := by
  apply Vector.ext
  intro i hi
  simp [block, get]

end Ptr

def ivPtr {κ : Type} (ctx : ModesCipherCommonCtx κ) : Ptr :=
  .own (fun i => ctx.iv.toList.getD i 0) ctx.ivAt

theorem ivPtr_block {κ : Type} (ctx : ModesCipherCommonCtx κ) (mem : Memory Byte) :
    (ivPtr ctx).block mem = ctx.iv := by
  apply Vector.ext
  intro i hi
  simp [ivPtr, Ptr.block, Ptr.get]

/-- `DATA32_XOR(a, b, r, 16)` and `DATA64_XOR(a, b, r, 16)`: units of `width` bytes when the
three pointers are aligned to them, else bytes; `b` is not in the memory. -/
def dataXor (width : Nat) (mem : Memory Byte) (a : Ptr) (b : Block) (bAt r : Nat) : Memory Byte :=
  if a.addr % width ≠ 0 ∨ bAt % width ≠ 0 ∨ r % width ≠ 0 then
    forLoop 0 16 1 (fun ii mem => Function.update mem (r + ii) (a.get mem ii ^^^ b[ii]!)) mem
  else
    forLoop 0 16 width (fun ii mem => write mem (r + ii)
      (Vector.ofFn fun j : Fin width => a.get mem (ii + j.val) ^^^ b[ii + j.val]!)) mem

/-- The macro computes the plain result unless the output runs ahead into `a`. -/
theorem dataXor_eq {width : Nat} (units : width ∣ 16) (mem : Memory Byte) (a : Ptr)
    (b : Block) (bAt r : Nat) (clear : ∀ p, a = .shared p → Clear p r 16) :
    dataXor width mem a b bAt r = write mem r (sm4XorBlock (a.block mem) b) := by
  have stays (now : Memory Byte) (done j : Nat) (le : done ≤ j) (top : j < 16)
      (same : ∀ x, x < r ∨ r + done ≤ x → now x = mem x) : a.get now j = a.get mem j := by
    cases a with
    | own array at' => rfl
    | shared p =>
      have apart := clear p rfl
      exact same (p + j) (by rcases apart with below | behind <;> omega)
  have result : store mem r ((List.range 16).map fun j => a.get mem j ^^^ b[j]!) =
      write mem r (sm4XorBlock (a.block mem) b) := by
    have bytes : (List.range 16).map (fun j => a.get mem j ^^^ b[j]!) =
        (sm4XorBlock (a.block mem) b).toList := by
      refine List.ext_getElem (by simp) fun i h₁ h₂ => ?_
      have hi : i < 16 := by simpa using h₂
      simp [sm4XorBlock, Ptr.block, hi]
    rw [bytes, store_toList]
  rw [← result, dataXor]
  split_ifs with unaligned
  · have bytes := forLoop_write_units (u := 1) (by decide) mem r 16
      (fun ii mem => (Vector.ofFn fun _ : Fin 1 => a.get mem ii ^^^ b[ii]!))
      (fun j => a.get mem j ^^^ b[j]!) (by
        intro k hk now same j hj
        obtain rfl : j = 0 := by omega
        simp only [Vector.getElem_ofFn, Nat.add_zero, Nat.one_mul]
        rw [stays now k k (Nat.le_refl k) hk (by simpa using same)])
    simp only [← store_toList, Vector.toList_ofFn, List.ofFn_succ, List.ofFn_zero,
      store_singleton, Nat.one_mul] at bytes
    exact bytes
  · obtain ⟨count, hc⟩ := units
    have pos : 0 < width := Nat.pos_of_ne_zero (by rintro rfl; omega)
    have words := forLoop_write_units pos mem r count
      (fun ii mem => Vector.ofFn fun j : Fin width => a.get mem (ii + j.val) ^^^ b[ii + j.val]!)
      (fun j => a.get mem j ^^^ b[j]!) (by
        intro k hk now same j hj
        have inside := block_le (n := width) hk
        rw [Vector.getElem_ofFn,
          stays now (width * k) (width * k + j) (Nat.le_add_right _ _) (by omega) same])
    rw [← hc] at words
    exact words

/-! ## The block functions -/

structure BlockResult (κ : Type) where
  ret : Int
  ctx : ModesCipherCommonCtx κ
  mem : Memory Byte

variable {κ : Type} (m : EalSymMethod κ)

def modesEcbCrypt (ctx : ModesCipherCommonCtx κ) (mem : Memory Byte) (inp : Ptr) (out len : Nat)
    (enc : Bool) : BlockResult κ :=
  if len = 0 then ⟨cryptNullInput, ctx, mem⟩
  else
    let mem := Nat.fold (len / 16) (fun i _ mem =>
      let input := (inp.add (16 * i)).block mem
      write mem (out + 16 * i)
        (if enc then m.encryptBlock ctx.ciphCtx input else m.decryptBlock ctx.ciphCtx input)) mem
    ⟨if 0 < len % 16 then cryptModeErrInputLen else cryptSuccess, ctx, mem⟩

def modesEcbEncrypt (ctx : ModesCipherCommonCtx κ) (mem : Memory Byte) (inp : Ptr)
    (out len : Nat) : BlockResult κ := modesEcbCrypt m ctx mem inp out len true

def modesEcbDecrypt (ctx : ModesCipherCommonCtx κ) (mem : Memory Byte) (inp : Ptr)
    (out len : Nat) : BlockResult κ := modesEcbCrypt m ctx mem inp out len false

/-- The pointer `iv` of the source follows the output. -/
def modesCbcEncrypt (ctx : ModesCipherCommonCtx κ) (mem : Memory Byte) (inp : Ptr)
    (out len : Nat) : BlockResult κ :=
  if len % 16 ≠ 0 then ⟨cryptModeErrInputLen, ctx, mem⟩
  else
    let r : Memory Byte × Ptr := Nat.fold (len / 16) (fun i _ (r : Memory Byte × Ptr) =>
      let tmp := sm4XorBlock ((inp.add (16 * i)).block r.1) (r.2.block r.1)
      (write r.1 (out + 16 * i) (m.encryptBlock ctx.ciphCtx tmp), Ptr.shared (out + 16 * i)))
      (mem, ivPtr ctx)
    ⟨cryptSuccess, { ctx with iv := r.2.block r.1 }, r.1⟩

/-- One block of the branch `in == out`, where the chaining value moves byte by byte. -/
def cbcSameBlock (p : Nat) (tmp : Block) (r : Memory Byte × Block) : Memory Byte × Block :=
  Nat.fold 16 (fun i h (r : Memory Byte × Block) =>
    let tmpChar := r.1 (p + i)
    (Function.update r.1 (p + i) (tmp[i] ^^^ r.2[i]), r.2.set i tmpChar h)) r

def modesCbcDecrypt (ctx : ModesCipherCommonCtx κ) (mem : Memory Byte) (inp : Ptr)
    (out len : Nat) : BlockResult κ :=
  if len % 16 ≠ 0 then ⟨cryptModeErrInputLen, ctx, mem⟩
  else if inp.addr ≠ out then
    let r : Memory Byte × Ptr := Nat.fold (len / 16) (fun i _ (r : Memory Byte × Ptr) =>
      let input := inp.add (16 * i)
      let tmp := m.decryptBlock ctx.ciphCtx (input.block r.1)
      (dataXor 4 r.1 r.2 tmp ctx.bufAt (out + 16 * i), input)) (mem, ivPtr ctx)
    ⟨cryptSuccess, { ctx with iv := r.2.block r.1 }, r.1⟩
  else
    let r : Memory Byte × Block := Nat.fold (len / 16) (fun i _ (r : Memory Byte × Block) =>
      let tmp := m.decryptBlock ctx.ciphCtx ((inp.add (16 * i)).block r.1)
      cbcSameBlock (out + 16 * i) tmp r) (mem, ctx.iv)
    ⟨cryptSuccess, { ctx with iv := r.2 }, r.1⟩

/-! ## The machines they run -/

def ecbMachine (f : Block → Block) : Transducer Block Byte 16 :=
  ofBlockStep fun iv block => (f block, iv)

def cbcEncMachine (enc : Block → Block) : Transducer Block Byte 16 :=
  ofBlockStep fun iv block => (enc (sm4XorBlock block iv), enc (sm4XorBlock block iv))

def cbcDecMachine (dec : Block → Block) : Transducer Block Byte 16 :=
  ofBlockStep fun iv block => (sm4XorBlock (dec block) iv, block)

theorem ecbMachine_inverse {enc dec : Block → Block} (inverse : ∀ b, dec (enc b) = b) :
    (ecbMachine enc).Inverse (ecbMachine dec) :=
  ofBlockStep_inverse fun iv b => by rw [inverse]

theorem cbcMachine_inverse {enc dec : Block → Block} (inverse : ∀ b, dec (enc b) = b) :
    (cbcEncMachine enc).Inverse (cbcDecMachine dec) :=
  ofBlockStep_inverse fun iv b => by rw [inverse, sm4XorBlock_cancel]

theorem cbcMachine_inverse' {enc dec : Block → Block} (inverse : ∀ b, enc (dec b) = b) :
    (cbcDecMachine dec).Inverse (cbcEncMachine enc) :=
  ofBlockStep_inverse fun iv b => by simp only [sm4XorBlock_cancel, inverse]

def blockAt (a : List Byte) (i : Nat) : Block := block 16 (a.drop (16 * i))

theorem ecbMachine_blocks (f : Block → Block) (iv : Block) {a : List Byte} {i : Nat}
    (h : i < a.length / 16) : blockAt ((ecbMachine f).feed iv a).1 i = f (blockAt a i) :=
  block_runBlocks _ h iv a

theorem cbcEncMachine_blocks (enc : Block → Block) (iv : Block) {a : List Byte} {i : Nat}
    (h : i < a.length / 16) : blockAt ((cbcEncMachine enc).feed iv a).1 i =
      chain sm4XorBlock enc (blockAt a) iv (i + 1) := by
  have state (j : Nat) : (runBlocks (fun iv b => (enc (sm4XorBlock b iv), enc (sm4XorBlock b iv))) j
      iv a).2 = chain sm4XorBlock enc (blockAt a) iv j := by
    induction j with
    | zero => rfl
    | succ j ih =>
      simp only [runBlocks_succ, ih]
      rfl
  refine (block_runBlocks _ h iv a).trans ?_
  rw [state]
  rfl

/-! ## What a block function does -/

abbrev BlockUpdate (κ : Type) :=
  ModesCipherCommonCtx κ → Memory Byte → Ptr → Nat → Nat → BlockResult κ

/-- A block function runs the machine of its key, from a waiting block or from those buffers that
it can serve, and refuses a part of a block. -/
structure Runs (blockUpdate : BlockUpdate κ) (T : κ → Transducer Block Byte 16)
    (serves : Nat → Nat → Nat → Prop) : Prop where
  own : ∀ ctx mem array a out, a ≠ out →
    blockUpdate ctx mem (.own array a) out 16 =
      let r := (T ctx.ciphCtx).feed ctx.iv (load array 0 16)
      ⟨cryptSuccess, { ctx with iv := r.2 }, store mem out r.1⟩
  shared : ∀ ctx mem p out count, count ≠ 0 → serves p out (16 * count) →
    blockUpdate ctx mem (.shared p) out (16 * count) =
      let r := (T ctx.ciphCtx).feed ctx.iv (load mem p (16 * count))
      ⟨cryptSuccess, { ctx with iv := r.2 }, store mem out r.1⟩
  part : ∀ ctx mem array a out len, 0 < len → len < 16 →
    blockUpdate ctx mem (.own array a) out len = ⟨cryptModeErrInputLen, ctx, mem⟩
  clear : ∀ p out len, serves p out len → Clear p out len
  within : ∀ p out len k less, serves p out len → k + less ≤ len → serves (p + k) (out + k) less

/-- Decryption reads the ciphertext block before the current one again, so an output below the
input starts at it, or a block before it. -/
def CbcServes (p out len : Nat) : Prop := p = out ∨ out + 16 ≤ p ∨ p + len ≤ out

theorem load_block (array : Memory Byte) (p : Nat) (s : Block)
    (step : Block → Block → Block × Block) (mem : Memory Byte) (out : Nat) :
    let r := (ofBlockStep step).feed s (load array p 16)
    r.2 = (step s (read 16 array p)).2 ∧
      store mem out r.1 = write mem out (step s (read 16 array p)).1 := by
  simp only [ofBlockStep, length_load, Nat.div_self (by decide : 0 < 16), runBlocks,
    block_load array p (Nat.le_refl 16), List.append_nil, store_toList, and_self]

theorem modesEcbCrypt_runs (enc : Bool) :
    Runs (fun ctx mem inp out len => modesEcbCrypt m ctx mem inp out len enc)
      (fun k => ecbMachine (if enc then m.encryptBlock k else m.decryptBlock k)) Clear where
  own ctx mem array a out _ := by
    obtain ⟨state, stored⟩ := load_block array 0 ctx.iv
      (fun iv block =>
        ((if enc then m.encryptBlock ctx.ciphCtx else m.decryptBlock ctx.ciphCtx) block, iv))
      mem out
    simp only [ecbMachine, state, stored]
    rw [modesEcbCrypt, if_neg (by decide), if_neg (by decide)]
    simp only [Nat.reduceDiv, Nat.fold_succ, Nat.fold_zero, Nat.mul_zero, Nat.add_zero, Ptr.add,
      Ptr.block_own, Nat.zero_add]
    cases enc <;> rfl
  shared ctx mem p out count some clear := by
    have loop := (ecbMachine (if enc then m.encryptBlock ctx.ciphCtx else
      m.decryptBlock ctx.ciphCtx)).fold_call (dvd_refl 16)
      (fun _ _ (u : Unit) => ctx.iv) (fun _ _ => True) clear
      (fun i t => (write t.1 (out + 16 * i) ((if enc then m.encryptBlock ctx.ciphCtx else
        m.decryptBlock ctx.ciphCtx) (read 16 t.1 (p + 16 * i))), ())) (by
        intro i hi t _
        rw [ecbMachine, ofBlockStep_call_one (by decide)]
        exact ⟨rfl, trivial⟩) (mem, ()) trivial
    have same : Nat.fold count (fun i _ mem => write mem (out + 16 * i)
        (if enc then m.encryptBlock ctx.ciphCtx (read 16 mem (p + 16 * i)) else
          m.decryptBlock ctx.ciphCtx (read 16 mem (p + 16 * i)))) mem =
        (Nat.fold count (fun i _ (t : Memory Byte × Unit) => (write t.1 (out + 16 * i)
          ((if enc then m.encryptBlock ctx.ciphCtx else m.decryptBlock ctx.ciphCtx)
            (read 16 t.1 (p + 16 * i))), ())) (mem, ())).1 := by
      clear loop clear some
      induction count with
      | zero => rfl
      | succ count ih =>
        rw [Nat.fold_succ, Nat.fold_succ, ih]
        cases enc <;> rfl
    rw [modesEcbCrypt, if_neg (by omega), if_neg (by omega),
      Nat.mul_div_cancel_left count (by decide)]
    simp only [Ptr.add, Ptr.block_shared, same]
    have final := congrArg Prod.fst loop.1
    have iv := congrArg Prod.snd loop.1
    simp only [Transducer.call] at final iv
    rw [final, ← iv]
  part ctx mem array a out len pos short := by
    rw [modesEcbCrypt, if_neg (by omega), Nat.div_eq_of_lt short, if_pos (by omega)]
    rfl
  clear _ _ _ h := h
  within p out len k less h le := by
    rcases h with below | behind <;> unfold Clear <;> omega

theorem modesCbcEncrypt_runs :
    Runs (modesCbcEncrypt m) (fun k => cbcEncMachine (m.encryptBlock k)) Clear where
  own ctx mem array a out _ := by
    obtain ⟨state, stored⟩ := load_block array 0 ctx.iv
      (fun iv block => (m.encryptBlock ctx.ciphCtx (sm4XorBlock block iv),
        m.encryptBlock ctx.ciphCtx (sm4XorBlock block iv))) mem out
    simp only [cbcEncMachine, state, stored]
    rw [modesCbcEncrypt, if_neg (by decide)]
    simp only [Nat.reduceDiv, Nat.fold_succ, Nat.fold_zero, Nat.mul_zero, Nat.add_zero, Ptr.add,
      Ptr.block_own, Nat.zero_add, ivPtr_block, Ptr.block_shared, read_write]
  shared ctx mem p out count _ clear := by
    have loop := (cbcEncMachine (m.encryptBlock ctx.ciphCtx)).fold_call
      (dvd_refl 16) (fun _ mem (iv : Ptr) => iv.block mem) (fun _ _ => True) clear
      (fun i t => (write t.1 (out + 16 * i) (m.encryptBlock ctx.ciphCtx
        (sm4XorBlock (read 16 t.1 (p + 16 * i)) (t.2.block t.1))), Ptr.shared (out + 16 * i))) (by
        intro i hi t _
        rw [cbcEncMachine, ofBlockStep_call_one (by decide)]
        simp only [Ptr.block_shared, read_write, and_self]) (mem, ivPtr ctx) trivial
    rw [modesCbcEncrypt, if_neg (by omega), Nat.mul_div_cancel_left count (by decide)]
    simp only [Ptr.add, Ptr.block_shared]
    have final := congrArg Prod.fst loop.1
    have iv := congrArg Prod.snd loop.1
    simp only [Transducer.call, ivPtr_block] at final iv
    rw [iv, final]
  part ctx mem array a out len pos short := by
    rw [modesCbcEncrypt, if_pos (by omega)]
  clear _ _ _ h := h
  within p out len k less h le := by
    rcases h with below | behind <;> unfold Clear <;> omega

theorem cbcSameBlock_eq (p : Nat) (tmp : Block) (mem : Memory Byte) (iv : Block) :
    cbcSameBlock p tmp (mem, iv) = (write mem p (sm4XorBlock tmp iv), read 16 mem p) := by
  -- after `i` bytes: the output up to there, and the new chaining value up to there
  have inv := fold_inv (fun i (r : Memory Byte × Block) => i ≤ 16 →
      (∀ a, r.1 a = if p ≤ a ∧ a < p + i then write mem p (sm4XorBlock tmp iv) a else mem a) ∧
      ∀ j, (h : j < 16) → r.2[j] = if j < i then mem (p + j) else iv[j]) 16
    (fun i h (r : Memory Byte × Block) =>
      (Function.update r.1 (p + i) (tmp[i] ^^^ r.2[i]), r.2.set i (r.1 (p + i)) h)) (mem, iv)
    (fun _ => ⟨fun a => by rw [if_neg (by omega)], fun j h => by rw [if_neg (by omega)]⟩) (by
      intro i hi r inv _
      obtain ⟨bytes, chain⟩ := inv (by omega)
      constructor
      · intro a
        show Function.update r.1 (p + i) (tmp[i] ^^^ r.2[i]) a = _
        by_cases here : a = p + i
        · rw [here, Function.update_self, if_pos (by omega), write_of_mem _ _ _ _ hi]
          have old := chain i hi
          rw [if_neg (by omega)] at old
          simp [sm4XorBlock, old]
        · rw [Function.update_of_ne here, bytes a]
          exact if_congr (by omega) rfl rfl
      · intro j h
        rw [Vector.getElem_set]
        split_ifs with eq low low
        · subst eq
          rw [bytes, if_neg (by omega)]
        · omega
        · rw [chain j h, if_pos (by omega)]
        · rw [chain j h, if_neg (by omega)])
  obtain ⟨bytes, chain⟩ := inv (Nat.le_refl 16)
  apply Prod.ext
  · funext a
    refine (bytes a).trans ?_
    split_ifs with inside
    · rfl
    · exact (write_of_not_mem mem p a (sm4XorBlock tmp iv) (by omega)).symm
  · apply Vector.ext
    intro j hj
    exact (chain j hj).trans (by rw [if_pos hj, getElem_read])

theorem sm4XorBlock_comm (a b : Block) : sm4XorBlock a b = sm4XorBlock b a := by
  apply Vector.ext
  intro i hi
  simp only [sm4XorBlock, Vector.getElem_ofFn]
  exact BitVec.xor_comm _ _

theorem modesCbcDecrypt_runs :
    Runs (modesCbcDecrypt m) (fun k => cbcDecMachine (m.decryptBlock k)) CbcServes where
  own ctx mem array a out ne := by
    obtain ⟨state, stored⟩ := load_block array 0 ctx.iv
      (fun iv block => (sm4XorBlock (m.decryptBlock ctx.ciphCtx block) iv, block)) mem out
    simp only [cbcDecMachine, state, stored]
    rw [modesCbcDecrypt, if_neg (by decide), if_pos (by exact ne)]
    have xor := dataXor_eq (by decide : 4 ∣ 16) mem (ivPtr ctx)
      (m.decryptBlock ctx.ciphCtx (read 16 array 0)) ctx.bufAt out (fun p shared => by cases shared)
    simp only [Nat.reduceDiv, Nat.fold_succ, Nat.fold_zero, Nat.mul_zero, Nat.add_zero, Ptr.add,
      Ptr.block_own, Nat.zero_add, xor, ivPtr_block, sm4XorBlock_comm ctx.iv]
  shared ctx mem p out count _ serves := by
    have clear : Clear p out (16 * count) := by
      rcases serves with same | below | behind <;> unfold Clear <;> omega
    rw [modesCbcDecrypt, if_neg (by omega), Nat.mul_div_cancel_left count (by decide)]
    split_ifs with ne
    · have ne : p ≠ out := ne
      have loop := (cbcDecMachine (m.decryptBlock ctx.ciphCtx)).fold_call
        (dvd_refl 16) (fun _ mem (iv : Ptr) => iv.block mem)
        (fun i iv => iv = if i = 0 then ivPtr ctx else .shared (p + 16 * (i - 1))) clear
        (fun i t => (dataXor 4 t.1 t.2 (m.decryptBlock ctx.ciphCtx (read 16 t.1 (p + 16 * i)))
          ctx.bufAt (out + 16 * i), Ptr.shared (p + 16 * i))) (by
          intro i hi t good
          have xor := dataXor_eq (by decide : 4 ∣ 16) t.1 t.2
            (m.decryptBlock ctx.ciphCtx (read 16 t.1 (p + 16 * i))) ctx.bufAt (out + 16 * i) (by
              intro q at'
              rw [good] at at'
              split_ifs at at' with first
              · cases at'
              · cases at'
                rcases serves with same | below | behind <;> unfold Clear <;> omega)
          have apart : out + 16 * i + 16 ≤ p + 16 * i ∨ p + 16 * i + 16 ≤ out + 16 * i := by
            rcases serves with same | below | behind <;> omega
          rw [cbcDecMachine, ofBlockStep_call_one (by decide)]
          simp only [xor, Ptr.block_shared, read_write_of_apart _ _ _ _ apart,
            sm4XorBlock_comm (t.2.block t.1)]
          refine ⟨trivial, ?_⟩
          rw [if_neg (Nat.succ_ne_zero i), Nat.add_sub_cancel]) (mem, ivPtr ctx) rfl
      simp only [Ptr.add, Ptr.block_shared]
      have final := congrArg Prod.fst loop.1
      have iv := congrArg Prod.snd loop.1
      simp only [Transducer.call, ivPtr_block] at final iv
      rw [iv, final]
    · obtain rfl : p = out := not_not.mp ne
      have loop := (cbcDecMachine (m.decryptBlock ctx.ciphCtx)).fold_call
        (dvd_refl 16) (fun _ _ (iv : Block) => iv) (fun _ _ => True) clear
        (fun i t => cbcSameBlock (p + 16 * i)
          (m.decryptBlock ctx.ciphCtx (read 16 t.1 (p + 16 * i))) t) (by
          intro i hi t _
          rw [cbcDecMachine, ofBlockStep_call_one (by decide)]
          exact ⟨cbcSameBlock_eq _ _ _ _, trivial⟩) (mem, ctx.iv) trivial
      simp only [Ptr.add, Ptr.block_shared]
      have final := congrArg Prod.fst loop.1
      have iv := congrArg Prod.snd loop.1
      simp only [Transducer.call] at final iv
      rw [iv, final]
  part ctx mem array a out len pos short := by
    rw [modesCbcDecrypt, if_pos (by omega)]
  clear p out len serves := by
    rcases serves with same | below | behind <;> unfold Clear <;> omega
  within p out len k less serves le := by
    rcases serves with same | below | behind <;> unfold CbcServes <;> omega

end SystemsLab.ModesBlockCrypt
