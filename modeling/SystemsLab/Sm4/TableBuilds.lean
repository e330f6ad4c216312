import SystemsLab.Sm4.RoundTables
import SystemsLab.General.CountedLoop

/-! The builds of SM4 that replace the round transform by table lookups: the literal tables of
`sm4_table.c` against the S-box and `L` of `sm4_original.c`, and the portable header with
`SM4_USE_T_TABLE`, whose tables are filled at run time. The helper functions and the
macro of four rounds are the same text in the three files. -/

namespace SystemsLab.Sm4TableBuilds
open ByteWord ShiftRegister CountedLoop Textbook Sm4Portable Sm4RoundTables

/-! ## `sm4_original.c` and `sm4_table.c` -/

def sm4TNonLinSub (x : Word) : Word :=
  let t : Word := 0
  let t := t ||| ((lookup sm4S ((x >>> 24).setWidth 8)).setWidth 32 <<< 24)
  let t := t ||| ((lookup sm4S ((x >>> 16).setWidth 8)).setWidth 32 <<< 16)
  let t := t ||| ((lookup sm4S ((x >>> 8).setWidth 8)).setWidth 32 <<< 8)
  t ||| (lookup sm4S (x.setWidth 8)).setWidth 32

def originalT (x : Word) : Word :=
  let t := sm4TNonLinSub x
  t ^^^ rotl t 2 ^^^ rotl t 10 ^^^ rotl t 18 ^^^ rotl t 24

def sm4SboxT0 : Vector Word 256 := printed3

def sm4SboxT1 : Vector Word 256 := printed2

def sm4SboxT2 : Vector Word 256 := printed1

def sm4SboxT3 : Vector Word 256 := printed0

def tableT (x : Word) : Word :=
  lookup sm4SboxT0 ((x >>> 24).setWidth 8) ^^^ lookup sm4SboxT1 ((x >>> 16).setWidth 8) ^^^
    lookup sm4SboxT2 ((x >>> 8).setWidth 8) ^^^ lookup sm4SboxT3 (x.setWidth 8)

/-- `sm4_encrypt` over the `SM4_T` of its file. -/
def encryptWith (f : Word → Word) (inp : Block) (ks : RoundKeys) : Block :=
  let b : Window Word :=
    ⟨sm4LoadU32Be inp 0, sm4LoadU32Be inp 1, sm4LoadU32Be inp 2, sm4LoadU32Be inp 3⟩
  let b := sm4Rnds f ks[0]! ks[1]! ks[2]! ks[3]! b
  let b := sm4Rnds f ks[4]! ks[5]! ks[6]! ks[7]! b
  let b := sm4Rnds f ks[8]! ks[9]! ks[10]! ks[11]! b
  let b := sm4Rnds f ks[12]! ks[13]! ks[14]! ks[15]! b
  let b := sm4Rnds f ks[16]! ks[17]! ks[18]! ks[19]! b
  let b := sm4Rnds f ks[20]! ks[21]! ks[22]! ks[23]! b
  let b := sm4Rnds f ks[24]! ks[25]! ks[26]! ks[27]! b
  let b := sm4Rnds f ks[28]! ks[29]! ks[30]! ks[31]! b
  concat4 (sm4StoreU32Be b.d) (sm4StoreU32Be b.c) (sm4StoreU32Be b.b) (sm4StoreU32Be b.a)

def decryptWith (f : Word → Word) (inp : Block) (ks : RoundKeys) : Block :=
  let b : Window Word :=
    ⟨sm4LoadU32Be inp 0, sm4LoadU32Be inp 1, sm4LoadU32Be inp 2, sm4LoadU32Be inp 3⟩
  let b := sm4Rnds f ks[31]! ks[30]! ks[29]! ks[28]! b
  let b := sm4Rnds f ks[27]! ks[26]! ks[25]! ks[24]! b
  let b := sm4Rnds f ks[23]! ks[22]! ks[21]! ks[20]! b
  let b := sm4Rnds f ks[19]! ks[18]! ks[17]! ks[16]! b
  let b := sm4Rnds f ks[15]! ks[14]! ks[13]! ks[12]! b
  let b := sm4Rnds f ks[11]! ks[10]! ks[9]! ks[8]! b
  let b := sm4Rnds f ks[7]! ks[6]! ks[5]! ks[4]! b
  let b := sm4Rnds f ks[3]! ks[2]! ks[1]! ks[0]! b
  concat4 (sm4StoreU32Be b.d) (sm4StoreU32Be b.c) (sm4StoreU32Be b.b) (sm4StoreU32Be b.a)

def originalEncrypt (inp : Block) (ks : RoundKeys) : Block := encryptWith originalT inp ks

def originalDecrypt (inp : Block) (ks : RoundKeys) : Block := decryptWith originalT inp ks

def tableEncrypt (inp : Block) (ks : RoundKeys) : Block := encryptWith tableT inp ks

def tableDecrypt (inp : Block) (ks : RoundKeys) : Block := decryptWith tableT inp ks

/-! ## The header built with `SM4_USE_T_TABLE` -/

/-- `SM4_T0` to `SM4_T3` and `SM4_TABLE_READY`. -/
structure TTables where
  t0 : Vector Word 256
  t1 : Vector Word 256
  t2 : Vector Word 256
  t3 : Vector Word 256
  ready : Bool

def tTablesStatic : TTables :=
  ⟨Vector.replicate 256 0, Vector.replicate 256 0, Vector.replicate 256 0,
    Vector.replicate 256 0, false⟩

def fillEntry (i : Nat) (hi : i < 256) (st : TTables) : TTables :=
  let s : Word := sm4S[i].setWidth 32
  { st with
    t0 := st.t0.set i (sm4Linear (s <<< 24))
    t1 := st.t1.set i (sm4Linear (s <<< 16))
    t2 := st.t2.set i (sm4Linear (s <<< 8))
    t3 := st.t3.set i (sm4Linear s) }

def sm4PrepareTables (st : TTables) : TTables :=
  if st.ready then st else { Nat.fold 256 fillEntry st with ready := true }

def sm4RoundTTable (st : TTables) (x : Word) : Word :=
  lookup st.t0 ((x >>> 24).setWidth 8) ^^^ lookup st.t1 ((x >>> 16).setWidth 8) ^^^
    lookup st.t2 ((x >>> 8).setWidth 8) ^^^ lookup st.t3 (x.setWidth 8)

/-! ## One transform in all builds -/

theorem originalT_eq : originalT = sm4RoundT := by
  funext x
  have sub : sm4TNonLinSub x = sm4SboxWord x := by
    have start (y : Word) : 0 ||| y = y := BitVec.zero_or
    simp only [sm4TNonLinSub, sm4SboxWord, sm4SboxByte, start]
  rw [originalT, sub, sm4RoundT]
  rfl

theorem lookups_eq {t0 t1 t2 t3 : Vector Word 256} (h0 : IsBox t0 24) (h1 : IsBox t1 16)
    (h2 : IsBox t2 8) (h3 : IsBox t3 0) (x : Word) :
    lookup t0 ((x >>> 24).setWidth 8) ^^^ lookup t1 ((x >>> 16).setWidth 8) ^^^
      lookup t2 ((x >>> 8).setWidth 8) ^^^ lookup t3 (x.setWidth 8) = sm4RoundT x := by
  have low : (x.setWidth 8 : Byte) = byteOf x 0 := by rw [byteOf, BitVec.ushiftRight_zero]
  rw [sm4RoundT_eq_lookups h3 h2 h1 h0, low]
  rfl

theorem tableT_eq : tableT = sm4RoundT := by
  funext x
  obtain ⟨h0, h1, h2, h3⟩ := printed_spec
  exact lookups_eq h3 h2 h1 h0 x

theorem encryptWith_eq (f : Word → Word) (inp : Block) (ks : RoundKeys) :
    encryptWith f inp ks = sm4CryptBlockWith f inp ks 0 := rfl

theorem decryptWith_eq (f : Word → Word) (inp : Block) (ks : RoundKeys) :
    decryptWith f inp ks = sm4CryptBlockWith f inp ks 1 := by
  have key (i : Nat) (hi : i < 32) :
      (Vector.ofFn fun i : Fin 32 => ks[31 - i.val]!)[i]! = ks[31 - i]! := by
    rw [getElemBang_eq _ hi, Vector.getElem_ofFn]
  unfold sm4CryptBlockWith
  rw [if_pos (by decide)]
  simp (disch := decide) only [key]
  rfl

theorem originalEncrypt_eq (inp : Block) (ks : RoundKeys) :
    originalEncrypt inp ks = sm4CryptBlock inp ks 0 := by
  unfold originalEncrypt
  rw [originalT_eq]
  exact encryptWith_eq sm4RoundT inp ks

theorem originalDecrypt_eq (inp : Block) (ks : RoundKeys) :
    originalDecrypt inp ks = sm4CryptBlock inp ks 1 := by
  unfold originalDecrypt
  rw [originalT_eq]
  exact decryptWith_eq sm4RoundT inp ks

theorem tableEncrypt_eq (inp : Block) (ks : RoundKeys) :
    tableEncrypt inp ks = originalEncrypt inp ks := by
  unfold tableEncrypt originalEncrypt
  rw [tableT_eq, originalT_eq]

theorem tableDecrypt_eq (inp : Block) (ks : RoundKeys) :
    tableDecrypt inp ks = originalDecrypt inp ks := by
  unfold tableDecrypt originalDecrypt
  rw [tableT_eq, originalT_eq]

/-! ## The tables that are filled at run time -/

structure Filled (st : TTables) : Prop where
  box0 : IsBox st.t0 24
  box1 : IsBox st.t1 16
  box2 : IsBox st.t2 8
  box3 : IsBox st.t3 0

theorem linear_shift (s : Byte) (n : Nat) (hn : n ≤ 24) :
    sm4Linear (s.setWidth 32 <<< n) = rotl (sm4Linear (s.setWidth 32)) n := by
  rw [shiftLeft_setWidth s n hn, sm4Linear_rotationLinear.rotl _ n (by omega)]

def BoxBelow (k n : Nat) (table : Vector Word 256) : Prop :=
  table.toList.take k = (sm4S.toList.map fun s => rotl (sm4Linear (s.setWidth 32)) n).take k

theorem BoxBelow.set {k n : Nat} {table : Vector Word 256} (h : BoxBelow k n table)
    (hk : k < 256) {w : Word}
    (entry : w = rotl (sm4Linear (sm4S[k].setWidth 32)) n) :
    BoxBelow (k + 1) n (table.set k w) := by
  have place : k < (sm4S.toList.map fun s => rotl (sm4Linear (s.setWidth 32)) n).length := by
    simpa using hk
  unfold BoxBelow at *
  rw [take_toList_set, h, entry, List.take_succ_eq_append_getElem place, List.getElem_map,
    Vector.getElem_toList]

theorem BoxBelow.isBox {n : Nat} {table : Vector Word 256} (h : BoxBelow 256 n table) :
    IsBox table n := by
  have filled : table.toList.take 256 = table.toList :=
    List.take_of_length_le (by rw [Vector.length_toList])
  have entries : (sm4S.toList.map fun s => rotl (sm4Linear (s.setWidth 32)) n).take 256 =
      sm4S.toList.map fun s => rotl (sm4Linear (s.setWidth 32)) n := by
    generalize sm4S = source
    exact List.take_of_length_le (by rw [List.length_map, Vector.length_toList])
  unfold BoxBelow at h
  rw [filled, entries] at h
  exact h

theorem fold_fillEntry (st : TTables) :
    BoxBelow 256 24 (Nat.fold 256 fillEntry st).t0 ∧
      BoxBelow 256 16 (Nat.fold 256 fillEntry st).t1 ∧
      BoxBelow 256 8 (Nat.fold 256 fillEntry st).t2 ∧
      BoxBelow 256 0 (Nat.fold 256 fillEntry st).t3 := by
  have inv := fold_inv (fun k st => BoxBelow k 24 st.t0 ∧ BoxBelow k 16 st.t1 ∧ BoxBelow k 8 st.t2 ∧
      BoxBelow k 0 st.t3) 256 fillEntry st ⟨rfl, rfl, rfl, rfl⟩ (by
    intro k hk st ⟨h0, h1, h2, h3⟩
    exact ⟨h0.set hk (linear_shift _ 24 (by decide)), h1.set hk (linear_shift _ 16 (by decide)),
      h2.set hk (linear_shift _ 8 (by decide)), h3.set hk (rotl_zero _).symm⟩)
  exact inv

theorem sm4PrepareTables_filled {st : TTables} (h : st.ready = true → Filled st) :
    Filled (sm4PrepareTables st) := by
  unfold sm4PrepareTables
  split
  case isTrue ready => exact h ready
  case isFalse =>
    obtain ⟨h0, h1, h2, h3⟩ := fold_fillEntry st
    exact ⟨h0.isBox, h1.isBox, h2.isBox, h3.isBox⟩

theorem prepared_filled (calls : Nat) : Filled (sm4PrepareTables^[calls + 1] tTablesStatic) := by
  rw [Function.iterate_succ_apply']
  apply sm4PrepareTables_filled
  induction calls with
  | zero => exact fun ready => absurd ready Bool.false_ne_true
  | succ calls ih =>
    rw [Function.iterate_succ_apply']
    exact fun _ => sm4PrepareTables_filled ih

theorem sm4RoundTTable_eq {st : TTables} (h : Filled st) : sm4RoundTTable st = sm4RoundT :=
  funext (lookups_eq h.box0 h.box1 h.box2 h.box3)

/-- The table builds compute the same blocks as the builds without tables, for any round keys and in
both directions; the header once `sm4_prepare_tables` has run. -/
theorem table_builds_agree (rk : RoundKeys) (b : Block) (calls : Nat) :
    tableEncrypt b rk = originalEncrypt b rk ∧ tableDecrypt b rk = originalDecrypt b rk ∧
      ∀ decrypt : Int,
        sm4CryptBlockWith (sm4RoundTTable (sm4PrepareTables^[calls + 1] tTablesStatic)) b rk
          decrypt = sm4CryptBlock b rk decrypt := by
  refine ⟨tableEncrypt_eq b rk, tableDecrypt_eq b rk, fun decrypt => ?_⟩
  rw [sm4RoundTTable_eq (prepared_filled calls)]
  rfl

end SystemsLab.Sm4TableBuilds
