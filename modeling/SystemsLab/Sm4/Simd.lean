import SystemsLab.Sm4.RoundTables
import Mathlib.Tactic.FinCases

/-! The AVX2 engine (`sm4_multibuffer_simd.c`): eight blocks in four registers of eight
32-bit elements. The intrinsics have their documented meaning on a little-endian
machine. Element `laneOf j` of the registers is the window of block `j`, through all rounds. -/

namespace SystemsLab.Sm4Simd
open ByteWord ShiftRegister CountedLoop Textbook Sm4Portable Sm4RoundTables Buffer

/-! ## Tables of the round transform -/

def box0 : Vector Word 256 := printed0

def box1 : Vector Word 256 := printed1

def box2 : Vector Word 256 := printed2

def box3 : Vector Word 256 := printed3

/-! ## Intrinsics -/

/-- A `__m256i` as eight 32-bit elements, element 0 lowest. -/
abbrev M256i := Vector Word 8

def epi8 (v : M256i) : Vector Byte 32 :=
  Vector.ofFn fun i : Fin 32 => byteOf v[i.val / 4] (8 * (i.val % 4))

def ofEpi8 (b : Vector Byte 32) : M256i :=
  Vector.ofFn fun i : Fin 8 => ofBytes b[4 * i.val + 3] b[4 * i.val + 2]
    b[4 * i.val + 1] b[4 * i.val]

def mm256Set1Epi32 (a : Word) : M256i := Vector.replicate 8 a

def mm256XorSi256 (a b : M256i) : M256i := Vector.zipWith (· ^^^ ·) a b

def mm256AndSi256 (a b : M256i) : M256i := Vector.zipWith (· &&& ·) a b

def mm256SrliEpi32 (a : M256i) (imm8 : Nat) : M256i := Vector.map (fun x : Word => x >>> imm8) a

/-- Interleaving the lower elements of each 128-bit half. -/
def mm256UnpackloEpi32 (a b : M256i) : M256i := #v[a[0], b[0], a[1], b[1], a[4], b[4], a[5], b[5]]

def mm256UnpackhiEpi32 (a b : M256i) : M256i := #v[a[2], b[2], a[3], b[3], a[6], b[6], a[7], b[7]]

def mm256UnpackloEpi64 (a b : M256i) : M256i := #v[a[0], a[1], b[0], b[1], a[4], a[5], b[4], b[5]]

def mm256UnpackhiEpi64 (a b : M256i) : M256i := #v[a[2], a[3], b[2], b[3], a[6], a[7], b[6], b[7]]

/-- Byte shuffle inside each 128-bit half; a set top bit of the index gives zero. -/
def mm256ShuffleEpi8 (a b : M256i) : M256i :=
  ofEpi8 (Vector.ofFn fun i : Fin 32 =>
    if ((epi8 b).get i).getLsbD 7 then 0
    else (epi8 a)[16 * (i.val / 16) + ((epi8 b).get i).toNat % 16]!)

/-- Gather with scale 4 from a table of words; indices past the table are not modelled. -/
def mm256I32gatherEpi32 (base : Vector Word 256) (vindex : M256i) : M256i :=
  vindex.map fun i => base.getD i.toNat 0

/-- The 32 bytes of a buffer at offset `32 * t`. -/
def mm256LoaduSi256 (b : Vector Byte 128) (t : Fin 4) : M256i :=
  ofEpi8 (Vector.ofFn fun i : Fin 32 => b[32 * t.val + i.val])

/-- Four stores, register `t` at offset `32 * t`. -/
def mm256StoreuSi256 (p : Vector M256i 4) : Vector Byte 128 :=
  Vector.ofFn fun i : Fin 128 => (epi8 p[i.val / 32])[i.val % 32]

/-! ## The engine -/

def mm256Pack0Epi32 (a b c d : M256i) : M256i :=
  mm256UnpackloEpi64 (mm256UnpackloEpi32 a b) (mm256UnpackloEpi32 c d)

def mm256Pack1Epi32 (a b c d : M256i) : M256i :=
  mm256UnpackhiEpi64 (mm256UnpackloEpi32 a b) (mm256UnpackloEpi32 c d)

def mm256Pack2Epi32 (a b c d : M256i) : M256i :=
  mm256UnpackloEpi64 (mm256UnpackhiEpi32 a b) (mm256UnpackhiEpi32 c d)

def mm256Pack3Epi32 (a b c d : M256i) : M256i :=
  mm256UnpackhiEpi64 (mm256UnpackhiEpi32 a b) (mm256UnpackhiEpi32 c d)

def vindex : M256i := ofEpi8 #v[3, 2, 1, 0, 7, 6, 5, 4, 11, 10, 9, 8, 15, 14, 13, 12,
  3, 2, 1, 0, 7, 6, 5, 4, 11, 10, 9, 8, 15, 14, 13, 12]

def sm4SimdRound (rk : Word) (x : Window M256i) : Window M256i :=
  let mask := mm256Set1Epi32 0xFF
  let k := mm256Set1Epi32 rk
  let temp0 := mm256XorSi256 (mm256XorSi256 x.b x.c) (mm256XorSi256 x.d k)
  let temp1 := mm256XorSi256 x.a (mm256I32gatherEpi32 box0 (mm256AndSi256 temp0 mask))
  let temp0 := mm256SrliEpi32 temp0 8
  let temp1 := mm256XorSi256 temp1 (mm256I32gatherEpi32 box1 (mm256AndSi256 temp0 mask))
  let temp0 := mm256SrliEpi32 temp0 8
  let temp1 := mm256XorSi256 temp1 (mm256I32gatherEpi32 box2 (mm256AndSi256 temp0 mask))
  let temp0 := mm256SrliEpi32 temp0 8
  let temp1 := mm256XorSi256 temp1 (mm256I32gatherEpi32 box3 (mm256AndSi256 temp0 mask))
  ⟨x.b, x.c, x.d, temp1⟩

/-- Eight blocks of 16 bytes at a time: all loads come before the first store. -/
def sm4SimdDo (inp : Vector Byte 128) (rk : RoundKeys) (enc : Int) : Vector Byte 128 :=
  let t0 := mm256LoaduSi256 inp 0
  let t1 := mm256LoaduSi256 inp 1
  let t2 := mm256LoaduSi256 inp 2
  let t3 := mm256LoaduSi256 inp 3
  let x : Window M256i := ⟨mm256Pack0Epi32 t0 t1 t2 t3, mm256Pack1Epi32 t0 t1 t2 t3,
    mm256Pack2Epi32 t0 t1 t2 t3, mm256Pack3Epi32 t0 t1 t2 t3⟩
  let x := x.map fun v => mm256ShuffleEpi8 v vindex
  let x := Nat.fold 32 (fun i hi x =>
    sm4SimdRound (if enc = 0 then rk[i] else rk[31 - i]!) x) x
  let x := x.map fun v => mm256ShuffleEpi8 v vindex
  mm256StoreuSi256 #v[mm256Pack0Epi32 x.d x.c x.b x.a, mm256Pack1Epi32 x.d x.c x.b x.a,
    mm256Pack2Epi32 x.d x.c x.b x.a, mm256Pack3Epi32 x.d x.c x.b x.a]

def sm4SimdDoAt (mem : Memory Byte) (inp out : Nat) (rk : RoundKeys) (enc : Int) : Memory Byte :=
  write mem out (sm4SimdDo (read 128 mem inp) rk enc)

def sm4SimdEncryptX8 (inp : Vector Byte 128) (rk : RoundKeys) : Vector Byte 128 :=
  sm4SimdDo inp rk 0

/-! ## Lanes -/

def laneOf (j : Fin 8) : Fin 8 := ⟨4 * (j.val % 2) + j.val / 2, by omega⟩

def blockOf (b : Vector Byte 128) (j : Fin 8) : Block :=
  Vector.ofFn fun i : Fin 16 => b[16 * j.val + i.val]

/-- The four packs transpose the registers inside each half. -/
theorem pack_lane (a b c d : M256i) (w : Fin 4) (l : Fin 8) :
    (#v[mm256Pack0Epi32 a b c d, mm256Pack1Epi32 a b c d, mm256Pack2Epi32 a b c d,
        mm256Pack3Epi32 a b c d].get w).get l =
          #v[a, b, c, d][l.val % 4][4 * (l.val / 4) + w.val] := by
  fin_cases w <;> fin_cases l <;> rfl

def swap (w : Word) : Word := ofBytes (byteOf w 0) (byteOf w 8) (byteOf w 16) (byteOf w 24)

theorem getElem_epi8 (v : M256i) (k : Nat) (hk : k < 32) :
    (epi8 v)[k] = byteOf v[k / 4] (8 * (k % 4)) := by
  simp only [epi8, Vector.getElem_ofFn]

theorem getElem_ofEpi8 (b : Vector Byte 32) (i : Fin 8) :
    (ofEpi8 b).get i = ofBytes b[4 * i.val + 3] b[4 * i.val + 2] b[4 * i.val + 1] b[4 * i.val] := by
  simp only [ofEpi8, get_eq, Vector.getElem_ofFn]

theorem vindex_spec : ∀ k : Fin 32, ((epi8 vindex).get k).getLsbD 7 = false ∧
    16 * (k.val / 16) + ((epi8 vindex).get k).toNat % 16 = 4 * (k.val / 4) + (3 - k.val % 4) := by
  decide +kernel

theorem shuffle_vindex (v : M256i) : mm256ShuffleEpi8 v vindex = v.map swap := by
  have byte (k : Fin 32) : (if ((epi8 vindex).get k).getLsbD 7 then (0 : Byte)
      else (epi8 v)[16 * (k.val / 16) + ((epi8 vindex).get k).toNat % 16]!) =
        byteOf v[k.val / 4] (8 * (3 - k.val % 4)) := by
    obtain ⟨top, place⟩ := vindex_spec k
    rw [if_neg (by rw [top]; exact Bool.false_ne_true), getElemBang_eq _ (by omega), getElem_epi8]
    congr 2 <;> omega
  have mirrored : mm256ShuffleEpi8 v vindex =
      ofEpi8 (Vector.ofFn fun k : Fin 32 => byteOf v[k.val / 4] (8 * (3 - k.val % 4))) :=
    congrArg (fun f => ofEpi8 (Vector.ofFn f)) (funext byte)
  rw [mirrored]
  apply Vector.ext
  intro i hi
  have place (k r : Nat) (hr : r < 4) (hk : k = 4 * i + r) :
      byteOf v[k / 4] (8 * (3 - k % 4)) = byteOf v[i] (8 * (3 - r)) := by
    congr 2 <;> omega
  rw [← get_eq _ ⟨i, hi⟩, getElem_ofEpi8, Vector.getElem_map, swap, Vector.getElem_ofFn,
    Vector.getElem_ofFn,
    Vector.getElem_ofFn, Vector.getElem_ofFn]
  rw [place (4 * i + 3) 3 (by decide) rfl, place (4 * i + 2) 2 (by decide) rfl,
    place (4 * i + 1) 1 (by decide) rfl, place (4 * i) 0 (by decide) rfl]

/-! ## Rounds, lane by lane -/

theorem gather_byte (base : Vector Word 256) (t : M256i) (l : Fin 8) :
    (mm256I32gatherEpi32 base (mm256AndSi256 t (mm256Set1Epi32 0xFF))).get l =
      lookup base (byteOf (t.get l) 0) := by
  have index : (t.get l &&& 0xFF).toNat = (byteOf (t.get l) 0).toNat := toNat_and_ff (t.get l) 0
  have entry : base.getD (t.get l &&& 0xFF).toNat 0 = lookup base (byteOf (t.get l) 0) := by
    rw [index]
    generalize byteOf (t.get l) 0 = b
    have bound : b.toNat < 256 := b.isLt
    simp [Vector.getD, bound, lookup, Vector.get]
  rw [← entry]
  simp [mm256I32gatherEpi32, mm256AndSi256, mm256Set1Epi32, get_eq]

theorem box_spec : IsBox box0 0 ∧ IsBox box1 8 ∧ IsBox box2 16 ∧ IsBox box3 24 := printed_spec

theorem sm4SimdRound_lane (rk : Word) (x : Window M256i) (l : Fin 8) :
    (sm4SimdRound rk x).map (fun v => v.get l) =
      shift (· ^^^ ·) (feedback sm4RoundT) rk (x.map fun v => v.get l) := by
  obtain ⟨h0, h1, h2, h3⟩ := box_spec
  have xor (a b : M256i) : (mm256XorSi256 a b).get l = a.get l ^^^ b.get l := by
    simp [mm256XorSi256, get_eq]
  have srli (a : M256i) : (mm256SrliEpi32 a 8).get l = a.get l >>> 8 := by
    simp [mm256SrliEpi32, get_eq]
  have key : (mm256Set1Epi32 rk).get l = rk := by simp [mm256Set1Epi32, get_eq]
  simp only [sm4SimdRound, Window.map, shift, feedback, xor, gather_byte, srli, key,
    byteOf_shiftRight, sm4RoundT_eq_lookups h0 h1 h2 h3, BitVec.xor_assoc]
  congr 1
  ac_rfl

def simdKeys (rk : RoundKeys) (enc : Int) : RoundKeys :=
  if enc = 0 then rk else Vector.ofFn fun i : Fin 32 => rk[31 - i.val]!

theorem simdKeys_toList (rk : RoundKeys) (enc : Int) :
    (simdKeys rk enc).toList = if enc = 0 then rk.toList else rk.toList.reverse := by
  rw [simdKeys]
  split
  · rfl
  · exact keys_reverse rk

theorem sm4SimdRound_fold (rk : RoundKeys) (enc : Int) (x : Window M256i) (l : Fin 8) :
    (Nat.fold 32 (fun i hi x => sm4SimdRound (if enc = 0 then rk[i] else rk[31 - i]!) x) x).map
        (fun v => v.get l) =
      rounds sm4RoundT (simdKeys rk enc).toList (x.map fun v => v.get l) := by
  have key (i : Nat) (hi : i < 32) :
    (if enc = 0 then rk[i] else rk[31 - i]!) = (simdKeys rk enc)[i] := by
    rw [simdKeys]
    split
    · rfl
    · rw [Vector.getElem_ofFn]
  simp only [key]
  rw [fold_vector (simdKeys rk enc) sm4SimdRound]
  generalize (simdKeys rk enc).toList = keys
  induction keys generalizing x with
  | nil => rfl
  | cons k keys ih =>
    rw [List.foldl_cons, ih, sm4SimdRound_lane]
    rfl

/-! ## Loading and storing a batch -/

theorem swap_loadu (b : Vector Byte 128) (t : Fin 4) (d : Nat) (hd : d < 8) :
    swap (mm256LoaduSi256 b t)[d] = ofBytes b[32 * t.val + 4 * d] b[32 * t.val + (4 * d + 1)]
      b[32 * t.val + (4 * d + 2)] b[32 * t.val + (4 * d + 3)] := by
  rw [mm256LoaduSi256, ← get_eq _ ⟨d, hd⟩, getElem_ofEpi8, swap]
  obtain ⟨h24, h16, h8, h0⟩ := byteOf_ofBytes
    (Vector.ofFn fun i : Fin 32 => b[32 * t.val + i.val])[4 * d + 3]
    (Vector.ofFn fun i : Fin 32 => b[32 * t.val + i.val])[4 * d + 2]
    (Vector.ofFn fun i : Fin 32 => b[32 * t.val + i.val])[4 * d + 1]
    (Vector.ofFn fun i : Fin 32 => b[32 * t.val + i.val])[4 * d]
  rw [h24, h16, h8, h0, Vector.getElem_ofFn, Vector.getElem_ofFn, Vector.getElem_ofFn,
    Vector.getElem_ofFn]

theorem swap_loadu_block (b : Vector Byte 128) (j : Fin 8) (w : Fin 4) :
    swap (mm256LoaduSi256 b ⟨j.val / 2, by omega⟩)[4 * (j.val % 2) + w.val] =
      wordAt (blockOf b j) (4 * w.val) (by omega) := by
  rw [swap_loadu, wordAt]
  simp only [blockOf, Vector.getElem_ofFn]
  congr 2 <;> omega

theorem load_lane (b : Vector Byte 128) (j : Fin 8) (w : Fin 4) :
    let t0 := mm256LoaduSi256 b 0
    let t1 := mm256LoaduSi256 b 1
    let t2 := mm256LoaduSi256 b 2
    let t3 := mm256LoaduSi256 b 3
    swap ((#v[mm256Pack0Epi32 t0 t1 t2 t3, mm256Pack1Epi32 t0 t1 t2 t3, mm256Pack2Epi32 t0 t1 t2 t3,
      mm256Pack3Epi32 t0 t1 t2 t3].get w).get (laneOf j)) =
        wordAt (blockOf b j) (4 * w.val) (by omega) := by
  intro t0 t1 t2 t3
  have loads (t : Fin 4) : #v[t0, t1, t2, t3][t] = mm256LoaduSi256 b t := by
    fin_cases t <;> rfl
  have register : (4 * (j.val % 2) + j.val / 2) % 4 = j.val / 2 := by omega
  have half : (4 * (j.val % 2) + j.val / 2) / 4 = j.val % 2 := by omega
  rw [pack_lane, ← swap_loadu_block b j w, ← loads]
  simp only [laneOf, Fin.getElem_fin, register, half]

theorem byteOf_swap (w : Word) (r : Fin 4) :
    byteOf (swap w) (8 * r.val) = byteOf w (8 * (3 - r.val)) := by
  obtain ⟨h24, h16, h8, h0⟩ := byteOf_ofBytes (byteOf w 0) (byteOf w 8) (byteOf w 16) (byteOf w 24)
  fin_cases r
  · exact h0
  · exact h8
  · exact h16
  · exact h24

theorem store_lane (x : Window M256i) (j : Fin 8) :
    let y := x.map fun v => v.map swap
    blockOf (mm256StoreuSi256 #v[mm256Pack0Epi32 y.d y.c y.b y.a, mm256Pack1Epi32 y.d y.c y.b y.a,
        mm256Pack2Epi32 y.d y.c y.b y.a, mm256Pack3Epi32 y.d y.c y.b y.a]) j =
      storeWords (x.map fun v => v.get (laneOf j)).rev := by
  intro y
  apply Vector.ext
  intro i hi
  have register : (16 * j.val + i) / 32 = j.val / 2 := by omega
  have element : (16 * j.val + i) % 32 / 4 = 4 * (j.val % 2) + i / 4 := by omega
  have byte : (16 * j.val + i) % 32 % 4 = i % 4 := by omega
  have source := pack_lane y.d y.c y.b y.a ⟨j.val / 2, by omega⟩
    ⟨4 * (j.val % 2) + i / 4, by omega⟩
  simp only [get_eq] at source
  rw [getElem_storeWords, blockOf, Vector.getElem_ofFn, mm256StoreuSi256, Vector.getElem_ofFn,
    getElem_epi8]
  have word (k : Fin 4) : (#v[y.d, y.c, y.b, y.a].get k).get (laneOf j) =
      swap (#v[x.d.get (laneOf j), x.c.get (laneOf j), x.b.get (laneOf j),
        x.a.get (laneOf j)].get k) := by
    fin_cases k <;> exact Vector.getElem_map _ _
  have place := word ⟨i / 4, by omega⟩
  have first : (4 * (j.val % 2) + i / 4) % 4 = i / 4 := by omega
  have second : (4 * (j.val % 2) + i / 4) / 4 = j.val % 2 := by omega
  simp only [laneOf, get_eq] at place
  simp only [register, element, byte, source, first, second, place]
  exact byteOf_swap _ ⟨i % 4, Nat.mod_lt i (by decide)⟩

theorem sm4SimdDo_block (inp : Vector Byte 128) (rk : RoundKeys) (enc : Int) (j : Fin 8) :
    blockOf (sm4SimdDo inp rk enc) j =
      cipher sm4RoundT (if enc = 0 then rk.toList else rk.toList.reverse) (blockOf inp j) := by
  simp only [sm4SimdDo, shuffle_vindex]
  refine (store_lane _ j).trans ?_
  rw [sm4SimdRound_fold, simdKeys_toList, cipher]
  congr 3
  rw [loadWords, Window.map, Window.map, Window.mk.injEq]
  exact ⟨(Vector.getElem_map _ _).trans (load_lane inp j 0),
    (Vector.getElem_map _ _).trans (load_lane inp j 1),
    (Vector.getElem_map _ _).trans (load_lane inp j 2),
    (Vector.getElem_map _ _).trans (load_lane inp j 3)⟩

theorem sm4SimdEncryptX8_block (inp : Vector Byte 128) (rk : RoundKeys) (j : Fin 8) :
    blockOf (sm4SimdEncryptX8 inp rk) j = sm4EncryptBlock (blockOf inp j) rk := by
  rw [sm4EncryptBlock_eq]
  exact sm4SimdDo_block inp rk 0 j

theorem blockOf_read (mem : Memory Byte) (p : Nat) (j : Fin 8) :
    blockOf (read 128 mem p) j = read 16 mem (p + 16 * j.val) := by
  apply Vector.ext
  intro i hi
  rw [blockOf, Vector.getElem_ofFn, getElem_read, getElem_read, Nat.add_assoc]

theorem read_sm4SimdDoAt (mem : Memory Byte) (inp out : Nat) (rk : RoundKeys)
    (enc : Int) (j : Fin 8) :
    read 16 (sm4SimdDoAt mem inp out rk enc) (out + 16 * j.val) =
      cipher sm4RoundT (if enc = 0 then rk.toList else rk.toList.reverse)
        (read 16 mem (inp + 16 * j.val)) := by
  rw [← blockOf_read, sm4SimdDoAt, read_write, sm4SimdDo_block, blockOf_read]

/-- Wherever the two buffers lie, a call encrypts (decrypts) each of the eight blocks as the
portable header does, and writes nothing but the output buffer. -/
theorem sm4SimdDoAt_portable (mem : Memory Byte) (inp out : Nat) (rk : RoundKeys) :
    (∀ j : Fin 8, read 16 (sm4SimdDoAt mem inp out rk 0) (out + 16 * j.val) =
        sm4EncryptBlock (read 16 mem (inp + 16 * j.val)) rk) ∧
      (∀ j : Fin 8, read 16 (sm4SimdDoAt mem inp out rk 1) (out + 16 * j.val) =
        sm4DecryptBlock (read 16 mem (inp + 16 * j.val)) rk) ∧
      ∀ enc a, a < out ∨ out + 128 ≤ a → sm4SimdDoAt mem inp out rk enc a = mem a := by
  refine ⟨fun j => ?_, fun j => ?_, fun enc a outside => write_of_not_mem mem out a _ outside⟩
  · rw [sm4EncryptBlock_eq]
    exact read_sm4SimdDoAt mem inp out rk 0 j
  · rw [sm4DecryptBlock_eq]
    exact read_sm4SimdDoAt mem inp out rk 1 j

end SystemsLab.Sm4Simd
