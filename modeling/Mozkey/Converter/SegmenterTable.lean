import Mozkey.Infra.Bits
import Mozkey.Infra.Find

/-!
# The table of the segmenter

`converter/gen_segmenter_bitarray.cc`, `base/container/bitarray.h` and `converter/segmenter.cc`. The
boundaries between left and right ids are computed once, equal rows and equal columns are put
together, and a bit array is written out.

Rows of `lsize + 1` entries are stored `lsize` entries apart, so the last entry of a row is the
first one of the next. The last entries are all 1 and are written last.

* `isBoundary_eq_iff` — the written table has the boundaries of the rule if and only if the rule has
  one behind id 0 in front of all but id 0
-/

namespace Mozkey.Converter

open Infra

/-! ## Bit arrays -/

structure BitArray where
  array : List UInt32
  size : Nat

namespace BitArray

def ofSize (size : Nat) : BitArray := ⟨List.replicate (1 + size / 32) 0, size⟩

def bit (index : Nat) : UInt32 := 1 <<< UInt32.ofNat (index % 32)

/-- Nothing is there behind the last word. -/
def get (a : BitArray) (index : Nat) : Option Bool :=
  a.array[index / 32]?.map fun word => word.toNat.testBit (index % 32)

def set (a : BitArray) (index : Nat) : BitArray :=
  { a with array := a.array.modify (index / 32) fun word => word ||| bit index }

def clear (a : BitArray) (index : Nat) : BitArray :=
  { a with array := a.array.modify (index / 32) fun word => word &&& ~~~bit index }

/-- The words in memory. -/
def bytes (a : BitArray) : Bytes := a.array.flatMap fun word => leBytes 4 word.toNat

def getValue (array : Bytes) (index : Nat) : Option Bool :=
  array[index / 8]?.map fun b => b.toNat.testBit (index % 8)

end BitArray

/-! ## States -/

/-- `StateTable::Build` goes over the rows with the ids it gave to those before. -/
structure StateIds where
  dup : List (Bytes × UInt16)
  compressed : List UInt16
  next : UInt16

def StateIds.add (ids : StateIds) (row : Bytes) : StateIds :=
  match ids.dup.lookup row with
  | some id => { ids with compressed := ids.compressed ++ [id] }
  | none => ⟨ids.dup ++ [(row, ids.next)], ids.compressed ++ [ids.next], ids.next + 1⟩

structure StateTable where
  compressedTable : List UInt16
  compressedSize : Nat

/-- There is no table when a check fails. -/
def StateTable.build (idarray : List Bytes) : Option StateTable :=
  let ids := idarray.foldl StateIds.add ⟨[], [], 0⟩
  let size := ids.dup.length
  if (ids.compressed.all fun id => id.toNat < size) &&
      ((idarray.zip ids.compressed).all fun (row, id) => ids.dup.lookup row == some id) &&
      size < idarray.length then
    some ⟨ids.compressed, size⟩
  else none

/-- `id(uint16_t)` -/
def StateTable.id (table : StateTable) (id : Nat) : Option UInt16 :=
  table.compressedTable[(UInt16.ofNat id).toNat]?

/-! ## The generator -/

/-- What is written out. -/
structure SegmenterData where
  lNumElements : Nat
  rNumElements : Nat
  lTable : List UInt16
  rTable : List UInt16
  bitarray : Bytes

/-- The position of a pair in the array. -/
def index (lsize rid lid : Nat) : Nat := rid + lsize * lid

/-- The loops over the left and the right ids. -/
def pairs (lsize rsize : Nat) : List (Nat × Nat) :=
  (List.range (lsize + 1)).flatMap fun rid => (List.range (rsize + 1)).map fun lid => (rid, lid)

/-- The ids are converted to `uint16_t` for the rule. -/
def originalValue (lsize rsize : Nat) (isBoundary : UInt16 → UInt16 → Bool) (rid lid : Nat) :
    UInt8 :=
  if rid = lsize ∨ lid = rsize then 1
  else if isBoundary (UInt16.ofNat rid) (UInt16.ofNat lid) then 1 else 0

def originalArray (lsize rsize : Nat) (isBoundary : UInt16 → UInt16 → Bool) : List UInt8 :=
  (pairs lsize rsize).foldl
    (fun array (rid, lid) =>
      array.set (index lsize rid lid) (originalValue lsize rsize isBoundary rid lid))
    (List.replicate ((lsize + 1) * (rsize + 1)) 0)

/-- `StateTable::Add` for all ids, which it takes as `uint16_t`. -/
def addRows (size : Nat) (row : Nat → Bytes) : List Bytes :=
  (List.range size).foldl (fun idarray id => idarray.set (UInt16.ofNat id).toNat (row id))
    (List.replicate size [])

/-- The number of pairs is an `int`. -/
def generateBitarray (lsize rsize : Nat) (isBoundary : UInt16 → UInt16 → Bool) :
    Option SegmenterData :=
  if 2 ^ 31 ≤ (lsize + 1) * (rsize + 1) then none
  else do
    let array := originalArray lsize rsize isBoundary
    let entry := fun rid lid => array.getD (index lsize rid lid) 0
    let rtable ← StateTable.build
      (addRows (rsize + 1) fun lid => (List.range (lsize + 1)).map fun rid => entry rid lid)
    let ltable ← StateTable.build
      (addRows (lsize + 1) fun rid => (List.range (rsize + 1)).map fun lid => entry rid lid)
    let cindex := fun rid lid => do
      let l ← ltable.id rid
      let r ← rtable.id lid
      return l.toNat + ltable.compressedSize * r.toNat
    let barray ← (pairs lsize rsize).foldlM
      (fun (barray : BitArray) (rid, lid) => do
        let i ← cindex rid lid
        return if 0 < entry rid lid then barray.set i else barray.clear i)
      (BitArray.ofSize (ltable.compressedSize * rtable.compressedSize))
    let verified := (pairs lsize rsize).all fun (rid, lid) =>
      (do barray.get (← cindex rid lid)) == some (entry rid lid != 0)
    if verified && 0 < barray.size then
      return ⟨ltable.compressedSize, rtable.compressedSize, ltable.compressedTable,
        rtable.compressedTable, barray.bytes⟩
    else none

/-- `Segmenter::IsBoundary(uint16_t, uint16_t)` -/
def SegmenterData.isBoundary (data : SegmenterData) (rid lid : UInt16) : Option Bool := do
  let l ← data.lTable[rid.toNat]?
  let r ← data.rTable[lid.toNat]?
  BitArray.getValue data.bitarray (l.toNat + data.lNumElements * r.toNat)

/-! ## Reading the bits -/

/-- The bits of words in memory are the bits of the words. -/
theorem getElem?_bitsOf_words : ∀ (words : List UInt32) (i : Nat),
    (bitsOf (words.flatMap fun word => leBytes 4 word.toNat))[i]? =
      words[i / 32]?.map fun word => word.toNat.testBit (i % 32)
  | [], i => by simp
  | word :: words, i => by
    rw [List.flatMap_cons, bitsOf_append, List.getElem?_append, length_bitsOf, length_leBytes]
    split
    · next h =>
      have hword : leNat (leBytes 4 word.toNat) = word.toNat := leNat_leBytes word.toNat_lt
      have hbit := testBit_leNat (leBytes 4 word.toNat) i
      have hlen : i < (bitsOf (leBytes 4 word.toNat)).length := by
        rw [length_bitsOf, length_leBytes]
        exact h
      rw [hword, List.getD_eq_getElem?_getD, List.getElem?_eq_getElem hlen, Option.getD_some]
        at hbit
      simp [List.getElem?_eq_getElem hlen, Nat.div_eq_of_lt h, Nat.mod_eq_of_lt h, ← hbit]
    · next h =>
      rw [getElem?_bitsOf_words words, show i / 32 = (i - 4 * 8) / 32 + 1 by omega,
        show i % 32 = (i - 4 * 8) % 32 by omega, List.getElem?_cons_succ]

theorem BitArray.getValue_bytes (a : BitArray) (index : Nat) :
    BitArray.getValue a.bytes index = a.get index := by
  rw [BitArray.getValue, ← getElem?_bitsOf, BitArray.bytes, getElem?_bitsOf_words]
  rfl

/-! ## The array -/

variable {lsize rsize : Nat} {isBoundary : UInt16 → UInt16 → Bool}

theorem index_lt {rid lid : Nat} (hrid : rid ≤ lsize) (hlid : lid ≤ rsize) :
    index lsize rid lid < (lsize + 1) * (rsize + 1) := by
  have hrow : lsize * lid ≤ lsize * rsize := Nat.mul_le_mul_left lsize hlid
  have hall : (lsize + 1) * (rsize + 1) = lsize * rsize + lsize + rsize + 1 := by
    rw [Nat.add_mul, Nat.mul_add]
    omega
  rw [index]
  omega

/-- Two pairs have one position if one is the end of a row and the other begins the next one. -/
theorem index_eq_iff (hpos : 0 < lsize) {rid rid' lid lid' : Nat} (hrid' : rid' ≤ lsize)
    (hlt : rid < rid') :
    index lsize rid lid = index lsize rid' lid' ↔ rid = 0 ∧ rid' = lsize ∧ lid = lid' + 1 := by
  rw [index, index]
  constructor
  · intro h
    have hlid : lid' < lid := by
      by_contra hle
      have hmul := Nat.mul_le_mul_left lsize (Nat.not_lt.mp hle)
      omega
    obtain ⟨k, rfl⟩ := Nat.exists_eq_add_of_lt hlid
    rw [Nat.add_assoc, Nat.mul_add, Nat.mul_succ] at h
    have hk : k = 0 := by
      by_contra hk
      have hmul := Nat.mul_le_mul_left lsize (Nat.one_le_iff_ne_zero.mpr hk)
      omega
    subst hk
    omega
  · rintro ⟨rfl, rfl, rfl⟩
    rw [Nat.mul_succ]
    omega

/-- The loop over the right ids of one left id. -/
def writeRow (lsize : Nat) (value : Nat → Nat → UInt8) (rid n : Nat) (array : List UInt8) :
    List UInt8 :=
  (List.range n).foldl (fun array lid => array.set (index lsize rid lid) (value rid lid)) array

/-- The loop over the left ids. -/
def writeRows (lsize rsize : Nat) (value : Nat → Nat → UInt8) (n : Nat) (array : List UInt8) :
    List UInt8 :=
  (List.range n).foldl (fun array rid => writeRow lsize value rid (rsize + 1) array) array

theorem originalArray_eq : originalArray lsize rsize isBoundary =
    writeRows lsize rsize (originalValue lsize rsize isBoundary) (lsize + 1)
      (List.replicate ((lsize + 1) * (rsize + 1)) 0) := by
  rw [originalArray, pairs, List.foldl_flatMap]
  simp only [List.foldl_map]
  rfl

/-- What a row writes, and what it leaves. -/
structure RowWritten (lsize : Nat) (value : Nat → Nat → UInt8) (rid n : Nat)
    (array array' : List UInt8) : Prop where
  length : array'.length = array.length
  written : ∀ lid < n, array'[index lsize rid lid]? = some (value rid lid)
  kept : ∀ i, (∀ lid < n, i ≠ index lsize rid lid) → array'[i]? = array[i]?

theorem writeRow_written (hpos : 0 < lsize) (value : Nat → Nat → UInt8) (rid : Nat)
    (array : List UInt8) : ∀ n, (∀ lid < n, index lsize rid lid < array.length) →
    RowWritten lsize value rid n array (writeRow lsize value rid n array)
  | 0, _ => ⟨rfl, by simp, fun i _ => rfl⟩
  | n + 1, hlen => by
    have ih := writeRow_written hpos value rid array n fun lid hlid => hlen lid (by omega)
    rw [writeRow, List.range_succ, List.foldl_append, List.foldl_cons, List.foldl_nil, ← writeRow]
    refine ⟨by rw [List.length_set, ih.length], fun lid hlid => ?_, fun i hi => ?_⟩
    · rw [List.getElem?_set]
      by_cases heq : lid = n
      · rw [if_pos (by rw [heq]), if_pos (by rw [ih.length]; exact hlen n (by omega)), heq]
      · rw [if_neg]
        · exact ih.written lid (by omega)
        · rw [index, index]
          intro hsame
          exact heq (Nat.eq_of_mul_eq_mul_left hpos (Nat.add_left_cancel hsame)).symm
    · rw [List.getElem?_set, if_neg (fun h => hi n (by omega) h.symm)]
      exact ih.kept i fun lid hlid => hi lid (by omega)

/-- What is not overwritten by a later row stays. -/
theorem getElem?_writeRows (hpos : 0 < lsize) (value : Nat → Nat → UInt8) {array : List UInt8}
    (hlen : array.length = (lsize + 1) * (rsize + 1)) : ∀ n ≤ lsize + 1,
      (writeRows lsize rsize value n array).length = array.length ∧
      ∀ rid < n, ∀ lid ≤ rsize, (∀ rid', rid < rid' → rid' < n → ∀ lid' ≤ rsize,
        index lsize rid lid ≠ index lsize rid' lid') →
        (writeRows lsize rsize value n array)[index lsize rid lid]? = some (value rid lid)
  | 0, _ => ⟨rfl, by simp⟩
  | n + 1, hn => by
    obtain ⟨hsize, hin⟩ := getElem?_writeRows hpos value hlen n (by omega)
    rw [writeRows, List.range_succ, List.foldl_append, List.foldl_cons, List.foldl_nil, ← writeRows]
    have hrow := writeRow_written hpos value n (writeRows lsize rsize value n array) (rsize + 1)
      fun lid hlid => by
        rw [hsize, hlen]
        exact index_lt (show n ≤ lsize by omega) (show lid ≤ rsize by omega)
    refine ⟨hrow.length.trans hsize, fun rid hrid lid hlid hlater => ?_⟩
    by_cases heq : rid = n
    · subst heq
      exact hrow.written lid (by omega)
    · rw [hrow.kept _ fun lid' hlid' => hlater n (by omega) (by omega) lid' (by omega)]
      exact hin rid (by omega) lid hlid fun rid' hlt hlt' lid' hlid' =>
        hlater rid' hlt (by omega) lid' hlid'

/-- The end of a row was written over the beginning of the next one. -/
def isOverwritten (rid lid : Nat) : Prop := rid = 0 ∧ 1 ≤ lid

instance (rid lid : Nat) : Decidable (isOverwritten rid lid) := inferInstanceAs (Decidable (_ ∧ _))

/-- **What the array holds in the end.** -/
theorem originalArray_get (hpos : 0 < lsize) {rid lid : Nat} (hrid : rid ≤ lsize)
    (hlid : lid ≤ rsize) :
    (originalArray lsize rsize isBoundary).getD (index lsize rid lid) 0 =
      if isOverwritten rid lid then 1 else originalValue lsize rsize isBoundary rid lid := by
  have hlen : (List.replicate ((lsize + 1) * (rsize + 1)) (0 : UInt8)).length =
      (lsize + 1) * (rsize + 1) := List.length_replicate
  have hrows := (getElem?_writeRows hpos (originalValue lsize rsize isBoundary) hlen (lsize + 1)
    (Nat.le_refl _)).2
  rw [originalArray_eq, List.getD_eq_getElem?_getD]
  split
  · next h =>
    obtain ⟨rfl, hone⟩ := h
    obtain ⟨k, rfl⟩ := Nat.exists_eq_add_of_le' hone
    simp [(index_eq_iff hpos (Nat.le_refl lsize) hpos).mpr ⟨rfl, rfl, rfl⟩, hrows lsize (by omega) k
      (by omega) (fun rid' hlt hlt' => by omega), originalValue]
  · next h =>
    rw [hrows rid (by omega) lid hlid, Option.getD_some]
    intro rid' hlt hlt' lid' hlid' heq
    obtain ⟨hzero, -, hlid⟩ := (index_eq_iff hpos (by omega) hlt).mp heq
    exact h ⟨hzero, by omega⟩

/-! ## The written table -/

theorem length_addRows (size : Nat) (row : Nat → Bytes) : (addRows size row).length = size := by
  have hfold : ∀ (ids : List Nat) (idarray : List Bytes),
      (ids.foldl (fun idarray id => idarray.set (UInt16.ofNat id).toNat (row id)) idarray).length
        = idarray.length := by
    intro ids
    induction ids with
    | nil => exact fun _ => rfl
    | cons id ids ih =>
      intro idarray
      rw [List.foldl_cons, ih, List.length_set]
  rw [addRows, hfold, List.length_replicate]

/-- Some row comes twice. -/
theorem StateTable.one_lt_length {idarray : List Bytes} {table : StateTable}
    (h : StateTable.build idarray = some table) : 1 < idarray.length := by
  match idarray, h with
  | [], h =>
    rw [StateTable.build] at h
    simp at h
  | [row], h =>
    rw [StateTable.build] at h
    simp [StateIds.add] at h
  | _ :: _ :: _, _ => simp

/-- What the last loop has checked. -/
structure Verified (lsize rsize : Nat) (isBoundary : UInt16 → UInt16 → Bool)
    (data : SegmenterData) : Prop where
  pos : 0 < lsize
  entry : ∀ rid lid : UInt16, rid.toNat ≤ lsize → lid.toNat ≤ rsize → data.isBoundary rid lid =
    some ((originalArray lsize rsize isBoundary).getD (index lsize rid.toNat lid.toNat) 0 != 0)

theorem generateBitarray_verified {data : SegmenterData}
    (h : generateBitarray lsize rsize isBoundary = some data) :
    Verified lsize rsize isBoundary data := by
  rw [generateBitarray] at h
  split at h
  · cases h
  · obtain ⟨rtable, hrtable, h⟩ := Option.bind_eq_some_iff.mp h
    obtain ⟨ltable, hltable, h⟩ := Option.bind_eq_some_iff.mp h
    obtain ⟨barray, -, h⟩ := Option.bind_eq_some_iff.mp h
    dsimp only at h
    split at h
    · next hverified =>
      rw [Bool.and_eq_true, List.all_eq_true] at hverified
      rw [← Option.some.inj h]
      constructor
      · have hlen := StateTable.one_lt_length hltable
        rw [length_addRows] at hlen
        omega
      · intro rid lid hrid hlid
        have hpair : (rid.toNat, lid.toNat) ∈ pairs lsize rsize :=
          List.mem_flatMap.mpr ⟨rid.toNat, List.mem_range.mpr (by omega),
            List.mem_map.mpr ⟨lid.toNat, List.mem_range.mpr (by omega), rfl⟩⟩
        have hget := eq_of_beq (hverified.1 _ hpair)
        dsimp only at hget
        simp only [StateTable.id, UInt16.ofNat_toNat] at hget
        rw [SegmenterData.isBoundary, ← hget]
        cases ltable.compressedTable[rid.toNat]? with
        | none => rfl
        | some l =>
          cases rtable.compressedTable[lid.toNat]? with
          | none => rfl
          | some r => exact BitArray.getValue_bytes barray _
    · cases h

/-- The table has the boundaries of the rule, and one at the ids behind its last. -/
structure Agrees (lsize rsize : Nat) (isBoundary : UInt16 → UInt16 → Bool)
    (data : SegmenterData) : Prop where
  inside : ∀ rid lid : UInt16, rid.toNat < lsize → lid.toNat < rsize →
    data.isBoundary rid lid = some (isBoundary rid lid)
  sentinel : ∀ rid lid : UInt16, rid.toNat ≤ lsize → lid.toNat ≤ rsize →
    rid.toNat = lsize ∨ lid.toNat = rsize → data.isBoundary rid lid = some true

/-- What the written table says. -/
theorem Verified.isBoundary_eq {data : SegmenterData} (h : Verified lsize rsize isBoundary data)
    {rid lid : UInt16} (hrid : rid.toNat ≤ lsize) (hlid : lid.toNat ≤ rsize) :
    data.isBoundary rid lid = some (decide (rid.toNat = lsize ∨ lid.toNat = rsize ∨
      isOverwritten rid.toNat lid.toNat) || isBoundary rid lid) := by
  rw [h.entry rid lid hrid hlid, originalArray_get h.pos hrid hlid, originalValue,
    UInt16.ofNat_toNat, UInt16.ofNat_toNat]
  by_cases hover : isOverwritten rid.toNat lid.toNat
  · simp [hover]
  · by_cases hend : rid.toNat = lsize ∨ lid.toNat = rsize
    · rcases hend with hend | hend <;> simp [hend]
    · rw [not_or] at hend
      cases hrule : isBoundary rid lid <;> simp [hover, hend]

/-- **The written table has the boundaries of the rule if and only if the rule has one behind id 0
in front of all ids but id 0.** -/
theorem isBoundary_eq_iff {data : SegmenterData}
    (h : generateBitarray lsize rsize isBoundary = some data) :
    Agrees lsize rsize isBoundary data ↔
      ∀ lid : UInt16, 1 ≤ lid.toNat → lid.toNat < rsize → isBoundary 0 lid = true := by
  have hverified := generateBitarray_verified h
  constructor
  · intro hagrees lid hone hlid
    have hinside := hagrees.inside 0 lid hverified.pos hlid
    rw [hverified.isBoundary_eq (Nat.zero_le _) (Nat.le_of_lt hlid)] at hinside
    have hover : isOverwritten (0 : UInt16).toNat lid.toNat := ⟨rfl, hone⟩
    rw [decide_eq_true (Or.inr (Or.inr hover)), Bool.true_or] at hinside
    exact (Option.some.inj hinside).symm
  · intro hrule
    refine ⟨fun rid lid hrid hlid => ?_, fun rid lid hrid hlid hend => ?_⟩
    · rw [hverified.isBoundary_eq (Nat.le_of_lt hrid) (Nat.le_of_lt hlid)]
      by_cases hover : isOverwritten rid.toNat lid.toNat
      · obtain rfl : rid = 0 := UInt16.toNat_inj.mp hover.1
        simp [hrule lid hover.2 hlid]
      · rw [decide_eq_false, Bool.false_or]
        rintro (hend | hend | hend)
        · omega
        · omega
        · exact hover hend
    · rw [hverified.isBoundary_eq hrid hlid, decide_eq_true, Bool.true_or]
      exact hend.imp_right Or.inl

/-- A rule with a boundary at id 0 on either side. -/
def zeroIds (rid lid : UInt16) : Bool := rid == 0 || lid == 0

theorem isBoundary_eq_iff_zeroIds : ∃ data, generateBitarray 3 3 zeroIds = some data ∧
    (Agrees 3 3 zeroIds data ↔
      ∀ lid : UInt16, 1 ≤ lid.toNat → lid.toNat < 3 → zeroIds 0 lid = true) :=
  ⟨_, rfl, isBoundary_eq_iff rfl⟩

/-- **A table has a boundary that the rule does not have.** -/
theorem isBoundary_overwritten : ∃ data, generateBitarray 3 3 (fun _ _ => false) = some data ∧
    data.isBoundary 0 1 = some true := ⟨_, rfl, rfl⟩

end Mozkey.Converter
