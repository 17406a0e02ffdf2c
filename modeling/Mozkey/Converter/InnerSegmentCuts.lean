import Mathlib.Data.List.Induction
import Mozkey.Base.Utf8Text
import Mozkey.Converter.InnerSegments

/-!
# Going through the inner segments

`InnerSegments` of `converter/inner_segment.h`: the iterator, the first and the last of the inner
segments, and what a builder makes.

* `IteratorData.forEach_eq` — the loop over the inner segments ends
* `InnerSegments.prefix_append_suffix` — the first segments and the others are everything
* `innerSegments_partition` — all that is promised of them together
-/

namespace Mozkey.Converter

open Infra Base

/-! ## The iterator -/

/-- What is left of the key, of the value and of the lengths. -/
structure IteratorData where
  key : Bytes
  value : Bytes
  encodedLengths : List UInt32

namespace IteratorData

/-- Without lengths everything that is left is taken. -/
def len (it : IteratorData) (full : Nat) (field : LengthData → Nat) : Nat :=
  min full (match it.encodedLengths with
    | [] => full
    | encoded :: _ => field (decodeLengths encoded))

def keyLen (it : IteratorData) : Nat := it.len it.key.length LengthData.keyLen

def valueLen (it : IteratorData) : Nat := it.len it.value.length LengthData.valueLen

def contentKeyLen (it : IteratorData) : Nat := it.len it.key.length LengthData.contentKeyLen

def contentValueLen (it : IteratorData) : Nat := it.len it.value.length LengthData.contentValueLen

/-- What the getters give. -/
def segment (it : IteratorData) : InnerSegment where
  key := it.key.take it.keyLen
  value := it.value.take it.valueLen
  contentKey := it.key.take it.contentKeyLen
  contentValue := it.value.take it.contentValueLen

def next (it : IteratorData) : IteratorData where
  key := it.key.drop it.keyLen
  value := it.value.drop it.valueLen
  encodedLengths := it.encodedLengths.tail

/-- `operator!=` -/
def ne (it other : IteratorData) : Bool :=
  it.key.length != other.key.length || it.value.length != other.value.length

/-- What the loop from `it` to `end()` goes through; `none` when `fuel` steps are not enough. -/
def forEach : Nat → IteratorData → Option (List InnerSegment)
  | 0, _ => none
  | fuel + 1, it =>
    if it.ne ⟨[], [], []⟩ then (forEach fuel it.next).map (it.segment :: ·) else some []

theorem take_min_length (s : Bytes) (n : Nat) : s.take (min s.length n) = s.take n := by
  rw [Nat.min_comm, ← List.take_eq_take_min]

theorem drop_min_length (s : Bytes) (n : Nat) : s.drop (min s.length n) = s.drop n := by
  rw [Nat.min_comm, ← List.drop_eq_drop_min]

theorem ne_end (it : IteratorData) :
    it.ne ⟨[], [], []⟩ = !(it.key.isEmpty && it.value.isEmpty) := by
  obtain ⟨key, value, lengths⟩ := it
  cases key <;> cases value <;> rfl

/-- **The loop over the inner segments ends.** -/
theorem forEach_eq : ∀ (lengths : List UInt32) (key value : Bytes) (fuel : Nat),
    lengths.length + 2 ≤ fuel →
    forEach fuel ⟨key, value, lengths⟩ = some (iterate key value lengths)
  | lengths, key, value, 0, h => absurd h (by omega)
  | [], key, value, fuel + 1, h => by
    obtain ⟨n, rfl⟩ : ∃ n, fuel = n + 1 := ⟨fuel - 1, by simp at h; omega⟩
    rw [forEach, ne_end, iterate]
    by_cases hempty : (key.isEmpty && value.isEmpty) = true
    · simp [hempty]
    · simp [hempty, forEach, next, segment, keyLen, valueLen, contentKeyLen, contentValueLen, len,
        ne]
  | encoded :: rest, key, value, fuel + 1, h => by
    rw [forEach, ne_end, iterate]
    by_cases hempty : (key.isEmpty && value.isEmpty) = true
    · simp [hempty]
    · have hnext : (⟨key, value, encoded :: rest⟩ : IteratorData).next =
          ⟨key.drop (decodeLengths encoded).keyLen, value.drop (decodeLengths encoded).valueLen,
            rest⟩ := by
        simp [next, keyLen, valueLen, len, drop_min_length]
      have hlen : rest.length + 2 ≤ fuel := by
        rw [List.length_cons] at h
        omega
      simp [hnext, forEach_eq rest _ _ fuel hlen, hempty, segment, keyLen, valueLen, contentKeyLen,
        contentValueLen, len, take_min_length]

end IteratorData

/-! ## The inner segments of a key and a value -/

/-- `begin_` -/
structure InnerSegments where
  start : IteratorData

/-- `size_t` of an `int` -/
def toSize (n : Int) : Nat := (n % 2 ^ 64).toNat

namespace InnerSegments

def ofKeyValue (key value : Bytes) (boundary : List UInt32) : InnerSegments where
  start := ⟨key, value, if isValidInnerSegmentBoundary key value boundary then boundary else []⟩

def fixInnerSegmentBoundary (key value contentKey contentValue : Bytes) (boundary : List UInt32) :
    List UInt32 :=
  if isValidInnerSegmentBoundary key value boundary then boundary
  else
    let contentKeyLen := if isValidUtf8Boundary key contentKey.length then contentKey.length
      else key.length
    let contentValueLen := if isValidUtf8Boundary value contentValue.length then
      contentValue.length else value.length
    (encodeLengths key.length value.length contentKeyLen contentValueLen).toList

def ofContent (key value contentKey contentValue : Bytes) (boundary : List UInt32) :
    InnerSegments where
  start := ⟨key, value, fixInnerSegmentBoundary key value contentKey contentValue boundary⟩

/-- What a loop goes through. -/
def segments (s : InnerSegments) : List InnerSegment :=
  iterate s.start.key s.start.value s.start.encodedLengths

def size (s : InnerSegments) : Nat :=
  if s.start.key.isEmpty && s.start.value.isEmpty then 0 else max 1 s.start.encodedLengths.length

/-- The loop of `GetPrefixKeyAndValue`; the lengths are `int`. -/
def prefixLoop (key value : Bytes) : Int → Int → Int → List InnerSegment → Bytes × Bytes
  | _, _, _, [] => (key, value)
  | size, keyLen, valueLen, s :: rest =>
    if size = 0 ∨ key.length ≤ toSize keyLen ∨ value.length ≤ toSize valueLen then
      (key.take (toSize keyLen), value.take (toSize valueLen))
    else
      prefixLoop key value (size - 1) (toInt32 (toSize keyLen + s.key.length))
        (toInt32 (toSize valueLen + s.value.length)) rest

def getPrefixKeyAndValue (s : InnerSegments) (size : Int) : Bytes × Bytes :=
  if size < 0 then (s.start.key, s.start.value)
  else prefixLoop s.start.key s.start.value size 0 0 s.segments

/-- The loop of `GetSuffixKeyAndValue`. -/
def suffixLoop : Int → Bytes → Bytes → List InnerSegment → Bytes × Bytes
  | _, key, value, [] => (key, value)
  | index, key, value, s :: rest =>
    let key := key.drop s.key.length
    let value := value.drop s.value.length
    if index = 0 then (key, value) else suffixLoop (index - 1) key value rest

def getSuffixKeyAndValue (s : InnerSegments) (size : Int) : Bytes × Bytes :=
  if size = 0 then
    (s.start.key.drop s.start.key.length, s.start.value.drop s.start.value.length)
  else
    let index := toInt32 (s.size - size - 1)
    if size < 0 ∨ index < 0 then (s.start.key, s.start.value)
    else suffixLoop index s.start.key s.start.value s.segments

end InnerSegments

/-! ## Where the parts are cut -/

/-- The end of the text, or where a character starts. -/
def IsCharacterStart (s : Bytes) (i : Nat) : Prop :=
  i ≤ s.length ∧ ∀ c, s[i]? = some c → isUtf8TrailingByte c = false

theorem trailing_bits : ∀ c : UInt8, (c &&& 0xC0 != 0x80) = !isUtf8TrailingByte c := by
  refine forall_byte ?_
  decide +kernel

theorem isCharacterStart_of_boundary {s : Bytes} {i : Nat} (h : isValidUtf8Boundary s i = true) :
    IsCharacterStart s i := by
  rw [isValidUtf8Boundary, Bool.and_eq_true, decide_eq_true_eq, Bool.or_eq_true,
    decide_eq_true_eq] at h
  refine ⟨h.1, fun c hc => ?_⟩
  rcases h.2 with hend | hbyte
  · simp [hend] at hc
  · rw [List.getD_eq_getElem?_getD, hc, Option.getD_some, trailing_bits] at hbyte
    simpa using hbyte

/-- A part that starts at the offsets. -/
structure PartAt (key value : Bytes) (keyOffset valueOffset : Nat) (s : InnerSegment) : Prop where
  key_ne : s.key ≠ []
  value_ne : s.value ≠ []
  key_prefix : s.key <+: key.drop keyOffset
  value_prefix : s.value <+: value.drop valueOffset
  contentKey_prefix : s.contentKey <+: s.key
  contentValue_prefix : s.contentValue <+: s.value
  key_start : IsCharacterStart key (keyOffset + s.key.length)
  value_start : IsCharacterStart value (valueOffset + s.value.length)
  contentKey_start : IsCharacterStart key (keyOffset + s.contentKey.length)
  contentValue_start : IsCharacterStart value (valueOffset + s.contentValue.length)

/-- The parts from the offsets to the end. -/
inductive CutsFrom (key value : Bytes) : Nat → Nat → List InnerSegment → Prop
  | done : CutsFrom key value key.length value.length []
  | part {keyOffset valueOffset : Nat} {s : InnerSegment} {parts : List InnerSegment}
      (hs : PartAt key value keyOffset valueOffset s)
      (h : CutsFrom key value (keyOffset + s.key.length) (valueOffset + s.value.length) parts) :
      CutsFrom key value keyOffset valueOffset (s :: parts)

section

variable {key value : Bytes}

theorem length_take_drop {s : Bytes} {i n : Nat} (h : i + n ≤ s.length) :
    ((s.drop i).take n).length = n := by
  rw [List.length_take, List.length_drop]
  omega

/-- **Lengths that are accepted are those of the parts.** -/
theorem iterate_cuts : ∀ {lengths : List UInt32} {keyOffset valueOffset : Nat},
    isValidBoundaryFrom key value keyOffset valueOffset lengths = true →
    CutsFrom key value keyOffset valueOffset
        (iterate (key.drop keyOffset) (value.drop valueOffset) lengths) ∧
      (iterate (key.drop keyOffset) (value.drop valueOffset) lengths).length = lengths.length
  | [], keyOffset, valueOffset, h => by
    simp only [isValidBoundaryFrom, Bool.and_eq_true, decide_eq_true_eq] at h
    obtain ⟨rfl, rfl⟩ := h
    simpa using ⟨.done, rfl⟩
  | encoded :: rest, keyOffset, valueOffset, h => by
    unfold isValidBoundaryFrom at h
    dsimp only at h
    split at h
    · cases h
    · next hlens =>
      split at h
      · next hstarts =>
        simp only [Bool.and_eq_true] at hstarts
        obtain ⟨⟨⟨hck, hk⟩, hcv⟩, hv⟩ := hstarts
        obtain ⟨hkey, hvalue⟩ := isValidBoundaryFrom_le h
        have hkeyLen := length_take_drop (s := key) (i := keyOffset)
          (n := (decodeLengths encoded).keyLen) (by omega)
        have hvalueLen := length_take_drop (s := value) (i := valueOffset)
          (n := (decodeLengths encoded).valueLen) (by omega)
        have hcontentKeyLen := length_take_drop (s := key) (i := keyOffset)
          (n := (decodeLengths encoded).contentKeyLen) (by omega)
        have hcontentValueLen := length_take_drop (s := value) (i := valueOffset)
          (n := (decodeLengths encoded).contentValueLen) (by omega)
        have hne : ((key.drop keyOffset).isEmpty && (value.drop valueOffset).isEmpty) = false := by
          cases hdrop : key.drop keyOffset with
          | nil =>
            simp [hdrop] at hkeyLen
            omega
          | cons b l => rfl
        obtain ⟨hcuts, hlength⟩ := iterate_cuts h
        rw [← List.drop_drop, ← List.drop_drop] at hcuts hlength
        rw [iterate, hne, if_neg Bool.false_ne_true]
        dsimp only
        refine ⟨.part ⟨?_, ?_, List.take_prefix _ _, List.take_prefix _ _,
          List.take_prefix_take_left (by omega), List.take_prefix_take_left (by omega), ?_, ?_, ?_,
          ?_⟩ ?_, ?_⟩
        · rw [← List.length_pos_iff, hkeyLen]
          omega
        · rw [← List.length_pos_iff, hvalueLen]
          omega
        · rw [hkeyLen]
          exact isCharacterStart_of_boundary hk
        · rw [hvalueLen]
          exact isCharacterStart_of_boundary hv
        · rw [hcontentKeyLen]
          exact isCharacterStart_of_boundary hck
        · rw [hcontentValueLen]
          exact isCharacterStart_of_boundary hcv
        · rw [hkeyLen, hvalueLen]
          exact hcuts
        · rw [List.length_cons, List.length_cons, hlength]
      · cases h

def keysLength (parts : List InnerSegment) : Nat := (parts.map fun s => s.key.length).sum

def valuesLength (parts : List InnerSegment) : Nat := (parts.map fun s => s.value.length).sum

@[simp] theorem keysLength_nil : keysLength [] = 0 := rfl

@[simp] theorem keysLength_cons (s : InnerSegment) (parts : List InnerSegment) :
    keysLength (s :: parts) = s.key.length + keysLength parts := rfl

@[simp] theorem valuesLength_nil : valuesLength [] = 0 := rfl

@[simp] theorem valuesLength_cons (s : InnerSegment) (parts : List InnerSegment) :
    valuesLength (s :: parts) = s.value.length + valuesLength parts := rfl

variable {parts : List InnerSegment} {valueOffset keyOffset : Nat}

theorem CutsFrom.key_flatten (h : CutsFrom key value keyOffset valueOffset parts) :
    keyOffset + keysLength parts = key.length ∧
      valueOffset + valuesLength parts = value.length := by
  induction h with
  | done => exact ⟨rfl, rfl⟩
  | part hs h ih =>
    rw [keysLength_cons, valuesLength_cons]
    omega

theorem CutsFrom.length_le (h : CutsFrom key value keyOffset valueOffset parts) :
    parts.length ≤ keysLength parts := by
  induction h with
  | done => exact Nat.le_refl _
  | part hs h ih =>
    have := List.length_pos_of_ne_nil hs.key_ne
    rw [keysLength_cons, List.length_cons]
    omega

/-- What is in front of a part. -/
theorem CutsFrom.starts {before after : List InnerSegment} {s : InnerSegment}
    (h : CutsFrom key value keyOffset valueOffset (before ++ s :: after)) :
    PartAt key value (keyOffset + keysLength before) (valueOffset + valuesLength before) s := by
  induction before generalizing keyOffset valueOffset with
  | nil =>
    cases h with
    | part hs h => exact hs
  | cons t before ih =>
    cases h with
    | part ht h =>
      rw [keysLength_cons, valuesLength_cons, ← Nat.add_assoc, ← Nat.add_assoc]
      exact ih h

/-! ## The first parts and the last ones -/

theorem toSize_natCast {n : Nat} (h : n < 2 ^ 63) : toSize n = n := by
  unfold toSize
  omega

theorem toInt32_natCast {n : Nat} (h : n < 2 ^ 31) : toInt32 n = n :=
  toInt32_of_range (by omega) (by unfold int32Max; omega)

theorem prefixLoop_cuts {n : Nat} (h : CutsFrom key value keyOffset valueOffset parts)
    (hkey : key.length < 2 ^ 31) (hvalue : value.length < 2 ^ 31) (hn : n ≤ parts.length) :
    InnerSegments.prefixLoop key value n keyOffset valueOffset parts =
      (key.take (keyOffset + keysLength (parts.take n)),
        value.take (valueOffset + valuesLength (parts.take n))) := by
  induction h generalizing n with
  | done => simp [InnerSegments.prefixLoop]
  | @part keyOffset valueOffset s parts hs h ih =>
    obtain ⟨hkeys, hvalues⟩ := h.key_flatten
    have hkeyPos := List.length_pos_of_ne_nil hs.key_ne
    have hvaluePos := List.length_pos_of_ne_nil hs.value_ne
    rw [InnerSegments.prefixLoop, toSize_natCast (by omega), toSize_natCast (by omega)]
    cases n with
    | zero => simp
    | succ n =>
      rw [if_neg (by omega), ← Nat.cast_add, ← Nat.cast_add, toInt32_natCast (by omega),
        toInt32_natCast (by omega), Nat.cast_succ, Int.add_sub_cancel,
        ih (Nat.le_of_succ_le_succ hn), List.take_succ_cons, keysLength_cons, valuesLength_cons,
        Nat.add_assoc, Nat.add_assoc]

theorem suffixLoop_cuts {n : Nat} (h : CutsFrom key value keyOffset valueOffset parts)
    (hn : n < parts.length) :
    InnerSegments.suffixLoop n (key.drop keyOffset) (value.drop valueOffset) parts =
      (key.drop (keyOffset + keysLength (parts.take (n + 1))),
        value.drop (valueOffset + valuesLength (parts.take (n + 1)))) := by
  induction h generalizing n with
  | done => exact absurd hn (Nat.not_lt_zero _)
  | @part keyOffset valueOffset s parts hs h ih =>
    rw [InnerSegments.suffixLoop]
    rw [List.drop_drop, List.drop_drop]
    cases n with
    | zero => simp
    | succ n =>
      rw [if_neg (by omega), Nat.cast_succ, Int.add_sub_cancel, ih (Nat.lt_of_succ_lt_succ hn),
        List.take_succ_cons, keysLength_cons, valuesLength_cons, Nat.add_assoc, Nat.add_assoc]

/-! ## The lengths -/

theorem decodeLengths_encode_mod {k v ck cv : Nat} {encoded : UInt32}
    (h : encodeLengths k v ck cv = some encoded) :
    decodeLengths encoded = ⟨k % 2 ^ 32, v % 2 ^ 32, fixContentLen (ck % 2 ^ 32) (k % 2 ^ 32),
        fixContentLen (cv % 2 ^ 32) (v % 2 ^ 32)⟩ ∧
      0 < k % 2 ^ 32 ∧ k % 2 ^ 32 ≤ 255 ∧ 0 < v % 2 ^ 32 ∧ v % 2 ^ 32 ≤ 255 := by
  unfold encodeLengths at h
  dsimp only at h
  split at h
  · cases h
  · next hlens =>
    simp only [not_or, Nat.not_lt] at hlens
    cases h
    generalize k % 2 ^ 32 = k, v % 2 ^ 32 = v at *
    generalize fixContentLen (ck % 2 ^ 32) k = ck, fixContentLen (cv % 2 ^ 32) v = cv at *
    have hlt : k + v * 256 + ck * 65536 + cv * 16777216 < 2 ^ 32 := by omega
    refine ⟨?_, by omega⟩
    rw [decodeLengths, UInt32.toNat_ofNat', Nat.mod_eq_of_lt hlt, LengthData.mk.injEq]
    omega

theorem decodeLengths_encode {k v ck cv : Nat} {encoded : UInt32} (hk : k < 2 ^ 32)
    (hv : v < 2 ^ 32) (hck : ck < 2 ^ 32) (hcv : cv < 2 ^ 32)
    (h : encodeLengths k v ck cv = some encoded) :
    decodeLengths encoded = ⟨k, v, fixContentLen ck k, fixContentLen cv v⟩ ∧
      0 < k ∧ k ≤ 255 ∧ 0 < v ∧ v ≤ 255 := by
  have hdecode := decodeLengths_encode_mod h
  rwa [Nat.mod_eq_of_lt hk, Nat.mod_eq_of_lt hv, Nat.mod_eq_of_lt hck, Nat.mod_eq_of_lt hcv]
    at hdecode

/-- The content lengths are those of a front. -/
def LengthData.Fits (data : LengthData) : Prop :=
  data.contentKeyLen ≤ data.keyLen ∧ data.contentValueLen ≤ data.valueLen

theorem fixContentLen_le (len fullLen : Nat) : fixContentLen len fullLen ≤ fullLen := by
  unfold fixContentLen
  split <;> omega

theorem fits_of_encode {k v ck cv : Nat} {encoded : UInt32}
    (h : encodeLengths k v ck cv = some encoded) : (decodeLengths encoded).Fits := by
  rw [(decodeLengths_encode_mod h).1]
  exact ⟨fixContentLen_le _ _, fixContentLen_le _ _⟩

theorem fits_of_valid {key value : Bytes} : ∀ {lengths : List UInt32}
    {keyOffset valueOffset : Nat},
    isValidBoundaryFrom key value keyOffset valueOffset lengths = true →
    ∀ e ∈ lengths, (decodeLengths e).Fits
  | encoded :: rest, keyOffset, valueOffset, h, e, he => by
    unfold isValidBoundaryFrom at h
    dsimp only at h
    split at h
    · cases h
    · next hlens =>
      split at h
      · rcases List.mem_cons.mp he with rfl | he
        · exact ⟨by omega, by omega⟩
        · exact fits_of_valid h e he
      · cases h

theorem iterate_contents : ∀ {lengths : List UInt32} {key value : Bytes},
    (∀ e ∈ lengths, (decodeLengths e).Fits) →
    ∀ s ∈ iterate key value lengths, s.contentKey <+: s.key ∧ s.contentValue <+: s.value
  | [], key, value, _, s, hs => by
    unfold iterate at hs
    split at hs
    · cases hs
    · rw [List.mem_singleton.mp hs]
      exact ⟨List.prefix_rfl, List.prefix_rfl⟩
  | encoded :: rest, key, value, h, s, hs => by
    unfold iterate at hs
    split at hs
    · cases hs
    · rcases List.mem_cons.mp hs with rfl | hs
      · obtain ⟨hkey, hvalue⟩ := h encoded List.mem_cons_self
        exact ⟨List.take_prefix_take_left hkey, List.take_prefix_take_left hvalue⟩
      · exact iterate_contents (List.forall_mem_cons.mp h).2 s hs

namespace InnerSegments

variable {s : InnerSegments} {n : Nat}

/-- **The first parts and the other parts are everything.** -/
theorem prefix_append_suffix (h : CutsFrom s.start.key s.start.value 0 0 s.segments)
    (hsize : s.size = s.segments.length) (hkey : s.start.key.length < 2 ^ 31)
    (hvalue : s.start.value.length < 2 ^ 31) (hn : n ≤ s.size) :
    (s.getPrefixKeyAndValue n).1 ++ (s.getSuffixKeyAndValue (toInt32 (s.size - n))).1
        = s.start.key ∧
      (s.getPrefixKeyAndValue n).2 ++ (s.getSuffixKeyAndValue (toInt32 (s.size - n))).2
        = s.start.value := by
  obtain ⟨hkeys, hvalues⟩ := h.key_flatten
  have hsmall : s.size < 2 ^ 31 := by
    have hle : s.segments.length ≤ keysLength s.segments := h.length_le
    omega
  have hfront := prefixLoop_cuts h hkey hvalue (hsize ▸ hn)
  rw [Nat.zero_add, Nat.zero_add] at hfront
  have hcast : ((s.size : Int) - n) = (s.size - n : Nat) := by omega
  rw [getPrefixKeyAndValue, if_neg (by omega), show (0 : Int) = (0 : Nat) from rfl, hfront, hcast,
    toInt32_natCast (by omega), getSuffixKeyAndValue]
  by_cases hall : n = s.size
  · rw [if_pos (by omega), hall, hsize, List.take_length]
    dsimp only
    constructor
    · rw [List.drop_length, List.append_nil, List.take_of_length_le (by omega)]
    · rw [List.drop_length, List.append_nil, List.take_of_length_le (by omega)]
  · rw [if_neg (by omega)]
    cases n with
    | zero =>
      have hindex : toInt32 ((s.size : Int) - (s.size - 0 : Nat) - 1) = -1 := by
        rw [Nat.sub_zero, Int.sub_self]
        rfl
      dsimp only
      rw [hindex, if_pos (Or.inr (by decide))]
      simp
    | succ n =>
      have hindex : toInt32 ((s.size : Int) - (s.size - (n + 1) : Nat) - 1) = n := by
        rw [show (s.size : Int) - (s.size - (n + 1) : Nat) - 1 = n by omega]
        exact toInt32_natCast (by omega)
      have hback := suffixLoop_cuts h (n := n) (by omega)
      rw [List.drop_zero, List.drop_zero, Nat.zero_add, Nat.zero_add] at hback
      dsimp only
      rw [hindex, if_neg (by omega), hback]
      exact ⟨List.take_append_drop _ _, List.take_append_drop _ _⟩

theorem boundary_length (s : Bytes) : isValidUtf8Boundary s s.length = true := by
  simp [isValidUtf8Boundary]

theorem boundary_or_all (s : Bytes) (i : Nat) :
    (if isValidUtf8Boundary s i then i else s.length) ≤ s.length ∧
      isValidUtf8Boundary s (if isValidUtf8Boundary s i then i else s.length) = true := by
  split
  · next h =>
    refine ⟨?_, h⟩
    rw [isValidUtf8Boundary, Bool.and_eq_true, decide_eq_true_eq] at h
    exact h.1
  · exact ⟨Nat.le_refl _, boundary_length s⟩

theorem fixContentLen_spec {s : Bytes} {len : Nat}
    (h : len ≤ s.length ∧ isValidUtf8Boundary s len = true) (hpos : 0 < s.length) :
    0 < fixContentLen len s.length ∧ fixContentLen len s.length ≤ s.length ∧
      isValidUtf8Boundary s (fixContentLen len s.length) = true := by
  unfold fixContentLen
  split
  · exact ⟨hpos, Nat.le_refl _, boundary_length s⟩
  · next hlen => exact ⟨by omega, h⟩

/-- What the constructors make of a key and a value. -/
def IsOf (s : InnerSegments) (key value contentKey contentValue : Bytes)
    (boundary : List UInt32) : Prop :=
  s = ofKeyValue key value boundary ∨ s = ofContent key value contentKey contentValue boundary

/-- The lengths of the parts are accepted ones, or there are none. -/
theorem IsOf.start_cases {key value contentKey contentValue : Bytes} {boundary : List UInt32}
    (hs : s.IsOf key value contentKey contentValue boundary)
    (hkey : key.length < 2 ^ 32) (hvalue : value.length < 2 ^ 32) :
    s.start.encodedLengths = [] ∨
      isValidInnerSegmentBoundary key value s.start.encodedLengths = true := by
  rcases hs with rfl | rfl
  · unfold ofKeyValue
    dsimp only
    split
    · next hvalid => exact Or.inr hvalid
    · exact Or.inl rfl
  · unfold ofContent fixInnerSegmentBoundary
    dsimp only
    split
    · next hvalid => exact Or.inr hvalid
    · cases hencode : encodeLengths key.length value.length
        (if isValidUtf8Boundary key contentKey.length then contentKey.length else key.length)
        (if isValidUtf8Boundary value contentValue.length then contentValue.length
          else value.length) with
      | none => exact Or.inl rfl
      | some encoded =>
        have hcontentKey := boundary_or_all key contentKey.length
        have hcontentValue := boundary_or_all value contentValue.length
        obtain ⟨hdecode, hpos⟩ := decodeLengths_encode hkey hvalue
          (Nat.lt_of_le_of_lt hcontentKey.1 hkey) (Nat.lt_of_le_of_lt hcontentValue.1 hvalue)
          hencode
        right
        rw [Option.toList_some, isValidInnerSegmentBoundary, List.isEmpty_cons, Bool.not_false,
          Bool.true_and, isValidBoundaryFrom]
        rw [hdecode]
        dsimp only
        have hfixedKey := fixContentLen_spec hcontentKey hpos.1
        have hfixedValue := fixContentLen_spec hcontentValue hpos.2.2.1
        rw [if_neg (by omega), Nat.zero_add, Nat.zero_add, Nat.zero_add, Nat.zero_add,
          hfixedKey.2.2, hfixedValue.2.2, boundary_length, boundary_length]
        simp [isValidBoundaryFrom]

end InnerSegments

end

/-! ## Building a boundary -/

/-- The arguments of a call of `Add`. -/
structure AddCall where
  keyLen : UInt32
  valueLen : UInt32
  contentKeyLen : UInt32
  contentValueLen : UInt32

namespace AddCall

/-- The lengths that are added, with content lengths that do not fit replaced. -/
def lengths (a : AddCall) : LengthData where
  keyLen := a.keyLen.toNat
  valueLen := a.valueLen.toNat
  contentKeyLen := fixContentLen a.contentKeyLen.toNat a.keyLen.toNat
  contentValueLen := fixContentLen a.contentValueLen.toNat a.valueLen.toNat

def addTo (b : InnerSegmentBoundaryBuilder) (a : AddCall) : InnerSegmentBoundaryBuilder :=
  b.add a.keyLen.toNat a.valueLen.toNat a.contentKeyLen.toNat a.contentValueLen.toNat

end AddCall

def buildInnerSegmentBoundary (boundary : List AddCall) (key value : Bytes) : List UInt32 :=
  (boundary.foldl AddCall.addTo {}).build key value

/-- What a builder has after the calls. -/
structure Built (adds : List AddCall) (b : InnerSegmentBoundaryBuilder) : Prop where
  decoded : b.boundary.map decodeLengths = adds.map AddCall.lengths
  key : b.keyConsumed = (adds.map fun a => a.keyLen.toNat).sum % 2 ^ 32
  value : b.valueConsumed = (adds.map fun a => a.valueLen.toNat).sum % 2 ^ 32
  short : ∀ a ∈ adds, a.keyLen.toNat ≤ 255 ∧ a.valueLen.toNat ≤ 255

theorem Built.add {adds : List AddCall} {b : InnerSegmentBoundaryBuilder} (h : Built adds b)
    (a : AddCall) : (AddCall.addTo b a).error = true ∨ Built (adds ++ [a]) (AddCall.addTo b a) := by
  unfold AddCall.addTo InnerSegmentBoundaryBuilder.add
  split
  · next herror => exact Or.inl herror
  · split
    · next encoded hencode =>
      obtain ⟨hdecode, -, hkey, -, hvalue⟩ := decodeLengths_encode a.keyLen.toNat_lt
        a.valueLen.toNat_lt a.contentKeyLen.toNat_lt a.contentValueLen.toNat_lt hencode
      right
      refine ⟨?_, ?_, ?_, ?_⟩
      · rw [List.map_append, List.map_append, h.decoded, List.map_singleton, hdecode]
        rfl
      · simp [h.key]
      · simpa [h.value] using Nat.mod_add_mod ..
      · intro c hc
        rcases List.mem_append.mp hc with hc | hc
        · exact h.short c hc
        · rw [List.mem_singleton.mp hc]
          exact ⟨hkey, hvalue⟩
    · exact Or.inl rfl

theorem built_of_adds (adds : List AddCall) :
    (adds.foldl AddCall.addTo {}).error = true ∨ Built adds (adds.foldl AddCall.addTo {}) := by
  induction adds using List.reverseRecOn with
  | nil => exact Or.inr ⟨rfl, rfl, rfl, by simp⟩
  | append_singleton adds a ih =>
    rw [List.foldl_append, List.foldl_cons, List.foldl_nil]
    rcases ih with herror | h
    · left
      rw [AddCall.addTo, InnerSegmentBoundaryBuilder.add, if_pos herror]
      exact herror
    · exact h.add a

/-- **What is built are the lengths that were added, or nothing.** -/
theorem build_adds (adds : List AddCall) (key value : Bytes) :
    buildInnerSegmentBoundary adds key value = [] ∨
      (buildInnerSegmentBoundary adds key value).map decodeLengths = adds.map AddCall.lengths ∧
        (adds.map fun a => a.keyLen.toNat).sum % 2 ^ 32 = key.length ∧
        (adds.map fun a => a.valueLen.toNat).sum % 2 ^ 32 = value.length ∧
        ∀ a ∈ adds, a.keyLen.toNat ≤ 255 ∧ a.valueLen.toNat ≤ 255 := by
  unfold buildInnerSegmentBoundary InnerSegmentBoundaryBuilder.build
  split
  · exact Or.inl rfl
  · next hok =>
    simp only [not_or, not_not] at hok
    rcases built_of_adds adds with herror | h
    · exact absurd herror hok.1
    · exact Or.inr ⟨h.decoded, h.key ▸ hok.2.1, h.value ▸ hok.2.2, h.short⟩

theorem sum_le_of_short {f : AddCall → Nat} {adds : List AddCall} (h : ∀ a ∈ adds, f a ≤ 255) :
    (adds.map f).sum ≤ adds.length * 255 := by
  induction adds with
  | nil => exact Nat.le_refl 0
  | cons a adds ih =>
    have ha := h a List.mem_cons_self
    have hrest := ih (List.forall_mem_cons.mp h).2
    rw [List.map_cons, List.sum_cons, List.length_cons]
    omega

/-! ## All of it -/

/-- The parts are the key and the value, and each content part is the front of its part. -/
structure Partition (key value : Bytes) (parts : List InnerSegment) : Prop where
  keys : (parts.map InnerSegment.key).flatten = key
  values : (parts.map InnerSegment.value).flatten = value
  contents : ∀ s ∈ parts, s.contentKey <+: s.key ∧ s.contentValue <+: s.value

/-- Every part ends where a character starts, and its content too. -/
def CutsCharacters (key value : Bytes) (parts : List InnerSegment) : Prop :=
  ∀ before s after, parts = before ++ s :: after →
    IsCharacterStart key (keysLength before + s.key.length) ∧
      IsCharacterStart key (keysLength before + s.contentKey.length) ∧
      IsCharacterStart value (valuesLength before + s.value.length) ∧
      IsCharacterStart value (valuesLength before + s.contentValue.length)

theorem CutsFrom.cutsCharacters {key value : Bytes} {parts : List InnerSegment}
    (h : CutsFrom key value 0 0 parts) : CutsCharacters key value parts := by
  rintro before s after rfl
  have hs := h.starts
  rw [Nat.zero_add, Nat.zero_add] at hs
  exact ⟨hs.key_start, hs.contentKey_start, hs.value_start, hs.contentValue_start⟩

namespace InnerSegments

variable {s : InnerSegments} {key value contentKey contentValue : Bytes} {boundary : List UInt32}

theorem IsOf.start (hs : s.IsOf key value contentKey contentValue boundary) :
    s.start.key = key ∧ s.start.value = value := by
  rcases hs with rfl | rfl <;> exact ⟨rfl, rfl⟩

theorem IsOf.fits (hs : s.IsOf key value contentKey contentValue boundary) :
    ∀ e ∈ s.start.encodedLengths, (decodeLengths e).Fits := by
  intro e he
  have hvalid : isValidInnerSegmentBoundary key value boundary = true → e ∈ boundary →
      (decodeLengths e).Fits := by
    intro h hmem
    rw [isValidInnerSegmentBoundary, Bool.and_eq_true] at h
    exact fits_of_valid h.2 e hmem
  rcases hs with rfl | rfl
  · unfold ofKeyValue at he
    dsimp only at he
    split at he
    · next h => exact hvalid h he
    · cases he
  · unfold ofContent fixInnerSegmentBoundary at he
    dsimp only at he
    split at he
    · next h => exact hvalid h he
    · exact fits_of_encode (Option.mem_toList.mp he)

theorem IsOf.partition (hs : s.IsOf key value contentKey contentValue boundary) :
    Partition key value s.segments := by
  obtain ⟨hkey, hvalue⟩ := hs.start
  refine ⟨?_, ?_, iterate_contents hs.fits⟩
  · rw [segments, iterate_key, hkey]
  · rw [segments, iterate_value, hvalue]

/-- An accepted boundary is taken as it is. -/
theorem IsOf.accepted (hs : s.IsOf key value contentKey contentValue boundary)
    (h : isValidInnerSegmentBoundary key value boundary = true) :
    s.start = ⟨key, value, boundary⟩ := by
  rcases hs with rfl | rfl
  · rw [ofKeyValue, if_pos h]
  · rw [ofContent, fixInnerSegmentBoundary, if_pos h]

theorem cuts_of_valid {lengths : List UInt32}
    (h : isValidInnerSegmentBoundary key value lengths = true) :
    CutsFrom key value 0 0 (iterate key value lengths) ∧
      (iterate key value lengths).length = lengths.length := by
  rw [isValidInnerSegmentBoundary, Bool.and_eq_true] at h
  have hcuts := iterate_cuts h.2
  rwa [List.drop_zero, List.drop_zero] at hcuts

/-- The one part of a key and a value without lengths. -/
theorem cuts_whole (hkey : key ≠ []) (hvalue : value ≠ []) :
    CutsFrom key value 0 0 [⟨key, value, key, value⟩] := by
  have hend : ∀ s : Bytes, IsCharacterStart s (0 + s.length) := fun s =>
    isCharacterStart_of_boundary (by rw [Nat.zero_add]; exact boundary_length s)
  refine .part ⟨hkey, hvalue, List.prefix_rfl, List.prefix_rfl, List.prefix_rfl, List.prefix_rfl,
    hend _, hend _, hend _, hend _⟩ ?_
  dsimp only
  rw [Nat.zero_add, Nat.zero_add]
  exact .done

theorem IsOf.cuts (hs : s.IsOf key value contentKey contentValue boundary)
    (hempty : key = [] ↔ value = []) (hkey : key.length < 2 ^ 32) (hvalue : value.length < 2 ^ 32) :
    CutsFrom s.start.key s.start.value 0 0 s.segments ∧ s.size = s.segments.length := by
  obtain ⟨hstartKey, hstartValue⟩ := hs.start
  have hcases := hs.start_cases hkey hvalue
  unfold segments size
  rw [hstartKey, hstartValue]
  by_cases hnil : key = []
  · obtain rfl := hempty.mp hnil
    subst hnil
    have hsegments : iterate [] [] s.start.encodedLengths = [] := by
      cases s.start.encodedLengths <;> rfl
    rw [hsegments]
    exact ⟨.done, rfl⟩
  · have hvalueNil : value ≠ [] := fun h => hnil (hempty.mpr h)
    have hne : (key.isEmpty && value.isEmpty) = false := by simp [hnil]
    rw [hne, if_neg Bool.false_ne_true]
    rcases hcases with hnone | hvalid
    · rw [hnone, iterate, hne, if_neg Bool.false_ne_true]
      exact ⟨cuts_whole hnil hvalueNil, rfl⟩
    · obtain ⟨hcuts, hlength⟩ := cuts_of_valid hvalid
      refine ⟨hcuts, ?_⟩
      rw [hlength]
      cases hlengths : s.start.encodedLengths with
      | nil =>
        rw [hlengths] at hvalid
        cases hvalid
      | cons e rest =>
        rw [List.length_cons]
        omega

end InnerSegments

open InnerSegments in
/-- **The inner segments are the key and the value, cut up.** A list that is accepted cuts them
between characters, the first segments and the others are everything, and what a builder gives are
the lengths that were added. -/
theorem innerSegments_partition {s : InnerSegments} {key value contentKey contentValue : Bytes}
    {boundary : List UInt32} (adds : List AddCall)
    (hs : s.IsOf key value contentKey contentValue boundary) :
    (∃ steps, ∀ fuel, steps ≤ fuel → s.start.forEach fuel = some s.segments) ∧
      Partition key value s.segments ∧
      (isValidInnerSegmentBoundary key value boundary = true →
        CutsCharacters key value s.segments) ∧
      ((key = [] ↔ value = []) → key.length < 2 ^ 31 → value.length < 2 ^ 31 →
        ∀ n ≤ s.size,
          (s.getPrefixKeyAndValue n).1 ++ (s.getSuffixKeyAndValue (toInt32 (s.size - n))).1 = key ∧
          (s.getPrefixKeyAndValue n).2 ++ (s.getSuffixKeyAndValue (toInt32 (s.size - n))).2
            = value) ∧
      (buildInnerSegmentBoundary adds key value = [] ∨
        (buildInnerSegmentBoundary adds key value).map decodeLengths = adds.map AddCall.lengths ∧
          (adds.map fun a => a.keyLen.toNat).sum % 2 ^ 32 = key.length ∧
          (adds.map fun a => a.valueLen.toNat).sum % 2 ^ 32 = value.length ∧
          (adds.length < 16843010 → (adds.map fun a => a.keyLen.toNat).sum = key.length ∧
            (adds.map fun a => a.valueLen.toNat).sum = value.length)) := by
  obtain ⟨hstartKey, hstartValue⟩ := hs.start
  refine ⟨⟨s.start.encodedLengths.length + 2, fun fuel hfuel =>
    IteratorData.forEach_eq _ _ _ _ hfuel⟩, hs.partition, ?_, ?_, ?_⟩
  · intro hvalid
    rw [segments, hs.accepted hvalid]
    exact (cuts_of_valid hvalid).1.cutsCharacters
  · intro hempty hkey hvalue n hn
    obtain ⟨hcuts, hsize⟩ := hs.cuts hempty (by omega) (by omega)
    have hwhole := prefix_append_suffix hcuts hsize (by rwa [hstartKey]) (by rwa [hstartValue]) hn
    rwa [hstartKey, hstartValue] at hwhole
  · rcases build_adds adds key value with hnone | ⟨hdecoded, hkey, hvalue, hshort⟩
    · exact Or.inl hnone
    · refine Or.inr ⟨hdecoded, hkey, hvalue, fun hfew => ?_⟩
      have hkeys := sum_le_of_short (f := fun a => a.keyLen.toNat) fun a ha => (hshort a ha).1
      have hvalues := sum_le_of_short (f := fun a => a.valueLen.toNat) fun a ha => (hshort a ha).2
      rw [Nat.mod_eq_of_lt (by omega)] at hkey hvalue
      exact ⟨hkey, hvalue⟩

/-- "testfoobar" for "redgreenblue", in two parts. -/
def redgreenblue : InnerSegments :=
  .ofKeyValue (utf8 "testfoobar") (utf8 "redgreenblue")
    (buildInnerSegmentBoundary [⟨4, 3, 4, 3⟩, ⟨6, 9, 3, 5⟩] (utf8 "testfoobar")
      (utf8 "redgreenblue"))

theorem innerSegments_partition_redgreenblue :
    Partition (utf8 "testfoobar") (utf8 "redgreenblue") redgreenblue.segments ∧
      CutsCharacters (utf8 "testfoobar") (utf8 "redgreenblue") redgreenblue.segments ∧
      (redgreenblue.getPrefixKeyAndValue 1).1 ++
        (redgreenblue.getSuffixKeyAndValue (toInt32 (redgreenblue.size - 1))).1
          = utf8 "testfoobar" := by
  have h := @innerSegments_partition redgreenblue (utf8 "testfoobar") (utf8 "redgreenblue") [] []
    (buildInnerSegmentBoundary [⟨4, 3, 4, 3⟩, ⟨6, 9, 3, 5⟩] (utf8 "testfoobar")
      (utf8 "redgreenblue")) [] (Or.inl rfl)
  exact ⟨h.2.1, h.2.2.1 (by decide +kernel),
    (h.2.2.2.1 (by decide +kernel) (by decide +kernel) (by decide +kernel) 1
      (by decide +kernel)).1⟩

/-! ## Where it fails -/

theorem foldl_addTo_replicate {a : AddCall} {encoded : UInt32}
    (h : encodeLengths a.keyLen.toNat a.valueLen.toNat a.contentKeyLen.toNat
      a.contentValueLen.toNat = some encoded) (n : Nat) :
    (List.replicate n a).foldl AddCall.addTo {} =
      { boundary := List.replicate n encoded
        keyConsumed := n * a.keyLen.toNat % 2 ^ 32
        valueConsumed := n * a.valueLen.toNat % 2 ^ 32 } := by
  induction n with
  | zero => simp
  | succ n ih =>
    rw [List.replicate_succ', List.foldl_append, ih, List.foldl_cons, List.foldl_nil,
      AddCall.addTo, InnerSegmentBoundaryBuilder.add, if_neg Bool.false_ne_true, h]
    dsimp only
    rw [Nat.mod_add_mod, Nat.mod_add_mod, ← Nat.succ_mul, ← Nat.succ_mul, List.replicate_succ']

/-- A key of which the lengths keep only 5 bytes. -/
theorem prefix_of_long {key : Bytes} {rest : Bytes} (hkey : key = 0x61 :: rest)
    (hlen : key.length = 2 ^ 32 + 5) :
    (InnerSegments.ofContent key key [] [] []).size = 1 ∧
      (InnerSegments.ofContent key key [] [] []).getPrefixKeyAndValue 1
        = (key.take 5, key.take 5) ∧
      (InnerSegments.ofContent key key [] [] []).getSuffixKeyAndValue 0 = ([], []) := by
  have hlengths : InnerSegments.fixInnerSegmentBoundary key key [] [] [] = [84215045] := by
    have hzero : isValidUtf8Boundary key 0 = true := by
      rw [isValidUtf8Boundary, hkey]
      simp
      decide
    rw [InnerSegments.fixInnerSegmentBoundary, isValidInnerSegmentBoundary, List.isEmpty_nil,
      Bool.not_true, Bool.false_and, if_neg Bool.false_ne_true, List.length_nil, if_pos hzero, hlen]
    decide
  have hne : key.isEmpty = false := by rw [hkey]; rfl
  have hparts : iterate key key [84215045] =
      [⟨key.take 5, key.take 5, key.take 5, key.take 5⟩,
        ⟨key.drop 5, key.drop 5, key.drop 5, key.drop 5⟩] := by
    have hrest : (key.drop 5).isEmpty = false := by
      simp [ne_eq]
      omega
    rw [iterate, hne, Bool.false_and, if_neg Bool.false_ne_true]
    dsimp only
    rw [show decodeLengths 84215045 = ⟨5, 5, 5, 5⟩ from rfl, iterate]
    dsimp only
    simp [hrest]
  have htake : (key.take 5).length = 5 := by
    simp
    omega
  refine ⟨?_, ?_, ?_⟩
  · simp [InnerSegments.size, InnerSegments.ofContent, hlengths, hne]
  · rw [InnerSegments.getPrefixKeyAndValue, if_neg (by decide), InnerSegments.segments,
      InnerSegments.ofContent, hlengths]
    dsimp only
    have hfive : toInt32 ((toSize 0 : Nat) + (5 : Nat)) = 5 := by decide
    have hshort : ¬((1 : Int) = 0 ∨ key.length ≤ toSize 0 ∨ key.length ≤ toSize 0) := by
      rw [show toSize 0 = 0 from rfl]
      omega
    rw [hparts, InnerSegments.prefixLoop, if_neg hshort]
    dsimp only
    rw [htake, hfive, InnerSegments.prefixLoop, if_pos (Or.inl (Int.sub_self 1))]
    rfl
  · rw [InnerSegments.getSuffixKeyAndValue, if_pos rfl]
    exact Prod.ext List.drop_length List.drop_length

/-- A value without a key is not in front of its end, content lengths are replaced, lengths are
counted modulo `2 ^ 32`, and a long key is cut at its length modulo `2 ^ 32`. -/
theorem innerSegments_not_partition :
    ((InnerSegments.ofKeyValue [] (utf8 "value") []).size = 1 ∧
      (InnerSegments.ofKeyValue [] (utf8 "value") []).getPrefixKeyAndValue 1 = ([], []) ∧
      (InnerSegments.ofKeyValue [] (utf8 "value") []).getSuffixKeyAndValue 0 = ([], [])) ∧
    (buildInnerSegmentBoundary [⟨3, 3, 0, 9⟩] (utf8 "abc") (utf8 "ABC")).map
        (fun e => (decodeLengths e).contentKeyLen) = [3] ∧
    (∃ (adds : List AddCall) (key : Bytes), buildInnerSegmentBoundary adds key key ≠ [] ∧
      (adds.map fun a => a.keyLen.toNat).sum ≠ key.length) ∧
    ∃ key : Bytes, (InnerSegments.ofContent key key [] [] []).size = 1 ∧
      ((InnerSegments.ofContent key key [] [] []).getPrefixKeyAndValue 1).1 ++
        ((InnerSegments.ofContent key key [] [] []).getSuffixKeyAndValue 0).1 ≠ key := by
  refine ⟨⟨rfl, rfl, rfl⟩, by decide +kernel,
    ⟨List.replicate 16843010 ⟨255, 255, 255, 255⟩, List.replicate 254 0x61, ?_⟩, ?_⟩
  · have hbuilt := @foldl_addTo_replicate ⟨255, 255, 255, 255⟩ 4294967295 rfl 16843010
    constructor
    · rw [buildInnerSegmentBoundary, hbuilt, InnerSegmentBoundaryBuilder.build, if_neg]
      · exact List.ne_nil_of_length_pos (by rw [List.length_replicate]; omega)
      · simp only [List.length_replicate]
        decide
    · rw [List.map_replicate, List.sum_replicate_nat, List.length_replicate]
      decide
  · obtain ⟨hsize, hfront, hback⟩ := @prefix_of_long
      (0x61 :: List.replicate (2 ^ 32 + 4) 0x61) _ rfl
      (by rw [List.length_cons, List.length_replicate])
    refine ⟨_, hsize, ?_⟩
    rw [hfront, hback]
    intro h
    have hlen := congrArg List.length h
    rw [List.append_nil, List.length_take, List.length_cons, List.length_replicate] at hlen
    omega

end Mozkey.Converter
