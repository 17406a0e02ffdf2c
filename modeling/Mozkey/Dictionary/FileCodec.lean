import Mozkey.Dictionary.UserDictionaryStorage
import Mozkey.Infra.Loop

/-!
# The file of a dictionary

`dictionary/file/codec.cc`. A file is a header and sections, each with its size, the fingerprint
of its name and its data, up to a size of zero.

Pointers into the image are offsets from its first byte. What C++ leaves undefined (an `int` that
overflows, a read outside of the image) is an outcome of its own, or `none` where nothing else can
happen.
-/

namespace Mozkey.Dictionary

open Infra

/-- `DictionaryFileSection` as it is written. Its views are as long as a view can be. -/
structure DictionaryFileSection where
  name : Bytes
  image : Bytes
  name_length : name.length = 8
  image_lt : image.length < 2 ^ 63

/-- `DictionaryFileSection` as it is read, a view of the memory from `start` on. -/
structure SectionView where
  name : Bytes
  start : Int
  size : Nat
  deriving DecidableEq

/-- What is in view, if it lies inside the image. -/
def SectionView.contents (image : Bytes) (view : SectionView) : Bytes × Option Bytes :=
  (view.name, bytesAt image view.start view.size)

/-- The `seed_` of the codec -/
structure DictionaryFileCodec where
  seed : Int := 2135654146
  deriving DecidableEq

def filemagic : Int := 20110701

/-! ## Writing -/

/-- An `int` that overflows has no value. -/
def checkedInt (n : Int) : Option Int := if -2 ^ 31 ≤ n ∧ n ≤ int32Max then some n else none

/-- `length + ((4 - length % 4) % 4)` -/
def roundedUp (length : Int) : Int := length + (4 - length.tmod 4).tmod 4

def roundUp4 (length : Int) : Option Int := checkedInt (roundedUp length)

/-- The loop of `Pad4` at `i`. It is left after three rounds, unless `++i` overflows. -/
def padFrom : Nat → Int → Option Bytes
  | 0, _ => none
  | rounds + 1, i =>
    if i.tmod 4 = 0 then some []
    else do
      let i ← checkedInt (i + 1)
      let padding ← padFrom rounds i
      some (0 :: padding)

def pad4 (length : Int) : Option Bytes := padFrom 4 length

def writeHeader (codec : DictionaryFileCodec) : Bytes :=
  int32Bytes filemagic ++ int32Bytes codec.seed

def writeSection (s : DictionaryFileSection) : Option Bytes := do
  let padding ← pad4 (toInt32 s.image.length)
  some (int32Bytes s.image.length ++ (s.name ++ (s.image ++ padding)))

def writeEach : List DictionaryFileSection → Option Bytes
  | [] => some []
  | s :: rest => do
    let written ← writeSection s
    let writtenRest ← writeEach rest
    some (written ++ writtenRest)

/-- Four sections are written in the order of engine version 24. -/
def writtenOrder : List DictionaryFileSection → List DictionaryFileSection
  | [a, b, c, d] => [a, c, b, d]
  | sections => sections

def writeSections (codec : DictionaryFileCodec) (sections : List DictionaryFileSection) :
    Option Bytes := do
  let written ← writeEach (writtenOrder sections)
  some (writeHeader codec ++ (written ++ int32Bytes 0))

/-! ## Reading -/

/-- `absl::StrCat` of a signed number -/
def signedDecimal (n : Int) :
    Bytes := if n < 0 then utf8 "-" ++ decimal n.natAbs else decimal n.toNat

inductive ReadOutcome where
  | returned (status : Status) (sections : List SectionView)
  | undefined
  deriving DecidableEq

/-- The local variables of the loop. -/
structure SectionReader where
  sectionIndex : Nat
  ptr : Int
  sections : List SectionView

/-- Behind the loop, `ptr` is behind the end marker. -/
def leave (image : Bytes) (ptr : Int) (sections : List SectionView) : ReadOutcome :=
  if ptr ≠ image.length then
    .returned
      { code := .failedPrecondition
        message := utf8 "codec.cc: " ++ signedDecimal (image.length - ptr) ++
          utf8 " bytes remaining out of " ++ decimal image.length } sections
  else .returned {} sections

/-- One round of the loop of `ReadSections`. -/
def readSection (image : Bytes) (s : SectionReader) : SectionReader ⊕ ReadOutcome :=
  if image.length - s.ptr < 4 then
    .inr (.returned
      { code := .outOfRange
        message := utf8 "codec.cc: Section " ++ decimal s.sectionIndex ++
          utf8 ": Insufficient image to read data_size(4 bytes), available size = " ++
          signedDecimal (image.length - s.ptr) } s.sections)
  else
    match loadInt32 image s.ptr with
    | none => .inr .undefined
    | some dataSize =>
      if dataSize = 0 then .inr (leave image (s.ptr + 4) s.sections)
      else
        match roundUp4 dataSize with
        | none => .inr .undefined
        | some paddedDataSize =>
          let sectionEnd := s.ptr + 4 + 8 + paddedDataSize
          if image.length < sectionEnd then
            .inr (.returned
              { code := .outOfRange
                message := utf8 "codec.cc: Section " ++ decimal s.sectionIndex ++
                  utf8 ": Read pointer will pass the end: offset=" ++ signedDecimal sectionEnd ++
                  utf8 ", image_size=" ++ decimal image.length } s.sections)
          else
            match bytesAt image (s.ptr + 4) 8 with
            | none => .inr .undefined
            | some fingerprint =>
              .inl
                { sectionIndex := s.sectionIndex + 1
                  ptr := s.ptr + 4 + 8 + paddedDataSize
                  sections := s.sections ++
                    [⟨fingerprint, s.ptr + 4 + 8, toSizeT dataSize⟩] }

/-- What is checked in front of the loop, up to the seed. -/
def readHeader (address : Nat) (image : Bytes) : Int ⊕ ReadOutcome :=
  if image.length < 12 then
    .inr (.returned
      { code := .failedPrecondition
        message := utf8 "codec.cc: Insufficient data size: " ++ decimal image.length ++
          utf8 " bytes" } [])
  else if address % 4 ≠ 0 then
    .inr (.returned
      { code := .failedPrecondition
        message := utf8 "codec.cc: memory block of size " ++ decimal image.length ++
          utf8 " is not aligned at 32-bit boundary" } [])
  else
    match loadInt32 image 0, loadInt32 image 4 with
    | some magic, some seed =>
      if magic ≠ filemagic then
        .inr (.returned
          { code := .failedPrecondition
            message := utf8 "codec.cc: Invalid dictionary file magic. Expected: " ++
              signedDecimal filemagic ++ utf8 " Actual: " ++ signedDecimal magic } [])
      else .inl seed
    | _, _ => .inr .undefined

/-- The loop begins behind the header. -/
def firstSection : SectionReader := ⟨0, 8, []⟩

/-- What `ReadSections` returns, and the codec with the seed of the file. -/
def readSections (fuel : Nat) (codec : DictionaryFileCodec) (address : Nat) (image : Bytes) :
    Option (ReadOutcome × DictionaryFileCodec) :=
  match readHeader address image with
  | .inr outcome => some (outcome, codec)
  | .inl seed => (run (readSection image) fuel firstSection).map fun outcome => (outcome, ⟨seed⟩)

end Mozkey.Dictionary
