import Mozkey.Base.Utf8
import Mozkey.Infra.Find
import Mozkey.Infra.Runs

/-!
# Protected spans

The first half of `session/zenz_adoption_policy.cc`: what a protected span is, when its surface
stands on its own in a value, and the repairs that bring a surface back.

`std::string::npos` as an offset is `none`. A function that reports success and changes its
argument gives the changed value.
-/

namespace Mozkey.Zenz

open Infra Base

inductive Tier where
  /-- The exact spelling is part of the user's intent. -/
  | identityCritical
  | numericLiteral
  | userPreferred
  /-- A unique proper noun, which may stand next to Japanese text. -/
  | systemProperNoun
deriving DecidableEq

structure ProtectedConversionSpan where
  key : Bytes
  value : Bytes
  tier : Tier := .userPreferred
  repairable : Bool := false
  /-- The adopted value must keep at least this many occurrences. -/
  requiredOccurrences : Nat := 1
  numericPreeditOnly : Bool := false
  /-- Where a system name is in Mozc's value. -/
  sourceValueOffset : Option Nat := none
  /-- What stands for the surface in the prompt. -/
  placeholder : Bytes := []
deriving DecidableEq

/-- 0 is read as 1. -/
def ProtectedConversionSpan.required (span : ProtectedConversionSpan) : Nat :=
  if span.requiredOccurrences = 0 then 1 else span.requiredOccurrences

namespace AdoptionPolicy

/-! ## Characters -/

def appendUtf8Char (c : Nat) : Bytes :=
  if c ≤ 0x7F then [UInt8.ofNat c]
  else if c ≤ 0x7FF then [leading 0xC0 (c / 64), trailing c]
  else if c ≤ 0xFFFF then [leading 0xE0 (c / 4096), trailing (c / 64), trailing c]
  else [leading 0xF0 (c / 262144), trailing (c / 4096), trailing (c / 64), trailing c]

def katakanaOf (c : Nat) : Nat :=
  if 0x3041 ≤ c ∧ c ≤ 0x3096 then c + 0x60
  else if c = 0x309D then 0x30FD
  else if c = 0x309E then 0x30FE
  else c

/-- What a byte that begins no character becomes is the byte. -/
def hiraganaToKatakana (s : Bytes) : Bytes :=
  let next : Bytes → Option (Bytes × Nat) := fun rest =>
    match decodeOneUtf8 rest with
    | none => some (rest.take 1, 1)
    | some (c, len) => some (appendUtf8Char (katakanaOf c), len)
  (walk next s).1.flatten

def isAsciiWordLike (c : Nat) : Bool :=
  ('0'.toNat ≤ c && c ≤ '9'.toNat) || ('A'.toNat ≤ c && c ≤ 'Z'.toNat) ||
    ('a'.toNat ≤ c && c ≤ 'z'.toNat) || c == '_'.toNat || c == '-'.toNat || c == '.'.toNat ||
    c == '+'.toNat || c == '#'.toNat

/-- Hiragana, katakana, ideographs, compatibility ideographs, halfwidth katakana. -/
def isJapaneseLetterLike (c : Nat) : Bool :=
  (0x3040 ≤ c && c ≤ 0x309F) || (0x30A0 ≤ c && c ≤ 0x30FF) || (0x3400 ≤ c && c ≤ 0x9FFF) ||
    (0xF900 ≤ c && c ≤ 0xFAFF) || (0xFF66 ≤ c && c ≤ 0xFF9D)

def isJapaneseParticleBoundary (c : Nat) : Bool :=
  ['の', 'は', 'を', 'に', 'で', 'へ', 'と', 'が', 'も', 'や', 'か'].any fun p => p.toNat == c

def isPunctuationOrSpaceBoundary (c : Nat) : Bool :=
  if c ≤ 0x20 then true
  else
    ['、', '。', '，', '．', '・', '「', '」', '『', '』', '（', '）'].any (fun p => p.toNat == c) ||
      -- round, square and curly ASCII brackets
      [0x28, 0x29, 0x5B, 0x5D, 0x7B, 0x7D].contains c

def isProtectedSurfaceBoundaryChar (c : Nat) : Bool :=
  if isPunctuationOrSpaceBoundary c || isJapaneseParticleBoundary c then true
  else !isJapaneseLetterLike c && !isAsciiWordLike c

/-! ## Neighbours -/

/-- The code point at `index` and its length. -/
def decodeUtf8CharAt (s : Bytes) (index : Nat) : Option (Nat × Nat) := decodeOneUtf8 (s.drop index)

/-- The code point that ends at `index`. -/
def decodePreviousUtf8Char (s : Bytes) (index : Nat) : Option Nat :=
  if index = 0 ∨ s.length < index then none
  else
    -- step over trailing bytes, not beyond the first byte
    let steps := ((s.take index).reverse.takeWhile isUtf8TrailingByte).length
    let start := index - 1 - steps
    match decodeOneUtf8 (s.drop start) with
    | none => none
    | some (c, len) => if start + len = index then some c else none

/-- `none` when the text cannot be read there, `some none` at the beginning. -/
def getLeftNeighbor (value : Bytes) (pos : Nat) : Option (Option Nat) :=
  if value.length < pos then none
  else if pos = 0 then some none
  else (decodePreviousUtf8Char value pos).map some

def getRightNeighbor (value : Bytes) (pos : Nat) : Option (Option Nat) :=
  if value.length < pos then none
  else if pos = value.length then some none
  else (decodeUtf8CharAt value pos).map fun (c, _) => some c

/-- The surface at `pos` has a boundary character or the end of the text on both sides. -/
def hasProtectedSurfaceBoundaries (value : Bytes) (pos : Nat) (surface : Bytes) : Bool :=
  if surface.isEmpty || value.length < pos + surface.length then false
  else
    let rightPos := pos + surface.length
    let left :=
      if 0 < pos then (decodePreviousUtf8Char value pos).any isProtectedSurfaceBoundaryChar
      else true
    let right :=
      if rightPos < value.length then
        (decodeUtf8CharAt value rightPos).any fun (c, _) => isProtectedSurfaceBoundaryChar c
      else true
    left && right

def countBoundaryPreservedOccurrences (value surface : Bytes) : Nat :=
  (occurrences surface value).countP fun pos => hasProtectedSurfaceBoundaries value pos surface

/-! ## Attached text -/

/-- The boundary characters behind the occurrences. -/
def rightBoundaries (value surface : Bytes) : List Bytes :=
  (occurrences surface value).filterMap fun pos =>
    let rightPos := pos + surface.length
    if value.length ≤ rightPos then none
    else
      match decodeUtf8CharAt value rightPos with
      | none => none
      | some (right, rightLen) =>
        if isProtectedSurfaceBoundaryChar right then some ((value.drop rightPos).take rightLen)
        else none

/-- Empty when there is no boundary, or not one only. -/
def findUniqueRightBoundaryAfterSurface (value surface : Bytes) : Bytes :=
  match rightBoundaries value surface with
  | [] => []
  | boundary :: rest => if rest.all (· = boundary) then boundary else []

def isAllJapaneseAttachedContent (value : Bytes) : Bool :=
  let (chars, unread) := walk decodeOneUtf8 value
  !value.isEmpty && unread.isEmpty &&
    chars.all fun c => isJapaneseLetterLike c && !isJapaneseParticleBoundary c

/-- How far the text attached to the surface at `pos` reaches. -/
def attachedEnd (value surface expectedBoundary : Bytes) (pos : Nat) : Option Nat :=
  if hasProtectedSurfaceBoundaries value pos surface then none
  else
    let attachedBegin := pos + surface.length
    match find expectedBoundary value attachedBegin with
    | none => none
    | some boundaryPos =>
      if boundaryPos = attachedBegin ∨ 12 < boundaryPos - attachedBegin then none
      else if isAllJapaneseAttachedContent
          ((value.drop attachedBegin).take (boundaryPos - attachedBegin)) then some boundaryPos
      else none

/-- Erase the text attached to the first occurrence that has some. -/
def tryRepairAttachedProtectedSpan (mozcValue : Bytes) (span : ProtectedConversionSpan)
    (value : Bytes) : Option Bytes :=
  if span.value.isEmpty then none
  else
    let expectedBoundary := findUniqueRightBoundaryAfterSurface mozcValue span.value
    if expectedBoundary.isEmpty then none
    else
      (occurrences span.value value).findSome? fun pos =>
        (attachedEnd value span.value expectedBoundary pos).map fun boundaryPos =>
          value.take (pos + span.value.length) ++ value.drop boundaryPos

/-! ## Readings -/

def isAsciiAlnum (c : UInt8) : Bool :=
  (byte '0' ≤ c && c ≤ byte '9') || (byte 'A' ≤ c && c ≤ byte 'Z') ||
    (byte 'a' ≤ c && c ≤ byte 'z')

/-- Very short surfaces are too collision-prone. -/
def isRepairCandidateSafe (candidate : Bytes) (span : ProtectedConversionSpan) : Bool :=
  if candidate.isEmpty || candidate = span.value then false
  else if !span.repairable || span.tier ≠ .identityCritical then false
  else 3 ≤ span.value.countP isAsciiAlnum

/-- The kana spelling of the reading, and the reading. -/
def repairCandidates (span : ProtectedConversionSpan) : List Bytes :=
  [hiraganaToKatakana span.key, span.key]

/-- The candidate that is replaced: the first one that is safe and occurs exactly once. -/
def repairCandidate (span : ProtectedConversionSpan) (value : Bytes) : Option Bytes :=
  (repairCandidates span).find? fun candidate =>
    isRepairCandidateSafe candidate span && countOccurrences value candidate = 1

/-- The value after the repair, and whether it contains the surface. -/
def tryRepairProtectedSpan (span : ProtectedConversionSpan) (value : Bytes) : Bytes × Bool :=
  match repairCandidate span value with
  | none => (value, false)
  | some candidate =>
    let repaired := replaceAll candidate span.value value
    (repaired, contains span.value repaired)

end AdoptionPolicy

end Mozkey.Zenz
