import Mozkey.Base.Utf8

/-!
# Segments and their candidates

`converter/attribute.h`, `candidate.h`, `segments.h` and `segments.cc`. A candidate has the fields
that the ranking, the learning and the generation of candidates read or write. `key_len_` is always
the length of `key_`, so it is not kept.
-/

namespace Mozkey.Converter

open Infra Base

/-! ## Bit fields -/

namespace Attribute

def BEST_CANDIDATE : UInt32 := (1 : UInt32) <<< 0
def RERANKED : UInt32 := (1 : UInt32) <<< 1
def NO_SUGGEST_LEARNING : UInt32 := (1 : UInt32) <<< 3
def CONTEXT_SENSITIVE : UInt32 := (1 : UInt32) <<< 4
def SPELLING_CORRECTION : UInt32 := (1 : UInt32) <<< 5
def NO_VARIANTS_EXPANSION : UInt32 := (1 : UInt32) <<< 6
def REALTIME_CONVERSION : UInt32 := (1 : UInt32) <<< 8
def USER_DICTIONARY : UInt32 := (1 : UInt32) <<< 9
def PARTIALLY_KEY_CONSUMED : UInt32 := (1 : UInt32) <<< 11
def TYPING_CORRECTION : UInt32 := (1 : UInt32) <<< 12
def AUTO_PARTIAL_SUGGESTION : UInt32 := (1 : UInt32) <<< 13
def SUFFIX_DICTIONARY : UInt32 := (1 : UInt32) <<< 15
def USER_SEGMENT_HISTORY_REWRITER : UInt32 := (1 : UInt32) <<< 17
def KEY_EXPANDED_IN_DICTIONARY : UInt32 := (1 : UInt32) <<< 18
def NUMBER : UInt32 := (1 : UInt32) <<< 23

end Attribute

namespace RankingConstraint

def NONE : UInt8 := 0
def NO_TOP : UInt8 := (1 : UInt8) <<< 0

end RankingConstraint

/-! ## Candidates -/

structure ProperNounSpan where
  keyOffset : Nat := 0
  valueOffset : Nat := 0
  key : Bytes := []
  value : Bytes := []
  tokenReadings : List Bytes := []
  verifiedPersonalFullName : Bool := false
  deriving DecidableEq

structure Candidate where
  key : Bytes := []
  value : Bytes := []
  contentKey : Bytes := []
  contentValue : Bytes := []
  consumedKeySize : Nat := 0
  /-- A `uint32_t`. -/
  convertedSegmentCount : Nat := 1
  cost : Int := 0
  wcost : Int := 0
  structureCost : Int := 0
  lid : Nat := 0
  rid : Nat := 0
  attributes : UInt32 := 0
  rankingConstraints : UInt8 := RankingConstraint.NONE
  innerSegmentBoundary : List UInt32 := []
  properNounSpans : List ProperNounSpan := []
  deriving DecidableEq

namespace Candidate

def effectiveConvertedSegmentCount (c : Candidate) : Nat := max 1 c.convertedSegmentCount

def has (c : Candidate) (flags : UInt32) : Bool := c.attributes &&& flags != 0

def isNoTop (c : Candidate) : Bool := c.rankingConstraints &&& RankingConstraint.NO_TOP != 0

end Candidate

/-! ## A segment -/

inductive SegmentType where
  | free
  | fixedBoundary
  | fixedValue
  | submitted
  | history
  deriving DecidableEq

structure Segment where
  segmentType : SegmentType := .free
  key : Bytes := []
  candidates : List Candidate := []
  metaCandidates : List Candidate := []
  deriving DecidableEq

namespace Segment

def keyLen (s : Segment) : Nat := charsLen s.key

def pushFrontCandidate (s : Segment) (c : Candidate) : Segment :=
  { s with candidates := c :: s.candidates }

/-- `insert_candidate(i)`, filled with `c`; past the end it is added to the end. -/
def insertCandidate (s : Segment) (i : Nat) (c : Candidate) : Segment :=
  { s with candidates := s.candidates.insertIdx (min i s.candidates.length) c }

def eraseCandidates (s : Segment) (i size : Nat) : Segment :=
  if s.candidates.length ≤ i ∨ s.candidates.length < i + size then s
  else { s with candidates := s.candidates.take i ++ s.candidates.drop (i + size) }

def updateCandidate (s : Segment) (i : Nat) (f : Candidate → Candidate) : Segment :=
  { s with candidates := s.candidates.modify i f }

/-- `move_candidate` within the regular candidates. -/
def moveRegular (s : Segment) (oldIdx newIdx : Nat) : Segment :=
  match s.candidates[oldIdx]? with
  | none => s
  | some c =>
    if s.candidates.length ≤ newIdx ∨ oldIdx = newIdx then s
    else { s with candidates := (s.candidates.eraseIdx oldIdx).insertIdx newIdx c }

/-- `move_candidate` of the meta candidate `-metaIdx - 1`, which stays where it is. -/
def moveMeta (s : Segment) (metaIdx newIdx : Nat) : Segment :=
  match s.metaCandidates[metaIdx]? with
  | none => s
  | some c => s.insertCandidate newIdx c

end Segment

/-! ## All segments -/

structure Segments where
  segments : List Segment := []
  maxHistorySegmentsSize : Nat := 0
  resized : Bool := false
  revertId : Nat := 0
  deriving DecidableEq

namespace Segments

def isHistory (s : Segment) : Bool := s.segmentType = .history ∨ s.segmentType = .submitted

def historySegments (s : Segments) : List Segment := s.segments.takeWhile isHistory

def conversionSegments (s : Segments) : List Segment := s.segments.dropWhile isHistory

def historySegmentsSize (s : Segments) : Nat := s.historySegments.length

def conversionSegmentsSize (s : Segments) : Nat := s.conversionSegments.length

/-- Every conversion segment is changed. -/
def mapConversion (s : Segments) (f : Segment → Segment) : Segments :=
  { s with segments := s.historySegments ++ s.conversionSegments.map f }

def addSegment (s : Segments) (segment : Segment) : Segments :=
  { s with segments := s.segments ++ [segment] }

def clearConversionSegments (s : Segments) : Segments :=
  { s with segments := s.historySegments, resized := false }

def initForConvert (s : Segments) (key : Bytes) : Segments :=
  { s with maxHistorySegmentsSize := 4 }.clearConversionSegments.addSegment { key := key }

/-! ## Resizing -/

/-- The keys from the start on until they have `totalSize` characters, and how many they are. -/
def takeKeys (totalSize : Nat) : List Segment → Bytes → Nat → Bytes × Nat
  | [], key, count => (key, count)
  | s :: rest, key, count =>
    if totalSize ≤ charsLen key + s.keyLen then (key ++ s.key, count + 1)
    else takeKeys totalSize rest (key ++ s.key) (count + 1)

/-- The new keys, and the number of characters that are in them. -/
def newKeys (key : Bytes) (keyLen : Nat) : List UInt8 → Nat → List Bytes × Nat
  | [], consumed => ([], consumed)
  | size :: sizes, consumed =>
    if size ≠ 0 ∧ consumed < keyLen then
      let (keys, consumed') := newKeys key keyLen sizes (consumed + size.toNat)
      (utf8SubString key consumed size.toNat :: keys, consumed')
    else newKeys key keyLen sizes consumed

/-- The segments in place of those from `startIndex` on whose key is `key`. What the new keys leave
of it goes to the segment after them. -/
def replaceKeys (key : Bytes) (newSizes : List UInt8) (rest : List Segment) : List Segment :=
  let (keys, consumed) := newKeys key (charsLen key) newSizes 0
  let fixed := keys.map fun k => { segmentType := .fixedBoundary, key := k : Segment }
  if consumed < charsLen key then
    let left := utf8SubString key consumed (charsLen key - consumed)
    match rest with
    | [] => fixed ++ [{ key := left }]
    | next :: rest => fixed ++ { key := left ++ next.key } :: rest
  else fixed ++ rest

/-- `Resize`, or `none` if it returns false. -/
def resize (s : Segments) (startIndex : Nat) (newSizes : List UInt8) : Option Segments :=
  let totalSize := (newSizes.map UInt8.toNat).sum
  if totalSize = 0 then none
  else
    let (key, modified) := takeKeys totalSize (s.segments.drop startIndex) [] 0
    if charsLen key = 0 ∨ charsLen key < totalSize then none
    else some { s with
      segments := s.segments.take startIndex ++
        replaceKeys key newSizes (s.segments.drop (startIndex + modified))
      resized := true }

end Segments

/-!
## Rules for parts of speech

`dictionary/pos_matcher.h`. The rules are generated from `pos_matcher_rule.def` and the list of
ids; each is a predicate on the ids.
-/

structure PosMatcher where
  isContentNoun : Nat → Bool := fun _ => false
  isContentWordWithConjugation : Nat → Bool := fun _ => false
  isCounterSuffixWord : Nat → Bool := fun _ => false
  isFunctional : Nat → Bool := fun _ => false
  isGeneralNoun : Nat → Bool := fun _ => false
  isKanjiNumber : Nat → Bool := fun _ => false
  isNumber : Nat → Bool := fun _ => false
  isPronoun : Nat → Bool := fun _ => false
  isUniqueNoun : Nat → Bool := fun _ => false
  /-- In spite of its name, the nouns that form a verb with する. -/
  isUnknown : Nat → Bool := fun _ => false

end Mozkey.Converter
