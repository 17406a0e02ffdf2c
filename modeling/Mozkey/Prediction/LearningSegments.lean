import Mozkey.Base.ScriptType
import Mozkey.Converter.Results
import Mozkey.Prediction.ClearHistoryEntry

/-!
# What a commit teaches

`prediction/user_history_predictor.cc`: the predicates on texts, `MakeLearningSegments` and
`IsPrivacySensitive`. A result has a description here. The dictionary and the parts of speech are
parameters.
-/

namespace Mozkey.Converter.Attribute

def SINGLE_KANJI : UInt32 := (1 : UInt32) <<< 24

end Mozkey.Converter.Attribute

namespace Mozkey.Prediction

open Infra Base Converter

/-! ## Texts -/

def kPunctuations : List Bytes := ["。", ".", "、", ",", "？", "?", "！", "!", "，", "．"].map utf8

def startsWithPunctuation (value : Bytes) : Bool := kPunctuations.any fun x => x.isPrefixOf value

def endsWithPunctuation (value : Bytes) : Bool := kPunctuations.any fun x => x.isSuffixOf value

def startsWithValidLetter (value : Bytes) : Bool :=
  match getFirstScriptType value with
  | .kanji | .hiragana | .katakana | .alphabet => true
  | _ => false

/-! ## Requests and results -/

structure Result extends Converter.Result where
  description : Bytes := []

namespace Result

def has (result : Result) (flags : UInt32) : Bool := result.attributes &&& flags != 0

end Result

/-- The levels of `history_learning_level`. -/
inductive HistoryLearningLevel where
  | defaultHistory
  | readOnly
  | noHistory
deriving DecidableEq

/-- What learning reads of a `ConversionRequest`. -/
structure LearningRequest where
  incognitoMode : Bool := false
  historyLearningLevel : HistoryLearningLevel := .defaultHistory
  useHistorySuggest : Bool := true
  reversibleExternalLearning : Bool := false
  enableCompoundNounPartialMatch : Bool := false
  precedingText : Bytes := []
  historyResult : Result := {}

structure Modules where
  posMatcher : PosMatcher := {}
  /-- Whether the dictionary has a unique noun under exactly this key. -/
  isProperNounKeyInDic : Bytes → Bool := fun _ => false
  /-- `GetReadingAlignment`: pairs of a surface and its reading. -/
  getReadingAlignment : Bytes → Bytes → List (Bytes × Bytes) := fun _ _ => []

/-! ## Learning segments -/

structure SegmentForLearning where
  keyBegin : Nat := 0
  valueBegin : Nat := 0
  key : Bytes := []
  value : Bytes := []
  contentKey : Bytes := []
  contentValue : Bytes := []
  description : Bytes := []
  rankingConstraints : UInt8 := RankingConstraint.NONE

structure SegmentsForLearning where
  conversionSegmentsKey : Bytes := []
  conversionSegmentsValue : Bytes := []
  innerSegmentBoundary : List UInt32 := []
  historySegments : List SegmentForLearning := []
  conversionSegments : List SegmentForLearning := []
  hasSpacePrefix : Bool := false
  allowPartialMatch : Bool := false

def getDescription (result : Result) : Bytes :=
  if result.has (Attribute.SPELLING_CORRECTION ||| Attribute.TYPING_CORRECTION |||
      Attribute.AUTO_PARTIAL_SUGGESTION) then []
  else result.description

def getSpacePrefix (request : LearningRequest) : Bytes :=
  ([kPrefixHalfSpace, kPrefixFullSpace].find? fun space =>
    space.isSuffixOf request.precedingText).getD []

/-- The loop over the inner segments, from the offsets and the index on. -/
def makeLearningSegmentsFrom (result : Result) (isSingleSegment hasPerInner : Bool) :
    Nat → Nat → Nat → List InnerSegment → List SegmentForLearning
  | _, _, _, [] => []
  | keyBegin, valueBegin, innerIndex, iter :: rest =>
    { keyBegin, valueBegin
      key := iter.key
      value := iter.value
      contentKey := iter.contentKey
      contentValue := iter.contentValue
      description := if isSingleSegment then getDescription result else []
      rankingConstraints :=
        if hasPerInner then result.innerSegmentRankingConstraints.getD innerIndex 0
        else if isSingleSegment then result.rankingConstraints
        else RankingConstraint.NONE } ::
      makeLearningSegmentsFrom result isSingleSegment hasPerInner (keyBegin + iter.key.length)
        (valueBegin + iter.value.length) (innerIndex + 1) rest

/-- The lambda `make_learning_segments`. -/
def makeLearningSegmentsOf (result : Result) : List SegmentForLearning :=
  let segments := result.innerSegments
  makeLearningSegmentsFrom result (segments.length ≤ 1)
    (result.innerSegmentRankingConstraints.length = segments.length) 0 0 0 segments

namespace UserHistoryStorage

variable {city : City}

def head (storage : UserHistoryStorage city) : Option Entry :=
  storage.fps.head?.bind storage.lookup

def headNext (storage : UserHistoryStorage city) : Option Entry :=
  storage.fps[1]?.bind storage.lookup

end UserHistoryStorage

section

variable {city : City}

/-- Without history segments, the entry that was used last stands for them if it is in front of the
space. -/
def makeHistoryLearningSegments (storage : UserHistoryStorage city) (request : LearningRequest) :
    List SegmentForLearning × Bool :=
  let segments := makeLearningSegmentsOf request.historyResult
  let spacePrefix := getSpacePrefix request
  if !segments.isEmpty || spacePrefix.isEmpty then (segments, !spacePrefix.isEmpty)
  else
    let precedingText :=
      request.precedingText.take (request.precedingText.length - spacePrefix.length)
    match storage.head with
    | none => (segments, false)
    | some headEntry =>
      if !headEntry.value.isSuffixOf precedingText then (segments, false)
      else if storage.headNext.any fun next => next.value.isPrefixOf headEntry.value then
        (segments, false)
      else
        ([{ key := headEntry.key, value := headEntry.value, contentKey := headEntry.key
            contentValue := headEntry.value }], true)

def isProperNoun (modules : Modules) (result : Result) : Bool :=
  if charsLen result.key ≤ 1 then false
  else
    let stype := getScriptTypeOfString result.value
    stype = .katakana || stype = .number || stype = .alphabet ||
      result.has Attribute.SINGLE_KANJI || result.has Attribute.NUMBER ||
      modules.posMatcher.isUniqueNoun result.lid || modules.posMatcher.isUniqueNoun result.rid ||
      (stype = .kanji && modules.isProperNounKeyInDic result.key)

/-- A functional suffix such as a particle. -/
def hasFunctionalSuffix (seg : SegmentForLearning) : Bool :=
  (!seg.contentKey.isEmpty && seg.key != seg.contentKey) ||
    (!seg.contentValue.isEmpty && seg.value != seg.contentValue)

def shouldAllowPartialMatch (modules : Modules) (request : LearningRequest) (result : Result)
    (segments : SegmentsForLearning) : Bool :=
  if isProperNoun modules result then true
  else if !request.enableCompoundNounPartialMatch then false
  else if segments.conversionSegments.length ≤ 1 then false
  else if segments.conversionSegments.any hasFunctionalSuffix then false
  else if result.rid ≠ 0 ∧ !modules.posMatcher.isContentNoun result.rid ∧
      !modules.posMatcher.isGeneralNoun result.rid ∧
        !modules.posMatcher.isUniqueNoun result.rid then
    false
  else true

def makeLearningSegments (modules : Modules) (storage : UserHistoryStorage city)
    (request : LearningRequest) (results : List Result) : SegmentsForLearning :=
  match results with
  | [] => {}
  | result :: _ =>
    let history := makeHistoryLearningSegments storage request
    let segments : SegmentsForLearning :=
      { conversionSegmentsKey := result.key
        conversionSegmentsValue := result.value
        innerSegmentBoundary := result.innerSegmentBoundary
        historySegments := history.1
        conversionSegments := makeLearningSegmentsOf result
        hasSpacePrefix := history.2 }
    { segments with allowPartialMatch := shouldAllowPartialMatch modules request result segments }

/-- Something like a password. -/
def isPrivacySensitive (results : List Result) : Bool :=
  match results with
  | [] => false
  | result :: _ =>
    if 1 < result.innerSegmentBoundary.length then false
    else if !isAscii result.value then false
    else getScriptTypeOfString result.key = .number

end

end Mozkey.Prediction
