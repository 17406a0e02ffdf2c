import Mozkey.Converter.RankingConstraints
import Mozkey.Zenz.FeedbackDecision
import Mozkey.Zenz.OrthographyPolicy
import Mozkey.Zenz.SymbolRepair

/-!
# `ZenzFeedbackCandidateRewriter`

`rewriter/zenz_feedback_candidate_rewriter.cc`. `records` are what the feedback store has loaded.
The texts that only describe a candidate are left out.
-/

namespace Mozkey.Rewriter

open Infra Base Converter Zenz

namespace ZenzFeedbackCandidateRewriter

/-- What the request and its `Config` say. The numbers are `uint32_t`. -/
structure ReuseRequest where
  requestType : RequestType := .conversion
  incognitoMode : Bool := false
  enableUserHistoryForConversion : Bool := true
  useZenzFeedbackReuse : Bool := true
  useZenzStrictReadingPreservation : Bool := false
  allowZenzEmojiChanges : Bool := false
  useZenzFeedbackMinKeyLength : Bool := true
  zenzFeedbackMinKeyLength : Nat := 7
  useZenzAutoBlockRejectedCorrection : Bool := false
  zenzAutoBlockRejectThreshold : Nat := 1
  zenzAutoBlockMinimumRejectPercentage : Nat := 50

def kMinKeyChars : Nat := 2
def kMaxKeyChars : Nat := 128
def kMaxValueChars : Nat := 128
def kMaxValueBytes : Nat := 512

def containsUnsafeTextChar (text : Bytes) : Bool :=
  text.any fun c => c == byte '\t' || c == byte '\r' || c == byte '\n'

def isSafeCandidateText (key value : Bytes) : Bool :=
  if key.isEmpty || value.isEmpty then false
  else if !isValidUtf8 key || !isValidUtf8 value then false
  else if containsUnsafeTextChar key || containsUnsafeTextChar value then false
  else if charsLen key < kMinKeyChars || kMaxKeyChars < charsLen key ||
      kMaxValueChars < charsLen value || kMaxValueBytes < value.length then false
  else true

def findCandidateByValue (s : Segment) (value : Bytes) : Option Nat :=
  s.candidates.findIdx? fun c => c.value = value

/-! ## Costs -/

def clampCost (cost : Int) : Int := max 0 (min cost int32Max)

def kMaxBonus : Int := 1800
def kMaxPenalty : Int := 2400

def feedbackCostDelta (candidate : ZenzFeedbackCandidate) : Int :=
  max (-kMaxBonus) (min ((-candidate.totalScore).tdiv 2) kMaxPenalty)

def applyFeedbackCost (feedbackCandidate : ZenzFeedbackCandidate) (c : Candidate) : Candidate :=
  let delta := feedbackCostDelta feedbackCandidate
  { c with cost := clampCost (c.cost + delta), wcost := clampCost (c.wcost + delta) }

/-! ## Positions -/

def findSyntheticInsertPosition (s : Segment) (adjustedCost : Int) : Nat :=
  s.candidates.countP fun c => c.cost ≤ adjustedCost

def findMovePosition (s : Segment) (existingPos : Nat) (adjustedCost : Int) : Nat :=
  min ((s.candidates.eraseIdx existingPos).countP fun c => c.cost ≤ adjustedCost)
    (s.candidates.length - 1)

/-! ## Marks -/

def mark (c : Candidate) : Candidate :=
  { c with attributes :=
      c.attributes ||| (Attribute.RERANKED ||| Attribute.USER_SEGMENT_HISTORY_REWRITER) }

def clearBest (c : Candidate) : Candidate :=
  { c with attributes := c.attributes &&& ~~~Attribute.BEST_CANDIDATE }

def setBest (c : Candidate) : Candidate :=
  { c with attributes := c.attributes ||| Attribute.BEST_CANDIDATE }

def markFeedbackCandidate (s : Segment) (candidatePos : Nat) : Segment :=
  let s := s.updateCandidate candidatePos mark
  if candidatePos = 0 then
    { s with candidates := s.candidates.map clearBest }.updateCandidate 0 setBest
  else s.updateCandidate candidatePos clearBest

/-! ## The rewriter -/

def buildFullConversionKey (segments : Segments) : Bytes :=
  (segments.conversionSegments.map Segment.key).flatten

def hasEmptyConversionSegment (segments : Segments) : Bool :=
  segments.conversionSegments.any fun s => s.key.isEmpty || s.candidates.isEmpty

def fillSyntheticCandidate (baseCandidate : Candidate) (key value : Bytes) : Candidate :=
  mark <| clearBest { baseCandidate with
    key := key
    contentKey := key
    value := value
    contentValue := value
    innerSegmentBoundary := []
    properNounSpans := [] }

def getZenzFeedbackReusePolicy (request : ReuseRequest) : ZenzFeedbackReusePolicy where
  minimumKeyLengthEnabled := request.useZenzFeedbackMinKeyLength
  minimumKeyLength := max 1 (min request.zenzFeedbackMinKeyLength 20)
  autoBlockPolicy :=
    { enabled := request.useZenzAutoBlockRejectedCorrection
      minimumRejectCount := toInt32 request.zenzAutoBlockRejectThreshold
      minimumRejectPercentage := toInt32 request.zenzAutoBlockMinimumRejectPercentage }

/-- `capability` is not `NOT_AVAILABLE`. -/
def available (request : ReuseRequest) : Bool :=
  request.requestType = .conversion && request.useZenzFeedbackReuse &&
    !request.useZenzStrictReadingPreservation && !request.incognitoMode &&
    request.enableUserHistoryForConversion

/-- What the loop asks of a value before it is used. Where this is false, it continues. -/
def usable (request : ReuseRequest) (s : Segment) (key top zenzValue : Bytes) : Bool :=
  if !isSafeCandidateText key zenzValue then false
  else if !request.allowZenzEmojiChanges &&
      !OutputValidator.preservesEmojiSequences top zenzValue then false
  else if zenzValue = top then false
  else if OutputValidator.isObviousSurfaceTruncation top zenzValue then false
  else if !(OrthographyPolicy.evaluate top zenzValue).allow then false
  else findCandidateByValue s zenzValue != some 0

/-- The loop over the ranked candidates: the first usable one, and its repaired value. -/
def firstUsable (request : ReuseRequest) (s : Segment) (key top : Bytes) :
    List ZenzFeedbackCandidate → Option (ZenzFeedbackCandidate × Bytes)
  | [] => none
  | feedbackCandidate :: rest =>
    let zenzValue := OutputValidator.repairUserControlledSymbols key top feedbackCandidate.value
    if usable request s key top zenzValue then some (feedbackCandidate, zenzValue)
    else firstUsable request s key top rest

/-- The candidate at `existingPos` is moved. -/
def moveExisting (s : Segment) (feedbackCandidate : ZenzFeedbackCandidate) (existingPos : Nat) :
    Segment :=
  let s := s.updateCandidate existingPos (applyFeedbackCost feedbackCandidate)
  let insertPos := findMovePosition s existingPos (s.candidates.getD existingPos {}).cost
  markFeedbackCandidate (s.moveRegular existingPos insertPos) insertPos

/-- A candidate with the value is inserted. -/
def insertSynthetic (s : Segment) (feedbackCandidate : ZenzFeedbackCandidate)
    (key zenzValue : Bytes) : Segment :=
  let synthetic := applyFeedbackCost feedbackCandidate
    (fillSyntheticCandidate (s.candidates.getD 0 {}) key zenzValue)
  let insertPos := findSyntheticInsertPosition s synthetic.cost
  markFeedbackCandidate (s.insertCandidate insertPos synthetic) insertPos

/-- What is done with the first usable one. -/
def reuse (s : Segment) (key : Bytes) (feedbackCandidate : ZenzFeedbackCandidate)
    (zenzValue : Bytes) : Segment :=
  match findCandidateByValue s zenzValue with
  | some existingPos => moveExisting s feedbackCandidate existingPos
  | none => insertSynthetic s feedbackCandidate key zenzValue

def kContextClass : Bytes := utf8 "empty"

def rewrite (records : List ParsedFeedbackRecord) (request : ReuseRequest) (segments : Segments) :
    Bool × Segments :=
  if !available request then (false, segments)
  else if segments.conversionSegmentsSize ≠ 1 then (false, segments)
  else if hasEmptyConversionSegment segments then (false, segments)
  else match segments.conversionSegments with
    | [] => (false, segments)
    | s :: _ =>
      let fullKey := buildFullConversionKey segments
      let rankedCandidates := getRankedCandidates records fullKey kContextClass
        (getZenzFeedbackReusePolicy request)
      let originalTopValue := (s.candidates.getD 0 {}).value
      if originalTopValue.isEmpty then (false, segments)
      else match firstUsable request s fullKey originalTopValue rankedCandidates with
        | none => (false, segments)
        | some (feedbackCandidate, zenzValue) =>
          (true, segments.mapConversion fun _ => reuse s fullKey feedbackCandidate zenzValue)

end ZenzFeedbackCandidateRewriter

end Mozkey.Rewriter
