import Mozkey.Converter.RankingConstraints
import Mozkey.Dictionary.SuppressionEffect

/-!
# The last steps of a conversion

`RewriteAndSuppressCandidates`, `TrimCandidates` and `ApplyPostProcessing` of
`converter/converter.cc`, and the calls that end with them.

The rewriters, the converter proper and the predictor may do anything and keep a state. A request
to resize runs everything again, so the recursion has fuel.
-/

namespace Mozkey.Converter

open Infra Base Dictionary

/-- What `request` says about the last steps. -/
structure PostRequest where
  requestType : RequestType := .conversion
  key : Bytes := []
  /-- `candidates_size_limit`, if it is set. -/
  candidatesSizeLimit : Option Int := none

/-- The parts of a converter that this is not about. `convert` is everything that `ApplyConversion`
does before its last step, and `predict` gives the candidates of `StartPrediction`. -/
structure Parts (World : Type) where
  checkResizeSegmentsRequest :
    PostRequest → Segments → World → Option (Nat × List UInt8) × World
  rewrite : PostRequest → Segments → World → Segments × World
  convert : PostRequest → Segments → World → Segments × World
  predict : PostRequest → Segments → World → List Candidate × World

/-! ## The steps -/

/-- `ResizeSegments` up to the conversion of the resized segments. -/
def resizedSegments (request : PostRequest) (segments : Segments) (startSegmentIndex : Nat)
    (newSizes : List UInt8) : Option Segments :=
  if request.requestType ≠ .conversion then none
  else
    let index := segments.historySegmentsSize + startSegmentIndex
    if segments.segments.length ≤ index then none else segments.resize index newSizes

def suppressSegment (dictionary : SuppressionDictionary) (s : Segment) : Segment :=
  { s with candidates := s.candidates.filter fun c =>
      !dictionary.isSuppressedEntry c.key c.value }

def suppress (dictionary : SuppressionDictionary) (segments : Segments) : Segments :=
  if dictionary.isEmpty then segments else segments.mapConversion (suppressSegment dictionary)

def trimSegment (limit : Int) (s : Segment) : Segment :=
  let candidatesLimit := (max 1 (limit - s.metaCandidates.length)).toNat
  if s.candidates.length < candidatesLimit then s
  else s.eraseCandidates candidatesLimit (s.candidates.length - candidatesLimit)

def trimCandidates (request : PostRequest) (segments : Segments) : Segments :=
  match request.candidatesSizeLimit with
  | none => segments
  | some limit => segments.mapConversion (trimSegment limit)

def maybeSetConsumedKeySizeToCandidate (consumedKeySize : Nat) (c : Candidate) : Candidate :=
  if c.has Attribute.PARTIALLY_KEY_CONSUMED then c
  else { c with
    attributes := c.attributes ||| Attribute.PARTIALLY_KEY_CONSUMED
    consumedKeySize := consumedKeySize }

def maybeSetConsumedKeySizeToSegment (consumedKeySize : Nat) (s : Segment) : Segment :=
  { s with
    candidates := s.candidates.map (maybeSetConsumedKeySizeToCandidate consumedKeySize)
    metaCandidates := s.metaCandidates.map (maybeSetConsumedKeySizeToCandidate consumedKeySize) }

/-- The first conversion segment is changed. -/
def mapFirstConversion (segments : Segments) (f : Segment → Segment) : Segments :=
  { segments with
    segments := segments.historySegments ++ segments.conversionSegments.modify 0 f }

/-- What `ApplyPostProcessing` does behind `RewriteAndSuppressCandidates`. -/
def finishPostProcessing (request : PostRequest) (segments : Segments) : Segments :=
  let trimmed := trimCandidates request segments
  if request.requestType = .partialSuggestion ∨ request.requestType = .partialPrediction then
    mapFirstConversion trimmed (maybeSetConsumedKeySizeToSegment (charsLen request.key))
  else trimmed

section

variable {World : Type} (parts : Parts World) (dictionary : SuppressionDictionary)
  (request : PostRequest)

/-- The steps of `RewriteAndSuppressCandidates` behind the rewriters. -/
def suppressAndEnforce (segments : Segments) : Segments :=
  (enforceCandidateRankingConstraints request.requestType (suppress dictionary segments)).2

/-- `ApplyPostProcessing`. The segments are resized, and everything is done again, or they are
rewritten. -/
def applyPostProcessing : Nat → Segments → World → Option (Segments × World)
  | 0, _, _ => none
  | fuel + 1, segments, world =>
    let (resize, world) := parts.checkResizeSegmentsRequest request segments world
    match resize.bind fun r => resizedSegments request segments r.1 r.2 with
    | some resized =>
      let (converted, world) := parts.convert request resized world
      (applyPostProcessing fuel converted world).map fun (segments, world) =>
        (finishPostProcessing request segments, world)
    | none =>
      let (segments, world) := parts.rewrite request segments world
      some (finishPostProcessing request (suppressAndEnforce dictionary request segments), world)

/-! ## The calls -/

/-- `Segments::PrependCandidates` -/
def prependSegment (previous : Segment) (segments : Segments) : Segments :=
  let segments := if segments.conversionSegmentsSize = 0 then
    segments.clearConversionSegments.addSegment { key := previous.key } else segments
  mapFirstConversion segments fun s =>
    { s with candidates := previous.candidates ++ s.candidates
             metaCandidates := previous.metaCandidates }

/-- A call that ends with `ApplyPostProcessing`. -/
inductive PostCall where
  | startConversion
  | resizeSegments (startSegmentIndex : Nat) (newSizes : List UInt8)
  | startPrediction
  | prependCandidates (previous : Segment)

/-- The segments that `ApplyPostProcessing` is called with, or `none` if it is not called. -/
def beforePostProcessing (call : PostCall) (segments : Segments) (world : World) :
    Option (Segments × World) :=
  match call with
  | .startConversion =>
    if request.key.isEmpty then none
    else some (parts.convert request (segments.initForConvert request.key) world)
  | .resizeSegments startSegmentIndex newSizes =>
    (resizedSegments request segments startSegmentIndex newSizes).map fun resized =>
      parts.convert request resized world
  | .startPrediction =>
    let segments := if segments.conversionSegmentsSize = 0 ∨
        (segments.conversionSegments.head?.map (·.key)) ≠ some request.key then
      segments.initForConvert request.key else segments
    let (candidates, world) := parts.predict request segments world
    some (mapFirstConversion segments fun s =>
      { s with candidates := s.candidates ++ candidates }, world)
  | .prependCandidates previous => some (prependSegment previous segments, world)

def perform (fuel : Nat) (call : PostCall) (segments : Segments) (world : World) :
    Option (Segments × World) := do
  let (segments, world) ← beforePostProcessing parts request call segments world
  applyPostProcessing parts dictionary request fuel segments world

end

end Mozkey.Converter
