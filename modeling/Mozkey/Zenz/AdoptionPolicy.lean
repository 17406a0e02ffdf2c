import Mozkey.Zenz.SegmentProjection
import Mathlib.Data.List.Sort
import Mozkey.Infra.Loop
import Mozkey.Zenz.OrthographyPolicy
import Mozkey.Zenz.OutputValidator
import Mozkey.Zenz.SystemNameDistances

/-!
# Adopting an output

`ZenzAdoptionPolicy::Decide` of `session/zenz_adoption_policy.cc`.

The spans are gone through in order, and each one is checked against the value as it is then.
Identity-critical and user-preferred spans have a repair loop of their own, so one step of the
model is one iteration of that loop, or one other span, or what follows the last span. The value
is rewritten in four places:

* `repairIteration` — erases attached text, or replaces a reading
* `stepSystemName` — replaces the spelling of a system name
* `repairOrthography` — puts back Mozc's value of a segment
-/

/-!
## Numeric literals

The checks of `session/zenz_adoption_policy.cc` on numbers: the neighbours of every occurrence,
and the edge anchors that stand in for the occurrence count when some numerals come from kana.
-/

namespace Mozkey.Zenz

open Infra Base

structure ZenzAdoptionInput where
  key : Bytes
  mozcValue : Bytes
  zenzValue : Bytes
  protectedSpans : List ProtectedConversionSpan
  baselineSegments : List ZenzBaselineSegment

namespace AdoptionPolicy

/-! ## Neighbours of a number -/

/-- Japanese text may become other Japanese text, everything else stays. -/
def numericNeighborMatches : Option Nat → Option Nat → Bool
  | none, none => true
  | some baseline, some candidate =>
    if isJapaneseLetterLike baseline then isJapaneseLetterLike candidate
    else baseline == candidate
  | _, _ => false

/-- The neighbours on one side match. They do not when a text cannot be read there. -/
def sideMatches (baseline candidate : Option (Option Nat)) : Bool :=
  match baseline, candidate with
  | some b, some c => numericNeighborMatches b c
  | _, _ => false

/-- The occurrences are compared in pairs. -/
def contextsMatchAt (baseline candidate surface : Bytes) : List Nat → List Nat → Bool
  | [], [] => true
  | b :: bs, c :: cs =>
    sideMatches (getLeftNeighbor baseline b) (getLeftNeighbor candidate c) &&
      sideMatches (getRightNeighbor baseline (b + surface.length))
        (getRightNeighbor candidate (c + surface.length)) &&
      contextsMatchAt baseline candidate surface bs cs
  | _, _ => false

def numericLiteralContextsMatch (baseline candidate surface : Bytes) : Bool :=
  !surface.isEmpty &&
    contextsMatchAt baseline candidate surface (occurrences surface baseline)
      (occurrences surface candidate)

/-! ## Edge anchors -/

def baselineSegmentsMatchAdoptionInput (baselineSegments : List ZenzBaselineSegment)
    (key mozcValue : Bytes) : Bool :=
  if baselineSegments.isEmpty then false
  else if baselineSegments.any fun s => s.key.isEmpty || s.value.isEmpty then false
  else
    baselineSegments.flatMap (·.key) == key && baselineSegments.flatMap (·.value) == mozcValue

def identityChar (c : UInt8) : Bool :=
  isAsciiAlnum c || c == byte '_' || c == byte '-' || c == byte '.' || c == byte '+' ||
    c == byte '#'

/-- The tokens of the reading that are the surface. -/
def countReadingNumericTokens (reading surface : Bytes) : Nat :=
  if surface.isEmpty then 0 else (runs identityChar reading).count surface

inductive MixedNumericAnchor where
  | notApplicable
  | preserved
  | lost
deriving DecidableEq

structure EdgeAnchors where
  explicitCount : Nat := 0
  /-- The value of the first segment, when it holds typed numerals. -/
  front : Bytes := []
  /-- The value of the last segment, when it holds typed numerals. -/
  back : Bytes := []
deriving DecidableEq

/-- The loop over the segments, `i` is the index of the next one. `none` when a typed numeral is
not at an edge, or its segment has numerals from elsewhere. -/
def edgeAnchors (surface : Bytes) (segmentCount : Nat) :
    Nat → EdgeAnchors → List ZenzBaselineSegment → Option EdgeAnchors
  | _, anchors, [] => some anchors
  | i, anchors, segment :: rest =>
    let readingCount := countReadingNumericTokens segment.key surface
    if readingCount = 0 then edgeAnchors surface segmentCount (i + 1) anchors rest
    else if readingCount ≠ countReadingNumericTokens segment.value surface then none
    else
      let explicitCount := anchors.explicitCount + readingCount
      if i = 0 then
        edgeAnchors surface segmentCount (i + 1) ⟨explicitCount, segment.value, anchors.back⟩ rest
      else if i + 1 = segmentCount then
        edgeAnchors surface segmentCount (i + 1) ⟨explicitCount, anchors.front, segment.value⟩ rest
      else none

/-- The neighbour of a numeral at the inner end of the front segment. -/
def frontNeighborMatches (mozcValue surface candidate front : Bytes) : Bool :=
  if !front.isEmpty && surface.isSuffixOf front then
    sideMatches (getRightNeighbor mozcValue front.length) (getRightNeighbor candidate front.length)
  else true

def backNeighborMatches (mozcValue surface candidate back : Bytes) : Bool :=
  if !back.isEmpty && surface.isPrefixOf back then
    sideMatches (getLeftNeighbor mozcValue (mozcValue.length - back.length))
      (getLeftNeighbor candidate (candidate.length - back.length))
  else true

def checkMixedNumericEdgeAnchors (input : ZenzAdoptionInput) (surface candidate : Bytes) :
    MixedNumericAnchor :=
  let segments := input.baselineSegments
  if !baselineSegmentsMatchAdoptionInput segments input.key input.mozcValue ||
      segments.length < 2 then .notApplicable
  else
    match edgeAnchors surface segments.length 0 {} segments with
    | none => .notApplicable
    | some anchors =>
      let baselineCount := countReadingNumericTokens input.mozcValue surface
      if anchors.explicitCount = 0 || baselineCount ≤ anchors.explicitCount ||
          anchors.explicitCount ≠ countReadingNumericTokens input.key surface then .notApplicable
      else
        let candidateCount := countReadingNumericTokens candidate surface
        if candidateCount < anchors.explicitCount || baselineCount < candidateCount ||
            candidate.length < anchors.front.length + anchors.back.length ||
            (!anchors.front.isEmpty && !anchors.front.isPrefixOf candidate) ||
            (!anchors.back.isEmpty && !anchors.back.isSuffixOf candidate) then .lost
        else if !frontNeighborMatches input.mozcValue surface candidate anchors.front then .lost
        else if !backNeighborMatches input.mozcValue surface candidate anchors.back then .lost
        else .preserved

end AdoptionPolicy

inductive Action where
  | acceptAsIs
  | acceptWithRepair
  | reject
deriving DecidableEq

structure ZenzAdoptionResult where
  action : Action := .reject
  value : Bytes
  reason : Bytes
deriving DecidableEq

namespace AdoptionPolicy

def rejectWith (input : ZenzAdoptionInput) (reason : String) : ZenzAdoptionResult :=
  ⟨.reject, input.mozcValue, utf8 reason⟩

/-! ## State -/

/-- The variables of the function. `checked` are the spans the loop has gone through. -/
structure Config where
  checked : List ProtectedConversionSpan := []
  remaining : List ProtectedConversionSpan
  adoptedValue : Bytes
  protectedSurfaceRepaired : Bool := false
  selectedSystemNameRepaired : Bool := false
  /-- Where a located name is in Mozc's value, and where it was in the adopted value. -/
  systemNamePositions : List (Nat × Nat) := []

def start (input : ZenzAdoptionInput) : Config :=
  { remaining := input.protectedSpans, adoptedValue := input.zenzValue }

/-- To the next span. -/
def Config.advance (c : Config) : Config :=
  match c.remaining with
  | [] => c
  | span :: rest => { c with checked := c.checked ++ [span], remaining := rest }

/-! ## Numeric literals -/

/-- As many occurrences as in Mozc's value, with the same neighbours, or the reason for a
rejection. -/
def checkNumericOccurrences (input : ZenzAdoptionInput) (span : ProtectedConversionSpan)
    (value : Bytes) : Option String :=
  if countOccurrences input.mozcValue span.value < span.required ∨
      countOccurrences value span.value ≠ countOccurrences input.mozcValue span.value then
    some "protected_numeric_literal_not_preserved"
  else if !numericLiteralContextsMatch input.mozcValue value span.value then
    some "protected_numeric_literal_context_changed"
  else none

def checkNumericLiteral (input : ZenzAdoptionInput) (span : ProtectedConversionSpan)
    (value : Bytes) : Option String :=
  if span.numericPreeditOnly then
    match checkMixedNumericEdgeAnchors input span.value value with
    | .preserved => none
    | .lost => some "protected_numeric_literal_edge_anchor_lost"
    | .notApplicable => checkNumericOccurrences input span value
  else checkNumericOccurrences input span value

/-! ## System names -/

def selectedSystemNameCount (input : ZenzAdoptionInput) : Nat :=
  input.protectedSpans.countP fun span => span.tier = .systemProperNoun

/-- Endings that make another name of a name. -/
def kNewNameEndings : List Bytes :=
  [utf8 "都", utf8 "道", utf8 "府", utf8 "県", utf8 "市", utf8 "区", utf8 "町", utf8 "村",
    utf8 "郡", utf8 "商事"]

def boundaryExpanded (oldRight newRight : Bytes) : Bool :=
  kNewNameEndings.any fun ending => ending.isPrefixOf newRight && !ending.isPrefixOf oldRight

/-- The value after the repair of a single name, and whether it was repaired. -/
def repairSystemName (input : ZenzAdoptionInput) (span : ProtectedConversionSpan)
    (value : Bytes) : Bytes × Bool :=
  if selectedSystemNameCount input = 1 ∧ span.required = 1 ∧ countOccurrences value span.value = 0
  then
    match tryRepairSelectedSystemName input.mozcValue span value with
    | none => (value, false)
    | some repaired => (repaired, true)
  else (value, false)

/-- The position of a located name, or the reason for a rejection. -/
def checkSystemName (input : ZenzAdoptionInput) (span : ProtectedConversionSpan) (value : Bytes) :
    Except String (List (Nat × Nat)) :=
  if span.required ≠ 1 ∨ countOccurrences input.mozcValue span.value ≠ 1 ∨
      countOccurrences value span.value ≠ 1 then
    .error "protected_system_proper_noun_not_preserved"
  else
    match span.sourceValueOffset with
    | none => .ok []
    | some before =>
      if !isAtOffset input.mozcValue span.value before then
        .error "protected_system_proper_noun_stale_offset"
      else
        -- the surface occurs, so `find` has a position
        let after := (find span.value value 0).getD 0
        if boundaryExpanded (input.mozcValue.drop (before + span.value.length))
            (value.drop (after + span.value.length)) then
          .error "protected_system_proper_noun_boundary_expanded"
        else .ok [(before, after)]

def stepSystemName (input : ZenzAdoptionInput) (span : ProtectedConversionSpan) (c : Config) :
    Config ⊕ ZenzAdoptionResult :=
  let (value, repaired) := repairSystemName input span c.adoptedValue
  match checkSystemName input span value with
  | .error reason => .inr (rejectWith input reason)
  | .ok positions =>
    .inl { c.advance with
      adoptedValue := value
      protectedSurfaceRepaired := c.protectedSurfaceRepaired || repaired
      selectedSystemNameRepaired := c.selectedSystemNameRepaired || repaired
      systemNamePositions := c.systemNamePositions ++ positions }

/-! ## Identity-critical and user-preferred surfaces -/

/-- The value after one iteration of the repair loop, `none` when neither repair applies. -/
def repairIteration (input : ZenzAdoptionInput) (span : ProtectedConversionSpan) (value : Bytes) :
    Option Bytes :=
  match tryRepairAttachedProtectedSpan input.mozcValue span value with
  | some repaired => some repaired
  | none =>
    if countOccurrences value span.value < span.required then
      let (repaired, done) := tryRepairProtectedSpan span value
      if done then some repaired else none
    else none

/-- The value that the reason for a rejection is taken from. A reading may have been replaced. -/
def valueAfterFailure (span : ProtectedConversionSpan) (value : Bytes) : Bytes :=
  if countOccurrences value span.value < span.required then (tryRepairProtectedSpan span value).1
  else value

def stepSurface (input : ZenzAdoptionInput) (span : ProtectedConversionSpan) (c : Config) :
    Config ⊕ ZenzAdoptionResult :=
  if countBoundaryPreservedOccurrences c.adoptedValue span.value < span.required then
    match repairIteration input span c.adoptedValue with
    | some repaired => .inl { c with adoptedValue := repaired, protectedSurfaceRepaired := true }
    | none =>
      .inr (rejectWith input
        (if span.required ≤ countOccurrences (valueAfterFailure span c.adoptedValue) span.value
        then "protected_user_dictionary_surface_boundary_changed"
        else "protected_user_dictionary_surface_not_preserved"))
  else .inl c.advance

/-! ## After the spans -/

def positionsSorted (positions : List (Nat × Nat)) : List (Nat × Nat) :=
  positions.insertionSort fun a b => a.1 < b.1 ∨ a.1 = b.1 ∧ a.2 ≤ b.2

/-- Every second component is greater than the one before. -/
def secondsIncrease : List (Nat × Nat) → Bool
  | a :: b :: rest => a.2 < b.2 && secondsIncrease (b :: rest)
  | _ => true

/-- The value with the segments that are not allowed put back, and whether there was one. `none`
when it is not known which segment it is. -/
def repairOrthography : List ZenzProjectedSegment → Option (Bytes × Bool)
  | [] => some ([], false)
  | segment :: rest =>
    if !segment.changed ||
        (OrthographyPolicy.evaluate segment.mozcValue segment.zenzValue).allow then
      (repairOrthography rest).map fun (value, repaired) => (segment.zenzValue ++ value, repaired)
    else if !segment.boundaryKnown then none
    else (repairOrthography rest).map fun (value, _) => (segment.mozcValue ++ value, true)

/-- The value and whether it was repaired, or the reason for a rejection. -/
def checkOrthography (input : ZenzAdoptionInput) (value : Bytes) : Except String (Bytes × Bool) :=
  let allow := (OrthographyPolicy.evaluate input.mozcValue value).allow
  if baselineSegmentsMatchAdoptionInput input.baselineSegments input.key input.mozcValue then
    match projectZenzValueToMozcSegments input.baselineSegments input.key value with
    | some segments =>
      match repairOrthography segments with
      | some repaired => .ok repaired
      | none => .error "orthographic_transition_projection_failed"
    | none =>
      if allow then .ok (value, false) else .error "orthographic_transition_projection_failed"
  else if allow then .ok (value, false)
  else if input.baselineSegments.isEmpty then
    .error "orthographic_transition_missing_baseline_segments"
  else .error "orthographic_transition_stale_baseline_segments"

def finish (input : ZenzAdoptionInput) (c : Config) : ZenzAdoptionResult :=
  if !secondsIncrease (positionsSorted c.systemNamePositions) then
    rejectWith input "protected_system_proper_noun_order_changed"
  else
    match checkOrthography input c.adoptedValue with
    | .error reason => rejectWith input reason
    | .ok (value, orthographyRepaired) =>
      if OutputValidator.isObviousSurfaceTruncation input.mozcValue value then
        rejectWith input "obvious_surface_truncation"
      else
        let repaired := c.protectedSurfaceRepaired || orthographyRepaired
        { action := if repaired then .acceptWithRepair else .acceptAsIs
          value := value
          reason :=
            if orthographyRepaired then utf8 "orthographic_transition_repaired"
            else if c.selectedSystemNameRepaired then utf8 "protected_system_proper_noun_repaired"
            else if c.protectedSurfaceRepaired then
              utf8 "protected_user_dictionary_surface_repaired"
            else utf8 "accepted" }

/-! ## The decision -/

def step (input : ZenzAdoptionInput) (c : Config) : Config ⊕ ZenzAdoptionResult :=
  match c.remaining with
  | [] => .inr (finish input c)
  | span :: _ =>
    if span.value.isEmpty then .inl c.advance
    else
      match span.tier with
      | .numericLiteral =>
        match checkNumericLiteral input span c.adoptedValue with
        | none => .inl c.advance
        | some reason => .inr (rejectWith input reason)
      | .systemProperNoun => stepSystemName input span c
      | .identityCritical | .userPreferred => stepSurface input span c

/-- At most `fuel` steps. -/
def decide (input : ZenzAdoptionInput) (fuel : Nat) : Option ZenzAdoptionResult :=
  run (step input) fuel (start input)

/-- The output is accepted, and `value` is what is shown. -/
def Accepts (input : ZenzAdoptionInput) (value : Bytes) : Prop :=
  ∃ fuel result, decide input fuel = some result ∧ result.action ≠ .reject ∧ result.value = value

end AdoptionPolicy

end Mozkey.Zenz
