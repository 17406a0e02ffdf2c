import Mozkey.Session.FeedbackOperations
import Mozkey.Session.Preedit

/-!
# Resolving what is learned of an accepted correction

`SetPendingZenzFeedbackAccepted` of `session/session.cc`, from the projection of the accepted value
on the segments of the live conversion to the segments that are kept for learning.

Segments that cannot be learned separate islands. In an island the range from the first to the
last changed segment is given to the converter. What it cannot resolve stays as it was projected.
An island without a change that a separator follows may be probed: is its last segment still the
first candidate when what follows is not typed yet?

The converter only reads here, so its answers are functions of what it is asked.
-/

namespace Mozkey.Session

open Infra Zenz

/-- The two questions to the converter. -/
structure ResolvingConverter where
  evaluateExternalConversionSegments :
    List ExternalConversionSegment → Option (List ExternalConversionSegment)
  resolveExternalConversionSegments : Bytes → Bytes → Option (List ExternalConversionSegment)

/-! ## The projection -/

/-- No segments when one has no key or no value. -/
def buildZenzBaselineSegmentsFromPreedit (preedit : Preedit) : List ZenzBaselineSegment :=
  if preedit.any fun segment => segment.keyText.isEmpty || segment.value.isEmpty then []
  else preedit.map fun segment => ⟨segment.keyText, segment.value⟩

def buildZenzReverseLearningSegmentsFromPreedit (preedit : Preedit) (fullKey fullValue : Bytes) :
    ZenzReverseLearningProjection :=
  match projectZenzValueToMozcSegments (buildZenzBaselineSegmentsFromPreedit preedit) fullKey
      fullValue with
  | none => {}
  | some segments =>
    { projectedSegments := segments.map fun segment =>
        { key := segment.key
          value := segment.zenzValue
          isReranked := segment.changed
          needsNativeResolution := !segment.boundaryKnown
          baselineKeys := segment.baselineKeys }
      changedSegments := (segments.filter fun segment =>
        segment.changed && segment.boundaryKnown &&
          !(segment.key == fullKey && segment.zenzValue == fullValue)).map fun segment =>
            (segment.key, segment.zenzValue) }

namespace LearningResolution

/-- `is_projected_segment_learnable` -/
def isProjectedSegmentLearnable (projected : ZenzProjectedLearningSegment) : Bool :=
  !projected.key.isEmpty && !projected.value.isEmpty &&
    (evaluateZenzLiveKeyPrivacy projected.key).allow &&
    (evaluateZenzLiveValuePrivacy projected.value).allow

/-! ## Asking the converter -/

/-- The inner boundaries of the segment are not those of the live conversion. -/
def boundaryUnknown (projected : ZenzProjectedLearningSegment) : Bool :=
  projected.needsNativeResolution || projected.boundaryResized

def expectedSegment (projected : ZenzProjectedLearningSegment) : ExternalConversionSegment :=
  { key := projected.key, value := projected.value }

/-- The answer has the boundaries and the surfaces that were asked for. -/
def reproduces (evaluated : List ExternalConversionSegment)
    (span : List ZenzProjectedLearningSegment) : Bool :=
  evaluated.map (fun segment => (segment.key, segment.value)) ==
      span.map (fun projected => (projected.key, projected.value)) &&
    evaluated.all fun segment => !segment.boundaryResized

/-- The known boundaries, where the converter reproduces the surfaces within them. -/
def fixedBoundaryResolution (converter : ResolvingConverter)
    (span : List ZenzProjectedLearningSegment) : Option (List ZenzProjectedLearningSegment) :=
  if span.any boundaryUnknown then none
  else
    match converter.evaluateExternalConversionSegments (span.map expectedSegment) with
    | none => none
    | some evaluated =>
      if reproduces evaluated span then
        some (List.zipWith (fun segment projected =>
          { key := segment.key, value := segment.value
            isReranked := segment.isReranked || projected.isReranked }) evaluated span)
      else none

/-- The keys of the live conversion in the span. -/
def baselineKeysOf (span : List ZenzProjectedLearningSegment) : List Bytes :=
  span.flatMap fun projected =>
    if projected.needsNativeResolution && !projected.baselineKeys.isEmpty then
      projected.baselineKeys
    else [projected.key]

/-- The boundaries that the converter finds for the key and the value of the span. -/
def nativeResegmentation (converter : ResolvingConverter)
    (span : List ZenzProjectedLearningSegment) : Option (List ZenzProjectedLearningSegment) :=
  match converter.resolveExternalConversionSegments (span.flatMap (·.key))
      (span.flatMap (·.value)) with
  | none => none
  | some native =>
    if native.isEmpty then none
    else
      let boundaryResized := native.map (·.key) != baselineKeysOf span
      let oneToOneProjection := native.map (fun segment => (segment.key, segment.value)) ==
        span.map fun projected => (projected.key, projected.value)
      some (native.zipIdx.map fun (segment, i) =>
        { key := segment.key, value := segment.value
          isReranked := segment.isReranked ||
            oneToOneProjection && span[i]?.any (·.isReranked)
          boundaryResized })

/-- `append_native_resolution`: what it appends, none where it fails. -/
def appendNativeResolution (converter : ResolvingConverter)
    (span : List ZenzProjectedLearningSegment) : Option (List ZenzProjectedLearningSegment) :=
  if span.isEmpty then none
  else
    match fixedBoundaryResolution converter span with
    | some resolved => some resolved
    | none => nativeResegmentation converter span

def kMaxContextLossProbesPerAcceptedFeedback : Nat := 2

/-- The last segment is reranked, and no other. -/
def hardened : List ZenzProjectedLearningSegment → List ZenzProjectedLearningSegment
  | [] => []
  | [last] => [{ key := last.key, value := last.value, isReranked := true }]
  | segment :: rest => { key := segment.key, value := segment.value } :: hardened rest

/-- The questions of the probes, the latest first. -/
abbrev Probes := List (List ExternalConversionSegment)

/-- `append_context_loss_hardening` -/
def appendContextLossHardening (converter : ResolvingConverter)
    (evaluationPrefix lexicalIsland : List ZenzProjectedLearningSegment) (probes : Probes) :
    Probes × Option (List ZenzProjectedLearningSegment) :=
  if evaluationPrefix.isEmpty || lexicalIsland.isEmpty then (probes, none)
  else if evaluationPrefix.any boundaryUnknown then (probes, none)
  else if kMaxContextLossProbesPerAcceptedFeedback ≤ probes.length then (probes, none)
  else
    let expected := evaluationPrefix.map expectedSegment
    let probes := expected :: probes
    match converter.evaluateExternalConversionSegments expected with
    | none => (probes, none)
    | some evaluated =>
      if !reproduces evaluated evaluationPrefix then (probes, none)
      else if !evaluated.getLast?.any (·.isReranked) then (probes, none)
      else (probes, some (hardened lexicalIsland))

/-! ## Islands -/

def isChanged (projected : ZenzProjectedLearningSegment) : Bool :=
  projected.isReranked || projected.needsNativeResolution

/-- What is kept of a segment of a changed range that was not resolved as a whole. -/
def unresolvedUnit (projected : ZenzProjectedLearningSegment) : ZenzProjectedLearningSegment :=
  -- the unit stays a barrier
  if projected.needsNativeResolution then { projected with boundaryResized := false }
  else { projected with boundaryResized := false, baselineKeys := [] }

/-- The units of a range that was not resolved, one by one. A single unit is not tried twice. -/
def resolveUnits (converter : ResolvingConverter) (single : Bool)
    (span : List ZenzProjectedLearningSegment) : List ZenzProjectedLearningSegment :=
  span.flatMap fun projected =>
    if projected.needsNativeResolution && !single then
      (appendNativeResolution converter [projected]).getD [unresolvedUnit projected]
    else [unresolvedUnit projected]

/-- An island. `before` is what comes before it, `behind` what comes behind it. -/
def resolveIsland (converter : ResolvingConverter)
    (before island behind : List ZenzProjectedLearningSegment) (probes : Probes) :
    Probes × List ZenzProjectedLearningSegment :=
  match island.findIdx? isChanged, island.reverse.findIdx? isChanged with
  | some firstChanged, some fromEnd =>
    let lastChanged := island.length - 1 - fromEnd
    let changedSpan := (island.drop firstChanged).take (lastChanged - firstChanged + 1)
    let resolved :=
      match appendNativeResolution converter changedSpan with
      | some resolved => resolved
      | none => resolveUnits converter (firstChanged == lastChanged) changedSpan
    (probes, island.take firstChanged ++ resolved ++ island.drop (lastChanged + 1))
  | _, _ =>
    if !behind.head?.any fun next => !isProjectedSegmentLearnable next then (probes, island)
    else
      let (probes, resolved) :=
        appendContextLossHardening converter (before ++ island) island probes
      (probes, resolved.getD island)

/-- A separator is carried over without a question to the converter. -/
def separator (projected : ZenzProjectedLearningSegment) : ZenzProjectedLearningSegment :=
  { projected with boundaryResized := false, needsNativeResolution := false, baselineKeys := [] }

/-- The loop over the projected segments. -/
def resolveFrom (converter : ResolvingConverter) :
    List ZenzProjectedLearningSegment → List ZenzProjectedLearningSegment → Probes →
      Probes × List ZenzProjectedLearningSegment
  | _, [], probes => (probes, [])
  | before, projected :: rest, probes =>
    if !isProjectedSegmentLearnable projected then
      let (probes, out) := resolveFrom converter (before ++ [projected]) rest probes
      (probes, separator projected :: out)
    else
      let island := projected :: rest.takeWhile isProjectedSegmentLearnable
      let behind := rest.dropWhile isProjectedSegmentLearnable
      let (probes, resolved) := resolveIsland converter before island behind probes
      let (probes, out) := resolveFrom converter (before ++ island) behind probes
      (probes, resolved ++ out)
termination_by _ rest => rest.length
decreasing_by
  · simp
  · have hle := (List.dropWhile_sublist (l := rest) isProjectedSegmentLearnable).length_le
    simp
    omega

/-! ## The whole sequence -/

/-- The boundaries of the sequence are not those of the live conversion. -/
def sequenceResized (preedit : Preedit) (key : Bytes) (native : List ExternalConversionSegment) :
    Bool :=
  native.all (fun segment => (evaluateZenzLiveKeyPrivacy segment.key).allow &&
      (evaluateZenzLiveValuePrivacy segment.value).allow) &&
    (SegmentProjection.reconcileZenzBaselineKeysForRequest
      (buildZenzBaselineSegmentsFromPreedit preedit) key).any fun baseline =>
        baseline.map (·.key) != native.map (·.key)

/-- The fallback where no projection is there. -/
def resolveSequence (converter : ResolvingConverter) (preedit : Preedit) (key value : Bytes)
    (changedSegments : List (Bytes × Bytes)) : ZenzReverseLearningProjection :=
  match converter.resolveExternalConversionSegments key value with
  | none => { changedSegments }
  | some native =>
    let boundaryResized := sequenceResized preedit key native
    { projectedSegments := native.map fun segment =>
        { key := segment.key, value := segment.value, isReranked := segment.isReranked
          boundaryResized }
      changedSegments := changedSegments ++ (native.filter fun segment =>
        segment.isReranked && !(segment.key == key && segment.value == value)).map fun segment =>
          (segment.key, segment.value) }

/-- The segments that an acceptance is projected on, and the probes that were made. -/
def resolveAccepted (converter : ResolvingConverter) (preedit : Preedit) (key value : Bytes) :
    Probes × ZenzReverseLearningProjection :=
  let projection := buildZenzReverseLearningSegmentsFromPreedit preedit key value
  let (probes, resolved) := resolveFrom converter [] projection.projectedSegments []
  if resolved.isEmpty then
    (probes, resolveSequence converter preedit key value projection.changedSegments)
  else (probes, { projection with projectedSegments := resolved })

end LearningResolution

end Mozkey.Session
