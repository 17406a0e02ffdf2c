import Mozkey.Session.PendingFeedback

/-!
# Learning from an accepted correction

`session/session.cc`, the functions that give an accepted correction to the history of the
converter: as segments where its segments are known, as one result where they are not.

`reversible` says that the ids are kept, which is where the program passes `revert_ids`.
-/

namespace Mozkey.Session

open Infra Zenz

namespace FeedbackSession

variable (services : LearningServices) (reversible : Bool)

/-! ## Functions -/

/-- The result says whether something was learned. -/
def maybeLearnZenzCandidateToMozcHistory (key value : Bytes) (s : FeedbackSession) :
    Bool × FeedbackSession :=
  if !s.context.canLearnZenzToMozcHistory then (false, s)
  else if key.isEmpty || value.isEmpty then (false, s)
  else if s.context.inputFieldType == .password then (false, s)
  else if !(evaluateZenzLiveKeyPrivacy key).allow then (false, s)
  else if !(evaluateZenzLiveValuePrivacy value).allow then (false, s)
  else if !reversible then
    (services.learnResult s.journal key value, s.learned (.learnResult key value none))
  else
    let revertId := services.learnResultReversibly s.journal key value
    if revertId = 0 then (false, s.learned (.learnResult key value none))
    else (true, s.learned (.learnResult key value (some revertId)))

/-- The results count the segments that were learned. -/
def maybeLearnZenzReverseSegmentsToMozcHistory :
    List (Bytes × Bytes) → FeedbackSession → Nat × FeedbackSession
  | [], s => (0, s)
  | (key, value) :: segments, s =>
    let (learned, s) := s.maybeLearnZenzCandidateToMozcHistory services reversible key value
    let (count, s) := maybeLearnZenzReverseSegmentsToMozcHistory segments s
    (learned.toNat + count, s)

/-- What is left of a span that the converter refused. -/
def learnReranked : List ExternalConversionSegment → FeedbackSession → Nat × FeedbackSession
  | [], s => (0, s)
  | segment :: segments, s =>
    let (learned, s) :=
      if segment.isReranked then
        s.maybeLearnZenzCandidateToMozcHistory services reversible segment.key segment.value
      else (false, s)
    let (count, s) := learnReranked segments s
    (learned.toNat + count, s)

def learnSpan (externalSpan : List ExternalConversionSegment) (s : FeedbackSession) :
    Bool × FeedbackSession :=
  if !reversible then
    (services.learnSegments s.journal externalSpan, s.learned (.learnSegments externalSpan none))
  else
    let revertId := services.learnSegmentsReversibly s.journal externalSpan
    if revertId = 0 then (false, s.learned (.learnSegments externalSpan none))
    else (true, s.learned (.learnSegments externalSpan (some revertId)))

def hasLearningSignal (externalSpan : List ExternalConversionSegment) : Bool :=
  externalSpan.head?.any (·.boundaryResized) || externalSpan.any (·.isReranked)

def flushSpan (externalSpan : List ExternalConversionSegment) (s : FeedbackSession) :
    Nat × FeedbackSession :=
  if !hasLearningSignal externalSpan then (0, s)
  else
    let (learned, s) := s.learnSpan services reversible externalSpan
    if learned then (externalSpan.length, s)
    else s.learnReranked services reversible externalSpan

end FeedbackSession

/-- A segment that splits a span is not learned. -/
def ZenzProjectedLearningSegment.splits (segment : ZenzProjectedLearningSegment) : Bool :=
  segment.needsNativeResolution || segment.key.isEmpty || segment.value.isEmpty ||
    !(evaluateZenzLiveKeyPrivacy segment.key).allow ||
    !(evaluateZenzLiveValuePrivacy segment.value).allow

def ZenzProjectedLearningSegment.external (segment : ZenzProjectedLearningSegment) :
    ExternalConversionSegment :=
  ⟨segment.key, segment.value, segment.isReranked, segment.boundaryResized⟩

namespace FeedbackSession

variable (services : LearningServices) (reversible : Bool)

/-- The loop over the segments. All segments of a span say the same of its boundary. -/
def learnSpans : List ZenzProjectedLearningSegment → List ExternalConversionSegment → Bool →
    FeedbackSession → Nat × FeedbackSession
  | [], externalSpan, _, s => s.flushSpan services reversible externalSpan
  | segment :: segments, externalSpan, spanBoundaryResized, s =>
    if segment.splits then
      let (flushed, s) := s.flushSpan services reversible externalSpan
      let (count, s) := learnSpans segments [] spanBoundaryResized s
      (flushed + count, s)
    else if !externalSpan.isEmpty && spanBoundaryResized != segment.boundaryResized then
      let (flushed, s) := s.flushSpan services reversible externalSpan
      let (count, s) := learnSpans segments [segment.external] segment.boundaryResized s
      (flushed + count, s)
    else
      learnSpans segments (externalSpan ++ [segment.external])
        (if externalSpan.isEmpty then segment.boundaryResized else spanBoundaryResized) s

def maybeLearnZenzProjectedSegmentsToMozcHistory (segments : List ZenzProjectedLearningSegment)
    (s : FeedbackSession) : Nat × FeedbackSession :=
  if !s.context.canLearnZenzToMozcHistory then (0, s)
  else if s.context.inputFieldType == .password then (0, s)
  else s.learnSpans services reversible segments [] false

/-- What both the commit point and a late confirmation learn of the pending record. -/
def learnPending (s : FeedbackSession) : FeedbackSession :=
  let (projected, s) := s.maybeLearnZenzProjectedSegmentsToMozcHistory services reversible
    s.pendingZenzFeedback.reverseProjectedLearningSegments
  if projected = 0 then
    let (_, s) := s.maybeLearnZenzCandidateToMozcHistory services reversible
      s.pendingZenzFeedback.key s.pendingZenzFeedback.value
    (s.maybeLearnZenzReverseSegmentsToMozcHistory services reversible
      s.pendingZenzFeedback.reverseLearningSegments).2
  else s

def applyPendingZenzAcceptedMozcHistoryLearning (s : FeedbackSession) : FeedbackSession :=
  if !s.pendingZenzFeedback.pending || s.pendingZenzFeedback.action != .accepted ||
      !s.pendingZenzFeedback.mozcHistoryLearningRequested ||
      s.pendingZenzFeedback.mozcHistoryLearningApplied then s
  else
    let s := { s with
      pendingZenzFeedback := { s.pendingZenzFeedback with mozcHistoryLearningApplied := true } }
    if !s.context.canLearnZenzToMozcHistory then s else s.learnPending services true

/-! ## What they do -/

/-- One call of the converter, of public texts and where learning is allowed. -/
inductive LearnMove (s : FeedbackSession) : FeedbackSession → Prop where
  | intro {call : FeedbackCall} :
      s.context.canLearnZenzToMozcHistory = true → call.isLearning = true →
      (∀ text ∈ call.texts, IsPublic text) → (reversible = false → call.handle = none) →
      LearnMove s (s.learned call)

/-- A learning function makes such calls, one after the other. -/
abbrev Learns : FeedbackSession → FeedbackSession → Prop :=
  Relation.ReflTransGen (LearnMove reversible)

variable {services : LearningServices} {reversible : Bool} {s t : FeedbackSession}

theorem Learns.context_eq (h : Learns reversible s t) : t.context = s.context := by
  induction h with
  | refl => rfl
  | tail _ hlast ih =>
    cases hlast
    exact ih

theorem candidate_learns (key value : Bytes) (s : FeedbackSession) :
    Learns reversible s
      (s.maybeLearnZenzCandidateToMozcHistory services reversible key value).2 := by
  unfold maybeLearnZenzCandidateToMozcHistory
  split
  · exact .refl
  · next hlearn =>
    split
    · exact .refl
    · split
      · exact .refl
      · split
        · exact .refl
        · next hkey =>
          split
          · exact .refl
          · next hvalue =>
            simp only [Bool.not_eq_true, Bool.not_eq_false'] at hlearn hkey hvalue
            have hpublic : ∀ handle, ∀ text ∈ (FeedbackCall.learnResult key value handle).texts,
                IsPublic text := by
              rintro handle text htext
              simpa [List.mem_singleton.mp htext] using ⟨hkey, hvalue⟩
            split
            · exact .single ⟨hlearn, rfl, hpublic _, fun _ => rfl⟩
            · next hrev =>
              dsimp only
              split
              · exact .single ⟨hlearn, rfl, hpublic _, fun _ => rfl⟩
              · exact .single ⟨hlearn, rfl, hpublic _, fun h => absurd (by rw [h]; rfl) hrev⟩

theorem reverseSegments_learns : ∀ (segments : List (Bytes × Bytes)) (s : FeedbackSession),
    Learns reversible s
      (s.maybeLearnZenzReverseSegmentsToMozcHistory services reversible segments).2
  | [], _ => .refl
  | (key, value) :: segments, s =>
    (candidate_learns key value s).trans (reverseSegments_learns segments _)

theorem reranked_learns : ∀ (segments : List ExternalConversionSegment) (s : FeedbackSession),
    Learns reversible s (s.learnReranked services reversible segments).2
  | [], _ => .refl
  | segment :: segments, s => by
    have hfirst : Learns reversible s
        (if segment.isReranked then
          s.maybeLearnZenzCandidateToMozcHistory services reversible segment.key segment.value
        else (false, s)).2 := by
      split
      · exact candidate_learns segment.key segment.value s
      · exact .refl
    exact hfirst.trans (reranked_learns segments _)

/-- A span may be learned. -/
def IsPublicSpan (externalSpan : List ExternalConversionSegment) : Prop :=
  ∀ segment ∈ externalSpan, IsPublic (segment.key, segment.value)

theorem span_learns {externalSpan : List ExternalConversionSegment}
    (hlearn : s.context.canLearnZenzToMozcHistory = true) (hspan : IsPublicSpan externalSpan) :
    Learns reversible s (s.learnSpan services reversible externalSpan).2 := by
  have hpublic : ∀ handle, ∀ text ∈ (FeedbackCall.learnSegments externalSpan handle).texts,
      IsPublic text := by
    rintro handle text htext
    obtain ⟨segment, hsegment, rfl⟩ := List.mem_map.mp htext
    exact hspan segment hsegment
  unfold learnSpan
  split
  · exact .single ⟨hlearn, rfl, hpublic _, fun _ => rfl⟩
  · next hrev =>
    dsimp only
    split
    · exact .single ⟨hlearn, rfl, hpublic _, fun _ => rfl⟩
    · exact .single ⟨hlearn, rfl, hpublic _, fun h => absurd (by rw [h]; rfl) hrev⟩

theorem flush_learns {externalSpan : List ExternalConversionSegment}
    (hlearn : s.context.canLearnZenzToMozcHistory = true) (hspan : IsPublicSpan externalSpan) :
    Learns reversible s (s.flushSpan services reversible externalSpan).2 := by
  unfold flushSpan
  split
  · exact .refl
  · dsimp only
    split
    · exact span_learns hlearn hspan
    · exact (span_learns hlearn hspan).trans (reranked_learns externalSpan _)

/-- A segment that does not split a span passes both checks. -/
theorem isPublic_of_splits_eq_false {segment : ZenzProjectedLearningSegment}
    (h : ¬segment.splits = true) : IsPublic (segment.key, segment.value) := by
  simp only [ZenzProjectedLearningSegment.splits, Bool.not_eq_true, Bool.or_eq_false_iff,
    Bool.not_eq_false'] at h
  exact ⟨h.1.2, h.2⟩

theorem spans_learns : ∀ (segments : List ZenzProjectedLearningSegment)
    {externalSpan : List ExternalConversionSegment} {spanBoundaryResized : Bool}
    {s : FeedbackSession}, s.context.canLearnZenzToMozcHistory = true →
    IsPublicSpan externalSpan →
    Learns reversible s
      (s.learnSpans services reversible segments externalSpan spanBoundaryResized).2
  | [], _, _, _, hlearn, hspan => flush_learns hlearn hspan
  | segment :: segments, externalSpan, spanBoundaryResized, s, hlearn, hspan => by
    have hflush := @flush_learns services reversible s externalSpan hlearn hspan
    have hlearn' := hflush.context_eq ▸ hlearn
    unfold learnSpans
    split
    · exact hflush.trans (spans_learns segments hlearn' (by simp [IsPublicSpan]))
    · next hsplits =>
      have hpublic := isPublic_of_splits_eq_false hsplits
      split
      · refine hflush.trans (spans_learns segments hlearn' fun other hother => ?_)
        rw [List.mem_singleton.mp hother]
        exact hpublic
      · refine spans_learns segments hlearn fun other hother => ?_
        rcases List.mem_append.mp hother with hother | hother
        · exact hspan other hother
        · rw [List.mem_singleton.mp hother]
          exact hpublic

theorem projectedSegments_learns (segments : List ZenzProjectedLearningSegment)
    (s : FeedbackSession) :
    Learns reversible s
      (s.maybeLearnZenzProjectedSegmentsToMozcHistory services reversible segments).2 := by
  unfold maybeLearnZenzProjectedSegmentsToMozcHistory
  split
  · exact .refl
  · next hlearn =>
    split
    · exact .refl
    · exact spans_learns segments (by simpa using hlearn) (by simp [IsPublicSpan])

/-- **All that is learned of a pending record is public, and learned where that is allowed.** -/
theorem learnPending_learns (s : FeedbackSession) :
    Learns reversible s (s.learnPending services reversible) := by
  unfold learnPending
  dsimp only
  have hprojected := @projectedSegments_learns services reversible
    s.pendingZenzFeedback.reverseProjectedLearningSegments s
  split
  · exact (hprojected.trans (candidate_learns _ _ _)).trans (reverseSegments_learns _ _)
  · exact hprojected

end FeedbackSession

end Mozkey.Session
