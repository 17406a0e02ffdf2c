import Mozkey.Session.HistoryLearning

/-!
# The spans that are learned

What `MaybeLearnZenzProjectedSegmentsToMozcHistory` of `session/session.cc` hands to the converter.
The segments between two barriers that say the same of their boundary are one span. A span that
the converter refuses is given up but for its reranked segments, which are learned one by one.
-/

namespace Mozkey.Session

open Infra Zenz

/-! ## What is handed over -/

/-- A span that was handed to the converter, whether it was learned, and the segments that were
handed over by themselves after it, each with whether it was learned. -/
structure SpanRecord where
  span : List ZenzProjectedLearningSegment
  learned : Bool
  singles : List (ZenzProjectedLearningSegment × Bool)

namespace SpanRecord

/-- The segments of the span that were learned. -/
def count (record : SpanRecord) : Nat :=
  if record.learned then record.span.length else record.singles.countP (·.2)

/-- No segment of the span is a barrier, all say the same of their boundary, and there is something
to be learned of it. Only the reranked segments of a span that was refused are handed over again. -/
structure IsSound (record : SpanRecord) : Prop where
  resolved : ∀ segment ∈ record.span, segment.needsNativeResolution = false
  nonempty : ∀ segment ∈ record.span, segment.key ≠ [] ∧ segment.value ≠ []
  isPublic : ∀ segment ∈ record.span, IsPublic (segment.key, segment.value)
  uniform : ∃ resized, ∀ segment ∈ record.span, segment.boundaryResized = resized
  signal : ∃ segment ∈ record.span, segment.isReranked = true ∨ segment.boundaryResized = true
  singles : record.singles.map (·.1) =
    if record.learned then [] else record.span.filter (·.isReranked)

end SpanRecord

/-- The spans are runs of the list, one behind the other. -/
inductive SpansOf {α : Type} : List α → List (List α) → Prop where
  | nil {rest : List α} : SpansOf rest []
  | cons {gap span rest : List α} {spans : List (List α)} :
      SpansOf rest spans → SpansOf (gap ++ (span ++ rest)) (span :: spans)

theorem SpansOf.behind {α : Type} {l : List α} {spans : List (List α)} (h : SpansOf l spans)
    (front : List α) : SpansOf (front ++ l) spans := by
  cases h with
  | nil => exact .nil
  | @cons gap span rest spans h =>
    rw [← List.append_assoc]
    exact .cons h

theorem SpansOf.append {α : Type} {l m : List α} {spans more : List (List α)}
    (h : SpansOf l spans) (hmore : SpansOf m more) : SpansOf (l ++ m) (spans ++ more) := by
  induction h with
  | nil => exact hmore.behind _
  | cons _ ih =>
    simpa using .cons ih

namespace FeedbackSession

variable (services : LearningServices) (reversible : Bool)

/-- `LearnExternalConversionSegments`, or its reversible form, is called and answers. -/
inductive SpanCall (s : FeedbackSession) (span : List ExternalConversionSegment) :
    Bool → FeedbackSession → Prop where
  | direct : reversible = false →
      SpanCall s span (services.learnSegments s.journal span) (s.learned (.learnSegments span none))
  | refused : reversible = true → services.learnSegmentsReversibly s.journal span = 0 →
      SpanCall s span false (s.learned (.learnSegments span none))
  | held {revertId : UInt64} : reversible = true →
      services.learnSegmentsReversibly s.journal span = revertId → revertId ≠ 0 →
      SpanCall s span true (s.learned (.learnSegments span (some revertId)))

/-- `LearnExternalConversionResult`, or its reversible form, is called and answers. -/
inductive ResultCall (s : FeedbackSession) (key value : Bytes) : Bool → FeedbackSession → Prop where
  | direct : reversible = false →
      ResultCall s key value (services.learnResult s.journal key value)
        (s.learned (.learnResult key value none))
  | refused : reversible = true → services.learnResultReversibly s.journal key value = 0 →
      ResultCall s key value false (s.learned (.learnResult key value none))
  | held {revertId : UInt64} : reversible = true →
      services.learnResultReversibly s.journal key value = revertId → revertId ≠ 0 →
      ResultCall s key value true (s.learned (.learnResult key value (some revertId)))

/-- Segments are handed over one by one. -/
inductive ResultCalls :
    FeedbackSession → List (ZenzProjectedLearningSegment × Bool) → FeedbackSession → Prop where
  | nil {s : FeedbackSession} : ResultCalls s [] s
  | cons {s t u : FeedbackSession} {segment : ZenzProjectedLearningSegment} {learned : Bool}
      {singles : List (ZenzProjectedLearningSegment × Bool)} :
      ResultCall services reversible s segment.key segment.value learned t →
      ResultCalls t singles u → ResultCalls s ((segment, learned) :: singles) u

/-- The calls of the converter, span by span, and nothing else. -/
inductive SpanCalls : FeedbackSession → List SpanRecord → FeedbackSession → Prop where
  | nil {s : FeedbackSession} : SpanCalls s [] s
  | cons {s t u v : FeedbackSession} {record : SpanRecord} {records : List SpanRecord} :
      SpanCall services reversible s (record.span.map (·.external)) record.learned t →
      ResultCalls services reversible t record.singles u →
      SpanCalls u records v → SpanCalls s (record :: records) v

/-! ## One call -/

variable {services reversible}

variable {s t : FeedbackSession} {records : List SpanRecord}

theorem ResultCall.context_eq {key value : Bytes} {learned : Bool}
    (h : ResultCall services reversible s key value learned t) : t.context = s.context := by
  cases h <;> rfl

theorem ResultCalls.context_eq {singles : List (ZenzProjectedLearningSegment × Bool)}
    (h : ResultCalls services reversible s singles t) : t.context = s.context := by
  induction h with
  | nil => rfl
  | cons hcall _ ih => rw [ih, hcall.context_eq]

theorem SpanCall.context_eq {span : List ExternalConversionSegment} {learned : Bool}
    (h : SpanCall services reversible s span learned t) :
    t.context = s.context := by
  cases h <;> rfl

theorem SpanCalls.context_eq (h : SpanCalls services reversible s records t) :
    t.context = s.context := by
  induction h with
  | nil => rfl
  | cons hspan hsingles _ ih =>
    rw [ih, hsingles.context_eq, hspan.context_eq]

theorem SpanCalls.append {u : FeedbackSession} {more : List SpanRecord}
    (h : SpanCalls services reversible s records t)
    (hmore : SpanCalls services reversible t more u) :
    SpanCalls services reversible s (records ++ more) u := by
  induction h with
  | nil => exact hmore
  | cons hspan hsingles _ ih => exact .cons hspan hsingles (ih hmore)

theorem learnSpan_call (span : List ExternalConversionSegment) (s : FeedbackSession) :
    SpanCall services reversible s span (s.learnSpan services reversible span).1
      (s.learnSpan services reversible span).2 := by
  rw [learnSpan]
  cases reversible with
  | false => exact .direct rfl
  | true =>
    simp only [Bool.not_true, Bool.false_eq_true, if_false]
    split
    · next hzero => exact .refused rfl hzero
    · next hid => exact .held rfl rfl hid

/-- Learning is allowed, and the field is no password. -/
def MayLearn (s : FeedbackSession) : Prop :=
  s.context.canLearnZenzToMozcHistory = true ∧ s.context.inputFieldType ≠ .password

theorem MayLearn.of_context (h : s.MayLearn) (heq : t.context = s.context) : t.MayLearn := by
  rw [MayLearn, heq]
  exact h

/-- No barrier. -/
theorem splits_eq_false {segment : ZenzProjectedLearningSegment} :
    segment.splits = false ↔ segment.needsNativeResolution = false ∧
      (segment.key ≠ [] ∧ segment.value ≠ []) ∧ IsPublic (segment.key, segment.value) := by
  simp [ZenzProjectedLearningSegment.splits, IsPublic, and_assoc]

/-- A segment that is no barrier passes all checks before the call. -/
theorem candidate_call (hs : s.MayLearn) {segment : ZenzProjectedLearningSegment}
    (h : segment.splits = false) :
    ResultCall services reversible s segment.key segment.value
      (s.maybeLearnZenzCandidateToMozcHistory services reversible segment.key segment.value).1
      (s.maybeLearnZenzCandidateToMozcHistory services reversible segment.key segment.value).2 := by
  obtain ⟨-, ⟨hkey, hvalue⟩, hkeyPublic, hvaluePublic⟩ := splits_eq_false.mp h
  rw [maybeLearnZenzCandidateToMozcHistory, hs.1, hkeyPublic, hvaluePublic]
  rw [if_neg (by simp), if_neg (by simp [hkey, hvalue]), if_neg (by simpa using hs.2),
    if_neg (by simp), if_neg (by simp)]
  cases reversible with
  | false => exact .direct rfl
  | true =>
    simp only [Bool.not_true, Bool.false_eq_true, if_false]
    split
    · next hzero => exact .refused rfl hzero
    · next hid => exact .held rfl rfl hid

/-- After a refused span, its reranked segments. -/
theorem learnReranked_calls : ∀ {span : List ZenzProjectedLearningSegment} {s : FeedbackSession},
    s.MayLearn → (∀ segment ∈ span, segment.splits = false) →
    ∃ singles : List (ZenzProjectedLearningSegment × Bool),
      ResultCalls services reversible s singles
        (s.learnReranked services reversible (span.map (·.external))).2 ∧
      singles.map (·.1) = span.filter (·.isReranked) ∧
      (s.learnReranked services reversible (span.map (·.external))).1 = singles.countP (·.2)
  | [], _, _, _ => ⟨[], .nil, rfl, rfl⟩
  | segment :: span, s, hs, h => by
    rw [List.map_cons, learnReranked]
    have htail : ∀ other ∈ span, other.splits = false := (List.forall_mem_cons.mp h).2
    cases hreranked : segment.isReranked with
    | false =>
      have hexternal : segment.external.isReranked = false := hreranked
      obtain ⟨singles, hcalls, hmap, hcount⟩ := learnReranked_calls hs htail
      rw [hexternal]
      refine ⟨singles, hcalls, ?_, ?_⟩
      · rw [List.filter_cons_of_neg (by simp [hreranked]), hmap]
      · simpa [if_false] using hcount
    | true =>
      have hexternal : segment.external.isReranked = true := hreranked
      have hcall : ResultCall services reversible s segment.key segment.value _ _ :=
        candidate_call hs (h segment List.mem_cons_self)
      rw [hexternal, if_pos rfl, show segment.external.key = segment.key from rfl,
        show segment.external.value = segment.value from rfl]
      generalize s.maybeLearnZenzCandidateToMozcHistory services reversible segment.key
        segment.value = result at hcall ⊢
      obtain ⟨learned, t⟩ := result
      obtain ⟨singles, hcalls, hmap, hcount⟩ :=
        learnReranked_calls (hs.of_context hcall.context_eq) htail
      refine ⟨(segment, learned) :: singles, .cons hcall hcalls, ?_, ?_⟩
      · rw [List.filter_cons_of_pos (by simp [hreranked]), List.map_cons, hmap]
      · dsimp only at hcount ⊢
        rw [hcount, List.countP_cons, Nat.add_comm]
        cases learned <;> rfl

/-! ## The loop -/

/-- The segments collected so far can be handed over. -/
structure Collected (span : List ZenzProjectedLearningSegment) (spanBoundaryResized : Bool) :
    Prop where
  noBarrier : ∀ segment ∈ span, segment.splits = false
  uniform : ∀ segment ∈ span, segment.boundaryResized = spanBoundaryResized

theorem collected_nil (spanBoundaryResized : Bool) : Collected [] spanBoundaryResized :=
  ⟨by simp, by simp⟩

theorem Collected.signal {span : List ZenzProjectedLearningSegment} {spanBoundaryResized : Bool}
    (h : Collected span spanBoundaryResized)
    (hsignal : hasLearningSignal (span.map (·.external)) = true) :
    ∃ segment ∈ span, segment.isReranked = true ∨ segment.boundaryResized = true := by
  rw [hasLearningSignal, Bool.or_eq_true] at hsignal
  rcases hsignal with hfirst | hany
  · cases span with
    | nil => cases hfirst
    | cons segment span => exact ⟨segment, List.mem_cons_self, Or.inr hfirst⟩
  · obtain ⟨external, hmem, hreranked⟩ := List.any_eq_true.mp hany
    obtain ⟨segment, hsegment, rfl⟩ := List.mem_map.mp hmem
    exact ⟨segment, hsegment, Or.inl hreranked⟩

/-- What is made of the records of one run. -/
structure Handed (services : LearningServices) (reversible : Bool) (s : FeedbackSession)
    (l : List ZenzProjectedLearningSegment) (records : List SpanRecord)
    (result : Nat × FeedbackSession) : Prop where
  calls : SpanCalls services reversible s records result.2
  spans : SpansOf l (records.map (·.span))
  sound : ∀ record ∈ records, record.IsSound
  count : result.1 = (records.map (·.count)).sum

/-- What is collected is handed over as one span, or not at all. -/
theorem flushSpan_handed {span : List ZenzProjectedLearningSegment} {spanBoundaryResized : Bool}
    (hs : s.MayLearn) (h : Collected span spanBoundaryResized) :
    ∃ records, Handed services reversible s span records
      (s.flushSpan services reversible (span.map (·.external))) := by
  rw [flushSpan]
  cases hsignal : hasLearningSignal (span.map (·.external)) with
  | false => exact ⟨[], .nil, .nil, by simp, rfl⟩
  | true =>
    have hcall : SpanCall services reversible s (span.map (·.external)) _ _ :=
      learnSpan_call (span.map (·.external)) s
    have hbarrier := fun segment hsegment => splits_eq_false.mp (h.noBarrier segment hsegment)
    have hspans : SpansOf span [span] := by
      have hrun : SpansOf ([] ++ (span ++ [])) [span] := .cons .nil
      rwa [List.append_nil] at hrun
    simp only [Bool.not_true, Bool.false_eq_true, if_false]
    split
    · next hlearned =>
      rw [hlearned] at hcall
      refine ⟨[⟨span, true, []⟩], .cons hcall .nil .nil, hspans, ?_, ?_⟩
      · intro record hrecord
        rw [List.mem_singleton.mp hrecord]
        exact ⟨fun segment hsegment => (hbarrier segment hsegment).1,
          fun segment hsegment => (hbarrier segment hsegment).2.1,
          fun segment hsegment => (hbarrier segment hsegment).2.2,
          ⟨spanBoundaryResized, h.uniform⟩, h.signal hsignal, rfl⟩
      · simp [SpanRecord.count]
    · next hrefused =>
      rw [Bool.not_eq_true] at hrefused
      rw [hrefused] at hcall
      obtain ⟨singles, hsingles, hmap, hcount⟩ :=
        learnReranked_calls (hs.of_context hcall.context_eq) h.noBarrier
      refine ⟨[⟨span, false, singles⟩], .cons hcall hsingles .nil, hspans, ?_, ?_⟩
      · intro record hrecord
        rw [List.mem_singleton.mp hrecord]
        exact ⟨fun segment hsegment => (hbarrier segment hsegment).1,
          fun segment hsegment => (hbarrier segment hsegment).2.1,
          fun segment hsegment => (hbarrier segment hsegment).2.2,
          ⟨spanBoundaryResized, h.uniform⟩, h.signal hsignal, hmap⟩
      · simp [SpanRecord.count, hcount]

theorem Handed.append {u : FeedbackSession} {l m : List ZenzProjectedLearningSegment}
    {more : List SpanRecord} {n k : Nat} (h : Handed services reversible s l records (n, t))
    (hmore : Handed services reversible t m more (k, u)) :
    Handed services reversible s (l ++ m) (records ++ more) (n + k, u) where
  calls := h.calls.append hmore.calls
  spans := by
    simpa using h.spans.append hmore.spans
  sound := fun record hrecord =>
    (List.mem_append.mp hrecord).elim (h.sound record) (hmore.sound record)
  count := by
    have hn : n = _ := h.count
    have hk : k = _ := hmore.count
    simp [← hn, ← hk]

theorem Handed.behind {l : List ZenzProjectedLearningSegment} {result : Nat × FeedbackSession}
    (h : Handed services reversible s l records result)
    (front : List ZenzProjectedLearningSegment) :
    Handed services reversible s (front ++ l) records result :=
  { h with spans := h.spans.behind front }

/-- One segment after the other: a barrier and a change of the boundary flag end the span. -/
theorem learnSpans_handed : ∀ (segments : List ZenzProjectedLearningSegment)
    {span : List ZenzProjectedLearningSegment} {spanBoundaryResized : Bool} {s : FeedbackSession},
    s.MayLearn → Collected span spanBoundaryResized →
    ∃ records, Handed services reversible s (span ++ segments) records
      (s.learnSpans services reversible segments (span.map (·.external)) spanBoundaryResized)
  | [], span, _, s, hs, h => by
    rw [List.append_nil]
    exact flushSpan_handed hs h
  | segment :: segments, span, spanBoundaryResized, s, hs, h => by
    have hflush : ∃ records, Handed services reversible s span records
        (s.flushSpan services reversible (span.map (·.external))) := flushSpan_handed hs h
    obtain ⟨flushed, hflushed⟩ := hflush
    have hs' := hs.of_context hflushed.calls.context_eq
    rw [learnSpans]
    split
    · obtain ⟨records, hrecords⟩ := learnSpans_handed segments hs'
        (collected_nil spanBoundaryResized)
      exact ⟨flushed ++ records, hflushed.append (hrecords.behind [segment])⟩
    · next hsplits =>
      rw [Bool.not_eq_true] at hsplits
      split
      · have hsingle : Collected [segment] segment.boundaryResized :=
          ⟨by simpa using hsplits, by simp⟩
        obtain ⟨records, hrecords⟩ := learnSpans_handed segments hs' hsingle
        exact ⟨flushed ++ records, hflushed.append hrecords⟩
      · next hsame =>
        have hmore : Collected (span ++ [segment])
            (if (span.map (·.external)).isEmpty then segment.boundaryResized
              else spanBoundaryResized) := by
          refine ⟨?_, ?_⟩
          · intro other hother
            rcases List.mem_append.mp hother with hother | hother
            · exact h.noBarrier other hother
            · simpa [List.mem_singleton.mp hother] using hsplits
          · intro other hother
            cases span with
            | nil =>
              simp [List.mem_singleton.mp hother]
            | cons first span =>
              simp only [List.map_cons, List.isEmpty_cons, Bool.not_false, Bool.true_and,
                bne_iff_ne, ne_eq, Decidable.not_not] at hsame
              rcases List.mem_append.mp hother with hother | hother
              · exact h.uniform other hother
              · simpa [List.mem_singleton.mp hother] using hsame.symm
        obtain ⟨records, hrecords⟩ := learnSpans_handed segments hs hmore
        rw [List.append_assoc, List.map_append] at hrecords
        exact ⟨records, hrecords⟩

/-- **Projected learning never crosses a barrier.** The converter is called for runs of the list,
each of which is sound, one after the other. A refused run is followed by its reranked segments and
by nothing else. The result counts the segments that were learned. -/
theorem projected_learning_spans (segments : List ZenzProjectedLearningSegment)
    (s : FeedbackSession) :
    ∃ records : List SpanRecord,
      SpanCalls services reversible s records
        (s.maybeLearnZenzProjectedSegmentsToMozcHistory services reversible segments).2 ∧
      SpansOf segments (records.map (·.span)) ∧
      (∀ record ∈ records, record.IsSound) ∧
      (s.maybeLearnZenzProjectedSegmentsToMozcHistory services reversible segments).1 =
        (records.map (·.count)).sum := by
  rw [maybeLearnZenzProjectedSegmentsToMozcHistory]
  split
  · exact ⟨[], .nil, .nil, by simp, rfl⟩
  · next hlearn =>
    split
    · exact ⟨[], .nil, .nil, by simp, rfl⟩
    · next hpassword =>
      have hs : s.MayLearn := ⟨by simpa using hlearn, by simpa using hpassword⟩
      obtain ⟨records, h⟩ := learnSpans_handed segments hs (collected_nil false)
      exact ⟨records, h.calls, h.spans, h.sound, h.count⟩

end FeedbackSession

end Mozkey.Session
