import Mozkey.Session.LearningResolution

/-!
# What is learned is what was accepted

The resolution of `SetPendingZenzFeedbackAccepted` puts a changed range of an island in the place
of itself or of what the converter finds for its text. Everything else is carried over, so that the
text of the whole is the accepted one.

## Main results

* `accepted_learning_conserves` — the segments that are kept for learning are the accepted text
-/

namespace Mozkey.Session

open Infra Zenz

namespace LearningResolution

/-! ## Carrying over -/

/-- A resolution of the converter is a partition of what was asked for. -/
def ResolvesText (converter : ResolvingConverter) : Prop :=
  ∀ key value native, converter.resolveExternalConversionSegments key value = some native →
    native.flatMap (·.key) = key ∧ native.flatMap (·.value) = value

/-- From a changed segment of an island to a changed segment of the same island. -/
structure ChangedRange (span : List ZenzProjectedLearningSegment) : Prop where
  learnable : ∀ projected ∈ span, isProjectedSegmentLearnable projected = true
  first : ∃ projected rest, span = projected :: rest ∧ isChanged projected = true
  last : ∃ front projected, span = front ++ [projected] ∧ isChanged projected = true

/-- Segment by segment with the same key and value, but for changed ranges, of which the text is
the same. -/
inductive Carried :
    List ZenzProjectedLearningSegment → List ZenzProjectedLearningSegment → Prop where
  | nil : Carried [] []
  | kept {old new : ZenzProjectedLearningSegment} {rest out : List ZenzProjectedLearningSegment} :
      new.key = old.key → new.value = old.value → Carried rest out →
      Carried (old :: rest) (new :: out)
  | resolved {span new rest out : List ZenzProjectedLearningSegment} :
      ChangedRange span → new.flatMap (·.key) = span.flatMap (·.key) →
      new.flatMap (·.value) = span.flatMap (·.value) → Carried rest out →
      Carried (span ++ rest) (new ++ out)

theorem Carried.append {a b c d : List ZenzProjectedLearningSegment} (h : Carried a b)
    (h' : Carried c d) : Carried (a ++ c) (b ++ d) := by
  induction h with
  | nil => exact h'
  | kept hkey hvalue _ ih => exact .kept hkey hvalue ih
  | resolved hrange hkey hvalue _ ih =>
    simpa using .resolved hrange hkey hvalue ih

theorem Carried.refl : ∀ l : List ZenzProjectedLearningSegment, Carried l l
  | [] => .nil
  | _ :: rest => .kept rfl rfl (Carried.refl rest)

theorem Carried.texts {old new : List ZenzProjectedLearningSegment} (h : Carried old new) :
    new.flatMap (·.key) = old.flatMap (·.key) ∧ new.flatMap (·.value) = old.flatMap (·.value) := by
  induction h with
  | nil => exact ⟨rfl, rfl⟩
  | kept hkey hvalue _ ih =>
    simp [hkey, hvalue, ih.1, ih.2]
  | resolved _ hkey hvalue _ ih =>
    simp [hkey, hvalue, ih.1, ih.2]

theorem Carried.ne_nil {old new : List ZenzProjectedLearningSegment} (h : Carried old new)
    (hne : old.flatMap (·.key) ≠ []) : new ≠ [] := by
  rintro rfl
  exact hne h.texts.1.symm

/-! ## Questions to the converter -/

theorem flatMap_of_map_eq {α β : Type} {f : α → Bytes × Bytes} {g : β → Bytes × Bytes} :
    ∀ {l : List α} {m : List β}, l.map f = m.map g →
    l.flatMap (fun a => (f a).1) = m.flatMap (fun b => (g b).1) ∧
      l.flatMap (fun a => (f a).2) = m.flatMap fun b => (g b).2
  | l, m, h => by
    have h1 := congrArg (List.flatMap Prod.fst) h
    have h2 := congrArg (List.flatMap Prod.snd) h
    rw [List.flatMap_map, List.flatMap_map] at h1 h2
    exact ⟨h1, h2⟩

theorem zipWith_segments : ∀ {evaluated : List ExternalConversionSegment}
    {span : List ZenzProjectedLearningSegment}, evaluated.length = span.length →
    (List.zipWith (fun (segment : ExternalConversionSegment)
      (projected : ZenzProjectedLearningSegment) =>
        ({ key := segment.key, value := segment.value
           isReranked := segment.isReranked || projected.isReranked } :
          ZenzProjectedLearningSegment)) evaluated span).map
        (fun projected => (projected.key, projected.value)) =
      evaluated.map fun segment => (segment.key, segment.value)
  | [], [], _ => rfl
  | [], _ :: _, h => by cases h
  | _ :: _, [], h => by cases h
  | segment :: evaluated, projected :: span, h => by
    simp [zipWith_segments (Nat.succ.inj h)]

theorem fixedBoundaryResolution_texts {converter : ResolvingConverter}
    {span out : List ZenzProjectedLearningSegment}
    (h : fixedBoundaryResolution converter span = some out) :
    out.flatMap (·.key) = span.flatMap (·.key) ∧
      out.flatMap (·.value) = span.flatMap (·.value) := by
  unfold fixedBoundaryResolution at h
  split at h
  · cases h
  · split at h
    · cases h
    · next evaluated _ =>
      split at h
      · next hreproduces =>
        cases h
        rw [reproduces, Bool.and_eq_true, beq_iff_eq] at hreproduces
        have hlength : evaluated.length = span.length := by
          have hl := congrArg List.length hreproduces.1
          simpa using hl
        exact flatMap_of_map_eq ((zipWith_segments hlength).trans hreproduces.1)
      · cases h

theorem nativeResegmentation_texts {converter : ResolvingConverter} (hconverter :
    ResolvesText converter) {span out : List ZenzProjectedLearningSegment}
    (h : nativeResegmentation converter span = some out) :
    out.flatMap (·.key) = span.flatMap (·.key) ∧
      out.flatMap (·.value) = span.flatMap (·.value) := by
  unfold nativeResegmentation at h
  split at h
  · cases h
  · next native hnative =>
    split at h
    · cases h
    · rw [Option.some.injEq] at h
      obtain ⟨hkey, hvalue⟩ := hconverter _ _ native hnative
      have htexts : out.map (fun projected => (projected.key, projected.value))
          = native.map fun segment => (segment.key, segment.value) := by
        rw [← h, List.map_map]
        conv_rhs => rw [← List.zipIdx_map_fst 0 native, List.map_map]
        rfl
      rw [← hkey, ← hvalue]
      exact flatMap_of_map_eq htexts

theorem appendNativeResolution_texts {converter : ResolvingConverter} (hconverter :
    ResolvesText converter) {span out : List ZenzProjectedLearningSegment}
    (h : appendNativeResolution converter span = some out) :
    out.flatMap (·.key) = span.flatMap (·.key) ∧
      out.flatMap (·.value) = span.flatMap (·.value) := by
  unfold appendNativeResolution at h
  split at h
  · cases h
  · split at h
    · next hfixed =>
      rw [Option.some.injEq] at h
      exact fixedBoundaryResolution_texts (h ▸ hfixed)
    · exact nativeResegmentation_texts hconverter h

theorem hardened_carried : ∀ l : List ZenzProjectedLearningSegment, Carried l (hardened l)
  | [] => .nil
  | [_] => .kept rfl rfl .nil
  | _ :: next :: rest => .kept rfl rfl (hardened_carried (next :: rest))

/-- A probe is made only while there is budget for it. -/
theorem hardening_spec (converter : ResolvingConverter)
    (evaluationFront island : List ZenzProjectedLearningSegment) {probes : Probes}
    (hprobes : probes.length ≤ kMaxContextLossProbesPerAcceptedFeedback) :
    (appendContextLossHardening converter evaluationFront island probes).1.length ≤
        kMaxContextLossProbesPerAcceptedFeedback ∧
      ∀ out, (appendContextLossHardening converter evaluationFront island probes).2 = some out →
        out = hardened island := by
  unfold appendContextLossHardening
  split
  · exact ⟨hprobes, fun out h => by cases h⟩
  · split
    · exact ⟨hprobes, fun out h => by cases h⟩
    · split
      · exact ⟨hprobes, fun out h => by cases h⟩
      · next hbudget =>
        have hmore : ∀ question : List ExternalConversionSegment,
            (question :: probes).length ≤ kMaxContextLossProbesPerAcceptedFeedback := by
          intro question
          simp
          omega
        dsimp only
        split
        · exact ⟨hmore _, fun out h => by cases h⟩
        · split
          · exact ⟨hmore _, fun out h => by cases h⟩
          · split
            · exact ⟨hmore _, fun out h => by cases h⟩
            · exact ⟨hmore _, fun out h => (Option.some.inj h).symm⟩

/-! ## Islands -/

theorem unresolvedUnit_text (projected : ZenzProjectedLearningSegment) :
    (unresolvedUnit projected).key = projected.key ∧
      (unresolvedUnit projected).value = projected.value := by
  unfold unresolvedUnit
  split <;> exact ⟨rfl, rfl⟩

theorem resolveUnits_carried {converter : ResolvingConverter} (hconverter :
    ResolvesText converter) (single : Bool) : ∀ {span : List ZenzProjectedLearningSegment},
    (∀ projected ∈ span, isProjectedSegmentLearnable projected = true) →
    Carried span (resolveUnits converter single span)
  | [], _ => .nil
  | projected :: span, h => by
    have htail := resolveUnits_carried hconverter single (List.forall_mem_cons.mp h).2
    have hunit : Carried [projected] [unresolvedUnit projected] :=
      .kept (unresolvedUnit_text projected).1 (unresolvedUnit_text projected).2 .nil
    rw [resolveUnits, List.flatMap_cons]
    refine @Carried.append [projected] _ _ _ ?_ htail
    split
    · next htry =>
      rw [Bool.and_eq_true] at htry
      cases hresolved : appendNativeResolution converter [projected] with
      | none => exact hunit
      | some out =>
        obtain ⟨hkey, hvalue⟩ := appendNativeResolution_texts hconverter hresolved
        have hchanged : isChanged projected = true := by
          simp [isChanged, htry.1]
        have hrange : ChangedRange [projected] := by
          refine ⟨fun other hother => ?_, ⟨projected, [], rfl, hchanged⟩,
            ⟨[], projected, rfl, hchanged⟩⟩
          rw [List.mem_singleton.mp hother]
          exact h projected List.mem_cons_self
        have hcarried := Carried.resolved hrange hkey hvalue .nil
        simpa using hcarried
    · exact hunit

/-- The first and the last changed segment of an island enclose its changed range. -/
theorem exists_changedRange {island : List ZenzProjectedLearningSegment} {first fromEnd : Nat}
    (hlearnable : ∀ projected ∈ island, isProjectedSegmentLearnable projected = true)
    (hfirst : island.findIdx? isChanged = some first)
    (hlast : island.reverse.findIdx? isChanged = some fromEnd) :
    ∃ front span tail, island = front ++ span ++ tail ∧ ChangedRange span ∧
      front = island.take first ∧
      span = (island.drop first).take (island.length - 1 - fromEnd - first + 1) ∧
      tail = island.drop (island.length - 1 - fromEnd + 1) := by
  obtain ⟨hfirstLt, hfirstChanged, hbefore⟩ := List.findIdx?_eq_some_iff_getElem.mp hfirst
  obtain ⟨hendLt, hlastChanged, -⟩ := List.findIdx?_eq_some_iff_getElem.mp hlast
  rw [List.length_reverse] at hendLt
  rw [List.getElem_reverse] at hlastChanged
  set last := island.length - 1 - fromEnd with hlastEq
  have hle : first ≤ last := by
    by_contra hlt
    exact hbefore last (by omega) hlastChanged
  have hlastLt : last < island.length := by omega
  refine ⟨_, _, _, ?_, ⟨?_, ?_, ?_⟩, rfl, rfl, rfl⟩
  · have hdrop : island.drop (last + 1) = (island.drop first).drop (last - first + 1) := by
      rw [List.drop_drop]
      congr 1
      omega
    simp [hdrop]
  · intro projected hmem
    exact hlearnable projected (List.mem_of_mem_drop (List.mem_of_mem_take hmem))
  · refine ⟨island[first], (island.drop (first + 1)).take (last - first), ?_, hfirstChanged⟩
    rw [List.drop_eq_getElem_cons hfirstLt, List.take_succ_cons]
  · refine ⟨(island.drop first).take (last - first), island[last], ?_, hlastChanged⟩
    have hlength : last - first < (island.drop first).length := by
      simp
      omega
    rw [List.take_succ_eq_append_getElem hlength, List.getElem_drop]
    congr 3
    omega

theorem resolveIsland_carried {converter : ResolvingConverter} (hconverter :
    ResolvesText converter) (before behind : List ZenzProjectedLearningSegment)
    {island : List ZenzProjectedLearningSegment} {probes : Probes}
    (hlearnable : ∀ projected ∈ island, isProjectedSegmentLearnable projected = true)
    (hprobes : probes.length ≤ kMaxContextLossProbesPerAcceptedFeedback) :
    Carried island (resolveIsland converter before island behind probes).2 ∧
      (resolveIsland converter before island behind probes).1.length ≤
        kMaxContextLossProbesPerAcceptedFeedback := by
  unfold resolveIsland
  split
  · next first fromEnd hfirst hlast =>
    obtain ⟨front, span, tail, hisland, hrange, hfront, hspan, htail⟩ :=
      exists_changedRange hlearnable hfirst hlast
    dsimp only
    rw [← hfront, ← hspan, ← htail]
    refine ⟨?_, hprobes⟩
    conv_lhs => rw [hisland]
    refine ((Carried.refl front).append ?_).append (Carried.refl tail)
    split
    · next resolved hresolved =>
      obtain ⟨hkey, hvalue⟩ := appendNativeResolution_texts hconverter hresolved
      have hcarried := Carried.resolved hrange hkey hvalue .nil
      simpa using hcarried
    · exact resolveUnits_carried hconverter _ hrange.learnable
  · split
    · exact ⟨Carried.refl island, hprobes⟩
    · obtain ⟨hbudget, hout⟩ := hardening_spec converter (before ++ island) island hprobes
      dsimp only
      refine ⟨?_, hbudget⟩
      cases hresolved :
        (appendContextLossHardening converter (before ++ island) island probes).2 with
      | none => exact Carried.refl island
      | some out =>
        simpa [hout out hresolved] using hardened_carried island

/-- **Separators and unchanged segments are carried over, and changed ranges keep their text.** -/
theorem resolveFrom_carried {converter : ResolvingConverter} (hconverter :
    ResolvesText converter) (before rest : List ZenzProjectedLearningSegment) {probes : Probes}
    (hprobes : probes.length ≤ kMaxContextLossProbesPerAcceptedFeedback) :
    Carried rest (resolveFrom converter before rest probes).2 ∧
      (resolveFrom converter before rest probes).1.length ≤
        kMaxContextLossProbesPerAcceptedFeedback := by
  cases rest with
  | nil =>
    rw [resolveFrom]
    exact ⟨.nil, hprobes⟩
  | cons projected rest =>
    rw [resolveFrom]
    split
    · have ih := resolveFrom_carried hconverter (before ++ [projected]) rest hprobes
      exact ⟨.kept rfl rfl ih.1, ih.2⟩
    · next hprojected =>
      rw [Bool.not_eq_true, Bool.not_eq_false'] at hprojected
      have hlearnable : ∀ other ∈ projected :: rest.takeWhile isProjectedSegmentLearnable,
          isProjectedSegmentLearnable other = true := by
        intro other hother
        rcases List.mem_cons.mp hother with rfl | hother
        · exact hprojected
        · exact List.mem_takeWhile_imp hother
      have hshort : (rest.dropWhile isProjectedSegmentLearnable).length < rest.length + 1 := by
        have hle := (List.dropWhile_sublist (l := rest) isProjectedSegmentLearnable).length_le
        omega
      obtain ⟨hisland, hbudget⟩ := resolveIsland_carried hconverter before
        (rest.dropWhile isProjectedSegmentLearnable) hlearnable hprobes
      have ih := resolveFrom_carried hconverter
        (before ++ projected :: rest.takeWhile isProjectedSegmentLearnable)
        (rest.dropWhile isProjectedSegmentLearnable) hbudget
      refine ⟨?_, ih.2⟩
      conv_lhs => rw [← List.takeWhile_append_dropWhile (p := isProjectedSegmentLearnable)
        (l := rest), ← List.cons_append]
      exact hisland.append ih.1
termination_by rest.length

/-! ## The accepted text -/

/-- A projection is one of the whole key and the whole value. -/
theorem build_texts {preedit : Preedit} {fullKey fullValue : Bytes}
    (h : (buildZenzReverseLearningSegmentsFromPreedit preedit fullKey fullValue).projectedSegments ≠
      []) :
    (buildZenzReverseLearningSegmentsFromPreedit preedit fullKey
        fullValue).projectedSegments.flatMap
        (·.key) = fullKey ∧
      (buildZenzReverseLearningSegmentsFromPreedit preedit fullKey
        fullValue).projectedSegments.flatMap (·.value) = fullValue := by
  unfold buildZenzReverseLearningSegmentsFromPreedit at h ⊢
  cases hproject : projectZenzValueToMozcSegments (buildZenzBaselineSegmentsFromPreedit preedit)
      fullKey fullValue with
  | none =>
    simp [hproject] at h
  | some segments =>
    obtain ⟨_, -, -, hreconstructs⟩ := project_some hproject
    rw [SegmentProjection.reconstructs, Bool.and_eq_true, Bool.and_eq_true] at hreconstructs
    dsimp only
    rw [List.flatMap_map, List.flatMap_map]
    exact ⟨eq_of_beq hreconstructs.1.2, eq_of_beq hreconstructs.2⟩

theorem key_ne_nil {preedit : Preedit} {fullKey fullValue : Bytes}
    (h : (buildZenzReverseLearningSegmentsFromPreedit preedit fullKey fullValue).projectedSegments ≠
      []) : fullKey ≠ [] := by
  rintro rfl
  refine h ?_
  have hnone : projectZenzValueToMozcSegments (buildZenzBaselineSegmentsFromPreedit preedit) []
      fullValue = none := by
    rw [projectZenzValueToMozcSegments, if_pos (by simp)]
  rw [buildZenzReverseLearningSegmentsFromPreedit, hnone]

/-- What is kept for learning of a projection that is there. -/
theorem resolveAccepted_carried {converter : ResolvingConverter} (hconverter :
    ResolvesText converter) {preedit : Preedit} {key value : Bytes}
    (h : (buildZenzReverseLearningSegmentsFromPreedit preedit key value).projectedSegments ≠ []) :
    Carried (buildZenzReverseLearningSegmentsFromPreedit preedit key value).projectedSegments
        (resolveAccepted converter preedit key value).2.projectedSegments ∧
      (resolveAccepted converter preedit key value).1.length ≤
        kMaxContextLossProbesPerAcceptedFeedback := by
  have hprobes : ([] : Probes).length ≤ kMaxContextLossProbesPerAcceptedFeedback := Nat.zero_le _
  obtain ⟨hcarried, hbudget⟩ := resolveFrom_carried hconverter []
    (buildZenzReverseLearningSegmentsFromPreedit preedit key value).projectedSegments hprobes
  have hne := hcarried.ne_nil (by rw [(build_texts h).1]; exact key_ne_nil h)
  unfold resolveAccepted
  dsimp only
  rw [if_neg (by simpa using hne)]
  exact ⟨hcarried, hbudget⟩

end LearningResolution

namespace FeedbackSession

open LearningResolution

/-- `reverse_projected_learning_segments` after `SetPendingZenzFeedbackAccepted`. -/
def acceptedSegments (services : LearningServices) (converter : ResolvingConverter)
    (preedit : Preedit) (key contextClass value : Bytes) (s : FeedbackSession) :
    List ZenzProjectedLearningSegment :=
  (s.setPendingZenzFeedbackAccepted services (resolveAccepted converter preedit key value).2 key
    contextClass value).pendingZenzFeedback.reverseProjectedLearningSegments

variable (services : LearningServices) {converter : ResolvingConverter} {preedit : Preedit}
  {key value : Bytes} (contextClass : Bytes) {s : FeedbackSession}

theorem acceptedSegments_eq (h : s.preparesAcceptance key value = true)
    (hlearn : s.context.canLearnZenzToMozcHistory = true) :
    s.acceptedSegments services converter preedit key contextClass value =
      (resolveAccepted converter preedit key value).2.projectedSegments := by
  unfold acceptedSegments setPendingZenzFeedbackAccepted
  simp only [h, hlearn, Bool.not_true, Bool.false_eq_true, if_false]
  split <;> rfl

theorem acceptedSegments_unchanged (h : ¬(s.preparesAcceptance key value = true ∧
    s.context.canLearnZenzToMozcHistory = true)) :
    s.acceptedSegments services converter preedit key contextClass value =
      s.pendingZenzFeedback.reverseProjectedLearningSegments := by
  unfold acceptedSegments setPendingZenzFeedbackAccepted
  split
  · rfl
  · next hprepares =>
    rw [Bool.not_eq_true, Bool.not_eq_false'] at hprepares
    dsimp only
    split
    · rfl
    · next hlearn =>
      rw [Bool.not_eq_true, Bool.not_eq_false'] at hlearn
      exact absurd ⟨hprepares, hlearn⟩ h

/-- **The segments that are kept for learning are the accepted text.** Every segment outside the
changed ranges is carried over with its key and value, and what is put in the place of a changed
range has its text. Where nothing may be learned the segments stay what they were. -/
theorem accepted_learning_conserves (s : FeedbackSession) (hconverter : ResolvesText converter)
    (hprojection :
      (buildZenzReverseLearningSegmentsFromPreedit preedit key value).projectedSegments ≠ []) :
    (s.preparesAcceptance key value = true ∧ s.context.canLearnZenzToMozcHistory = true →
      (s.acceptedSegments services converter preedit key contextClass value).flatMap (·.key) = key ∧
      (s.acceptedSegments services converter preedit key contextClass value).flatMap (·.value) =
        value ∧
      Carried (buildZenzReverseLearningSegmentsFromPreedit preedit key value).projectedSegments
        (s.acceptedSegments services converter preedit key contextClass value)) ∧
    (¬(s.preparesAcceptance key value = true ∧ s.context.canLearnZenzToMozcHistory = true) →
      s.acceptedSegments services converter preedit key contextClass value =
        s.pendingZenzFeedback.reverseProjectedLearningSegments) ∧
    (resolveAccepted converter preedit key value).1.length ≤ 2 := by
  obtain ⟨hcarried, hbudget⟩ := resolveAccepted_carried hconverter hprojection
  refine ⟨fun ⟨hprepares, hlearn⟩ => ?_, acceptedSegments_unchanged services contextClass, hbudget⟩
  rw [acceptedSegments_eq services contextClass hprepares hlearn]
  obtain ⟨hkeys, hvalues⟩ := hcarried.texts
  obtain ⟨hkey, hvalue⟩ := build_texts hprojection
  exact ⟨hkeys.trans hkey, hvalues.trans hvalue, hcarried⟩

/-- A converter that takes what it is asked for to be one segment. -/
def oneSegment : ResolvingConverter where
  evaluateExternalConversionSegments segments := some segments
  resolveExternalConversionSegments key value := some [{ key, value, isReranked := true }]

theorem oneSegment_resolvesText : ResolvesText oneSegment := by
  intro key value native h
  rw [← Option.some.inj h]
  exact ⟨List.append_nil key, List.append_nil value⟩

def learningOnly : FeedbackSession :=
  { context := { config := { useZenzMozcHistoryLearning := true } } }

def answering : LearningServices where
  recordAccepted := fun _ _ _ _ => true
  learnResult := fun _ _ _ => true
  learnResultReversibly := fun _ _ _ => 1
  learnSegments := fun _ _ => true
  learnSegmentsReversibly := fun _ _ => 1

/-- A changed segment, and one that stays. -/
theorem accepted_learning_conserves_phenomenon :
    (learningOnly.acceptedSegments answering oneSegment
      [Preedit.newSegment (utf8 "げんしょう") (utf8 "減少") .highlight,
        Preedit.newSegment (utf8 "を") (utf8 "を") .underline]
      (utf8 "げんしょうを") [] (utf8 "現象を")).flatMap (·.value) = utf8 "現象を" :=
  ((accepted_learning_conserves answering [] learningOnly oneSegment_resolvesText
    (by decide +kernel)).1 (by decide +kernel)).2.1

end FeedbackSession

end Mozkey.Session
