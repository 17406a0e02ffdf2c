import Mozkey.Zenz.AdoptionStep
import Mozkey.Zenz.ProjectionCoverage

/-!
# The orthography of an accepted value

The orthography is evaluated segment by segment when the projection succeeds, and for the whole
value when it does not. An alphabetic run or a technical token is a maximal stretch, so one that
reaches over the border of two segments is not the same for the whole value as for its
segments.

* Within the segments nothing is lost: what is adopted of a segment has the runs and tokens of
  its Mozc value (`adoptedPiece_allowed`).
* So the whole value is allowed if and only if the runs and tokens that cross a border balance
  against their fragments (`evaluate_adoptedPieces_iff`).
-/

namespace Mozkey.Zenz.AdoptionPolicy

open Infra Base OrthographyPolicy SegmentProjection

variable {input : ZenzAdoptionInput}

/-! ## The pieces of an accepted value -/

/-- What is adopted of a segment. -/
def adoptedPiece (segment : ZenzProjectedSegment) : Bytes :=
  if segment.changed && !(evaluate segment.mozcValue segment.zenzValue).allow then
    segment.mozcValue
  else segment.zenzValue

theorem repairOrthography_pieces : ∀ {segments : List ZenzProjectedSegment} {value : Bytes}
    {repaired : Bool}, repairOrthography segments = some (value, repaired) →
    value = segments.flatMap adoptedPiece
  | [], value, repaired, h => by
    rw [repairOrthography, Option.some.injEq, Prod.mk.injEq] at h
    exact h.1.symm
  | segment :: rest, value, repaired, h => by
    rw [repairOrthography] at h
    rw [List.flatMap_cons]
    split at h
    · next hkeep =>
      obtain ⟨⟨tail, r⟩, hrest, hv⟩ := Option.map_eq_some_iff.mp h
      rw [Prod.mk.injEq] at hv
      have hpiece : adoptedPiece segment = segment.zenzValue := by
        refine if_neg ?_
        rw [Bool.or_eq_true, Bool.not_eq_true'] at hkeep
        rcases hkeep with hkeep | hkeep <;> simp [hkeep]
      rw [hpiece, ← repairOrthography_pieces hrest]
      exact hv.1.symm
    · next hback =>
      split at h
      · cases h
      · obtain ⟨⟨tail, r⟩, hrest, hv⟩ := Option.map_eq_some_iff.mp h
        rw [Prod.mk.injEq] at hv
        have hpiece : adoptedPiece segment = segment.mozcValue := by
          refine if_pos ?_
          rw [Bool.or_eq_true, not_or, Bool.not_eq_true', Bool.not_eq_false] at hback
          simp [hback]
        rw [hpiece, ← repairOrthography_pieces hrest]
        exact hv.1.symm

/-- A piece is the output of the segment, allowed, or its Mozc value. -/
theorem adoptedPiece_allowed {segments : List ZenzProjectedSegment} {value : Bytes}
    (hcov : Covers segments value) {s : ZenzProjectedSegment} (hs : s ∈ segments) :
    (evaluate s.mozcValue (adoptedPiece s)).allow = true := by
  have hself : (evaluate s.mozcValue s.mozcValue).allow = true := by
    rw [evaluate_allow_iff]
    have hvalid := (hcov.unicode s hs).1
    exact ⟨hvalid, hvalid, .refl _, .refl _⟩
  unfold adoptedPiece
  split
  · exact hself
  · next hkeep =>
    cases hc : s.changed with
    | false =>
      rw [hcov.unchanged s hs hc]
      exact hself
    | true =>
      simpa [hc] using hkeep

/-! ## Runs and tokens across borders -/

def crossingAlphabetRuns (pieces : List Bytes) : List Bytes :=
  (crossingRuns isAlphabet (pieces.map utf8ToUtf32)).map fun run => run.flatMap codepointToUtf8

def cutAlphabetRuns (pieces : List Bytes) : List Bytes :=
  (cutRuns isAlphabet (pieces.map utf8ToUtf32)).map fun run => run.flatMap codepointToUtf8

def crossingTechnicalTokens (pieces : List Bytes) : List Bytes :=
  (crossingRuns isAsciiTechnicalTokenChar pieces).filter hasAsciiLetter

def cutTechnicalTokens (pieces : List Bytes) : List Bytes :=
  (cutRuns isAsciiTechnicalTokenChar pieces).filter hasAsciiLetter

/-- The runs that cross a border and the fragments that the pieces have of them balance. -/
structure BordersBalance (baseline adopted : List Bytes) : Prop where
  alphabetRuns : (crossingAlphabetRuns baseline ++ cutAlphabetRuns adopted).Perm
    (crossingAlphabetRuns adopted ++ cutAlphabetRuns baseline)
  technicalTokens : (crossingTechnicalTokens baseline ++ cutTechnicalTokens adopted).Perm
    (crossingTechnicalTokens adopted ++ cutTechnicalTokens baseline)

instance (baseline adopted : List Bytes) : Decidable (BordersBalance baseline adopted) :=
  decidable_of_iff
    ((crossingAlphabetRuns baseline ++ cutAlphabetRuns adopted).Perm
        (crossingAlphabetRuns adopted ++ cutAlphabetRuns baseline) ∧
      (crossingTechnicalTokens baseline ++ cutTechnicalTokens adopted).Perm
        (crossingTechnicalTokens adopted ++ cutTechnicalTokens baseline))
    ⟨fun h => ⟨h.1, h.2⟩, fun h => ⟨h.alphabetRuns, h.technicalTokens⟩⟩

/-! ## Pieces with the same runs and tokens -/

variable {segments : List ZenzProjectedSegment} {f g : ZenzProjectedSegment → Bytes}

theorem alphabetRuns_perm_iff (hf : ∀ s ∈ segments, isValidUtf8 (f s) = true)
    (hg : ∀ s ∈ segments, isValidUtf8 (g s) = true)
    (h : ∀ s ∈ segments, (extractAlphabetRuns (f s)).Perm (extractAlphabetRuns (g s))) :
    (extractAlphabetRuns (segments.flatMap f)).Perm (extractAlphabetRuns (segments.flatMap g)) ↔
      (crossingAlphabetRuns (segments.map f) ++ cutAlphabetRuns (segments.map g)).Perm
        (crossingAlphabetRuns (segments.map g) ++ cutAlphabetRuns (segments.map f)) := by
  let encodeRun : List Nat → Bytes := fun run => run.flatMap codepointToUtf8
  have hpoints : ∀ {e : ZenzProjectedSegment → Bytes}, (∀ s ∈ segments, isValidUtf8 (e s) = true) →
      utf8ToUtf32 (segments.flatMap e) = ((segments.map e).map utf8ToUtf32).flatten := by
    intro e he
    rw [List.flatMap_def, ← List.flatMap_def]
    refine (walk_flatten fun t ht => ?_).2
    obtain ⟨s, hs, rfl⟩ := List.mem_map.mp ht
    exact he s hs
  have hpieces : ∀ e : ZenzProjectedSegment → Bytes,
      (((segments.map e).map utf8ToUtf32).flatMap (runs isAlphabet)).filterMap (some ∘ encodeRun)
        = segments.flatMap fun s => extractAlphabetRuns (e s) := by
    intro e
    rw [List.filterMap_eq_map, List.map_flatMap, List.flatMap_map, List.flatMap_map]
    rfl
  have hperm := perm_runs_iff (p := isAlphabet) (some ∘ encodeRun)
    (a := (segments.map f).map utf8ToUtf32) (b := (segments.map g).map utf8ToUtf32)
    (by rw [hpieces, hpieces]; exact List.Perm.flatMap_left segments h)
  rw [← hpoints hf, ← hpoints hg, List.filterMap_eq_map, List.map_append, List.map_append] at hperm
  exact hperm

theorem technicalTokens_perm_iff
    (h : ∀ s ∈ segments,
      (extractAsciiTechnicalTokens (f s)).Perm (extractAsciiTechnicalTokens (g s))) :
    (extractAsciiTechnicalTokens (segments.flatMap f)).Perm
        (extractAsciiTechnicalTokens (segments.flatMap g)) ↔
      (crossingTechnicalTokens (segments.map f) ++ cutTechnicalTokens (segments.map g)).Perm
        (crossingTechnicalTokens (segments.map g) ++ cutTechnicalTokens (segments.map f)) := by
  have hpieces : ∀ e : ZenzProjectedSegment → Bytes,
      ((segments.map e).flatMap (runs isAsciiTechnicalTokenChar)).filterMap
          (Option.guard hasAsciiLetter)
        = segments.flatMap fun s => extractAsciiTechnicalTokens (e s) := by
    intro e
    rw [List.filterMap_eq_filter, List.filter_flatMap, List.flatMap_map]
    rfl
  have hperm := perm_runs_iff (p := isAsciiTechnicalTokenChar) (Option.guard hasAsciiLetter)
    (a := segments.map f) (b := segments.map g)
    (by rw [hpieces, hpieces]; exact List.Perm.flatMap_left segments h)
  rw [List.filterMap_eq_filter, List.filter_append, List.filter_append] at hperm
  rw [List.flatMap_def, List.flatMap_def]
  exact hperm

/-- **The whole value against its pieces.** -/
theorem evaluate_adoptedPieces_iff {value : Bytes} (hcov : Covers segments value) :
    (evaluate value (segments.flatMap adoptedPiece)).allow = true ↔
      BordersBalance (segments.map (·.mozcValue)) (segments.map adoptedPiece) := by
  have hallowed : ∀ s ∈ segments, isValidUtf8 (adoptedPiece s) = true ∧
      (extractAlphabetRuns s.mozcValue).Perm (extractAlphabetRuns (adoptedPiece s)) ∧
      (extractAsciiTechnicalTokens s.mozcValue).Perm
        (extractAsciiTechnicalTokens (adoptedPiece s)) := by
    intro s hs
    exact ((evaluate_allow_iff _ _).mp (adoptedPiece_allowed hcov hs)).2
  have hmozc : ∀ s ∈ segments, isValidUtf8 s.mozcValue = true :=
    fun s hs => (hcov.unicode s hs).1
  have hvalid : ∀ {e : ZenzProjectedSegment → Bytes},
      (∀ s ∈ segments, isValidUtf8 (e s) = true) → isValidUtf8 (segments.flatMap e) = true := by
    intro e he
    rw [List.flatMap_def]
    refine (walk_flatten fun t ht => ?_).1
    obtain ⟨s, hs, rfl⟩ := List.mem_map.mp ht
    exact he s hs
  rw [← hcov.mozcValue, evaluate_allow_iff,
    alphabetRuns_perm_iff hmozc (fun s hs => (hallowed s hs).1) fun s hs => (hallowed s hs).2.1,
    technicalTokens_perm_iff fun s hs => (hallowed s hs).2.2]
  constructor
  · rintro ⟨-, -, hruns, htokens⟩
    exact ⟨hruns, htokens⟩
  · rintro ⟨hruns, htokens⟩
    exact ⟨hvalid hmozc, hvalid fun s hs => (hallowed s hs).1, hruns, htokens⟩

/-! ## Accepted values -/

/-- The projection that the orthography of the value is checked with, if there is one. -/
def projection (input : ZenzAdoptionInput) (value : Bytes) : Option (List ZenzProjectedSegment) :=
  if baselineSegmentsMatchAdoptionInput input.baselineSegments input.key input.mozcValue then
    projectZenzValueToMozcSegments input.baselineSegments input.key value
  else none

/-- The value to be projected is the one after all spans. What is adopted of its segments
balances at the borders. -/
def ProjectionsBalance (input : ZenzAdoptionInput) : Prop :=
  ∀ c, Reaches (step input) (start input) c → c.remaining = [] →
    ∀ segments, projection input c.adoptedValue = some segments →
      BordersBalance (segments.map (·.mozcValue)) (segments.map adoptedPiece)

theorem baselineSegments_values
    (h : baselineSegmentsMatchAdoptionInput input.baselineSegments input.key input.mozcValue
      = true) : input.baselineSegments.flatMap (·.value) = input.mozcValue := by
  unfold baselineSegmentsMatchAdoptionInput at h
  split at h
  · cases h
  · split at h
    · cases h
    · rw [Bool.and_eq_true] at h
      exact eq_of_beq h.2

/-- The orthography that is checked last, for the whole value. -/
theorem checkOrthography_allow_iff (hu : ∀ s ∈ input.baselineSegments, IsUnicode s.value)
    {value out : Bytes} {repaired : Bool}
    (h : checkOrthography input value = .ok (out, repaired)) :
    (evaluate input.mozcValue out).allow = true ↔
      ∀ segments, projection input value = some segments →
        BordersBalance (segments.map (·.mozcValue)) (segments.map adoptedPiece) := by
  rcases checkOrthography_ok h with ⟨segments, hmatch, hproj, hrep⟩ | ⟨hallow, rfl, -, hnone⟩
  · have hprojection : projection input value = some segments := by
      rw [projection, if_pos hmatch, hproj]
    have hcov := project_covers hu hproj
    rw [baselineSegments_values hmatch] at hcov
    rw [repairOrthography_pieces hrep, evaluate_adoptedPieces_iff hcov]
    constructor
    · intro hb segments' hs
      rw [hprojection, Option.some.injEq] at hs
      exact hs ▸ hb
    · intro hb
      exact hb segments hprojection
  · constructor
    · intro _ segments hs
      unfold projection at hs
      split at hs
      · next hmatch =>
        simp [hnone hmatch] at hs
      · cases hs
    · intro _
      exact hallow

/-- **An accepted value has the alphabetic runs and technical tokens of Mozc's value if and only
if those that cross a border of the projected segments balance.** -/
theorem orthography_agrees_iff (input : ZenzAdoptionInput)
    (hu : ∀ s ∈ input.baselineSegments, IsUnicode s.value) :
    (∀ v, Accepts input v → (evaluate input.mozcValue v).allow = true) ↔
      ∀ v, Accepts input v → ProjectionsBalance input := by
  constructor
  · intro h v hacc c hc hrem
    obtain ⟨hr, hv⟩ := hacc.of_last hc hrem
    obtain ⟨-, repaired, hcheck, -⟩ := finish_accepts hr
    rw [hv] at hcheck
    exact (checkOrthography_allow_iff hu hcheck).mp (h v hacc)
  · intro h v hacc
    obtain ⟨c, hc, hrem, hr, rfl⟩ := hacc.exists_last
    obtain ⟨-, repaired, hcheck, -⟩ := finish_accepts hr
    exact (checkOrthography_allow_iff hu hcheck).mpr (h _ hacc c hc hrem)

/-- No border is crossed in 天敵に点滴. -/
def tentekiInput : ZenzAdoptionInput where
  key := utf8 "てんてきにてんてき"
  mozcValue := utf8 "点滴に点滴"
  zenzValue := utf8 "天敵に点滴"
  protectedSpans := []
  baselineSegments := [⟨utf8 "てんてきに", utf8 "点滴に"⟩, ⟨utf8 "てんてき", utf8 "点滴"⟩]

theorem tentekiInput_accepted : Accepts tentekiInput (utf8 "天敵に点滴") := by
  refine ⟨1, ⟨.acceptAsIs, utf8 "天敵に点滴", utf8 "accepted"⟩, ?_, by decide, rfl⟩
  decide +kernel

theorem orthography_agrees_tenteki :
    (evaluate tentekiInput.mozcValue (utf8 "天敵に点滴")).allow = true := by
  refine (orthography_agrees_iff tentekiInput (by decide +kernel)).mpr ?_ _ tentekiInput_accepted
  intro v _ c hc _ segments hproj
  have hstart : c = start tentekiInput := hc.of_inr (step_of_remaining_nil rfl)
  have hall : (projection tentekiInput tentekiInput.zenzValue).all fun segments =>
      BordersBalance (segments.map (·.mozcValue)) (segments.map adoptedPiece) := by
    decide +kernel
  rw [hstart] at hproj
  rw [show projection tentekiInput tentekiInput.zenzValue = some segments from hproj] at hall
  exact of_decide_eq_true hall

/-! ## A version number that changes -/

/-- GPT is a segment of its own, so 5 is compared without it. -/
def versionInput : ZenzAdoptionInput where
  key := utf8 "GPT5か"
  mozcValue := utf8 "GPT5か"
  zenzValue := utf8 "GPT6か"
  protectedSpans := []
  baselineSegments := [⟨utf8 "GPT", utf8 "GPT"⟩, ⟨utf8 "5か", utf8 "5か"⟩]

theorem versionInput_accepted : Accepts versionInput (utf8 "GPT6か") := by
  refine ⟨1, ⟨.acceptAsIs, utf8 "GPT6か", utf8 "accepted"⟩, ?_, by decide, rfl⟩
  decide +kernel

/-- **A technical token across a border is changed.** -/
theorem versionInput_disagrees :
    ¬∀ input : ZenzAdoptionInput, (∀ s ∈ input.baselineSegments, IsUnicode s.value) →
      ∀ v, Accepts input v → (evaluate input.mozcValue v).allow = true := by
  intro h
  have hallow := h versionInput (by decide +kernel) _ versionInput_accepted
  revert hallow
  decide +kernel

end Mozkey.Zenz.AdoptionPolicy
