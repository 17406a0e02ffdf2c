import Mathlib.Data.List.Forall2
import Mozkey.Converter.PostProcessing

/-!
# What the last steps of a conversion guarantee

* `Final` — nothing suppressed is left, and `NO_TOP` is obeyed
* `NoSuppressedMeta` — no suppressed meta candidate is promoted
* `final_iff_noSuppressedMeta` — the first holds if and only if the second does
-/

namespace Mozkey.Converter

open Infra Base Dictionary

/-- No candidate is suppressed, and in a conversion `NO_TOP` is obeyed. -/
structure Final (dictionary : SuppressionDictionary) (requestType : RequestType)
    (segments : Segments) : Prop where
  unsuppressed : ∀ s ∈ segments.conversionSegments, ∀ c ∈ s.candidates,
    dictionary.isSuppressedEntry c.key c.value = false
  noTop : requestType = .conversion → ∀ s ∈ segments.conversionSegments, NoTopRule s

/-- What `EnforceCandidateRankingConstraints` may do, whatever it is called with. -/
structure EnforcesInOrder : Prop where
  promoted : ∀ (requestType : RequestType) (segments : Segments),
    List.Forall₂ (fun s s' => Promoted s s'.candidates) segments.conversionSegments
      (enforceCandidateRankingConstraints requestType segments).2.conversionSegments
  idem : ∀ (requestType : RequestType) (segments : Segments),
    enforceCandidateRankingConstraints requestType
        (enforceCandidateRankingConstraints requestType segments).2 =
      (false, (enforceCandidateRankingConstraints requestType segments).2)

/-- When no regular candidate of a segment is left that may be first, the meta candidate that is
promoted is not suppressed. -/
def NoSuppressedMeta (dictionary : SuppressionDictionary) (requestType : RequestType)
    (segments : Segments) : Prop :=
  requestType = .conversion → ∀ s ∈ segments.conversionSegments,
    (suppressSegment dictionary s).candidates ≠ [] →
    (∀ c ∈ (suppressSegment dictionary s).candidates, c.isNoTop = true) →
    ∀ c, s.metaCandidates.find? (fun c => !c.isNoTop) = some c →
      dictionary.isSuppressedEntry c.key c.value = false

theorem enforcesInOrder : EnforcesInOrder := by
  refine ⟨fun requestType segments => ?_, enforce_idem⟩
  rw [enforce_conversionSegments]
  split
  · rw [List.forall₂_map_right_iff, List.forall₂_same]
    exact fun s _ => (enforceSegment_spec s).promoted
  · rw [List.forall₂_same]
    exact fun s _ => .kept

/-! ## Behind the ranking -/

/-- What the last steps look at. -/
def Candidate.face (c : Candidate) : Bytes × Bytes × Bool := (c.key, c.value, c.isNoTop)

/-- Candidates are taken from the end, but not the first. -/
def ShrinksTo (s s' : Segment) : Prop :=
  (∃ n, 1 ≤ n ∧ s'.candidates.map Candidate.face = (s.candidates.take n).map Candidate.face) ∧
    s'.metaCandidates.map Candidate.face = s.metaCandidates.map Candidate.face

structure AllShrink (segments segments' : Segments) : Prop where
  back : ∀ s' ∈ segments'.conversionSegments, ∃ s ∈ segments.conversionSegments, ShrinksTo s s'
  forth : ∀ s ∈ segments.conversionSegments, ∃ s' ∈ segments'.conversionSegments, ShrinksTo s s'

variable {s s' s'' : Segment} {segments segments' segments'' : Segments}
variable {dictionary : SuppressionDictionary} {requestType : RequestType}

theorem ShrinksTo.refl (s : Segment) : ShrinksTo s s := by
  refine ⟨⟨s.candidates.length + 1, by omega, ?_⟩, rfl⟩
  rw [List.take_of_length_le (by omega)]

theorem ShrinksTo.trans (h : ShrinksTo s s') (h' : ShrinksTo s' s'') : ShrinksTo s s'' := by
  obtain ⟨⟨n, hn, hc⟩, hm⟩ := h
  obtain ⟨⟨n', hn', hc'⟩, hm'⟩ := h'
  refine ⟨⟨min n' n, by omega, ?_⟩, hm'.trans hm⟩
  rw [hc', List.map_take, hc, List.map_take, List.take_take, ← List.map_take]

theorem AllShrink.refl (segments : Segments) : AllShrink segments segments :=
  ⟨fun s hs => ⟨s, hs, .refl s⟩, fun s hs => ⟨s, hs, .refl s⟩⟩

theorem AllShrink.trans (h : AllShrink segments segments') (h' : AllShrink segments' segments'') :
    AllShrink segments segments'' := by
  constructor
  · intro s'' hs''
    obtain ⟨s', hs', h₂⟩ := h'.back s'' hs''
    obtain ⟨s, hs, h₁⟩ := h.back s' hs'
    exact ⟨s, hs, h₁.trans h₂⟩
  · intro s hs
    obtain ⟨s', hs', h₁⟩ := h.forth s hs
    obtain ⟨s'', hs'', h₂⟩ := h'.forth s' hs'
    exact ⟨s'', hs'', h₁.trans h₂⟩

/-- A candidate that is left looks like one that was there. -/
theorem ShrinksTo.exists_candidate (h : ShrinksTo s s') {c : Candidate} (hc : c ∈ s'.candidates) :
    ∃ d ∈ s.candidates, d.face = c.face := by
  obtain ⟨⟨n, -, hmap⟩, -⟩ := h
  have hmem : c.face ∈ (s.candidates.take n).map Candidate.face :=
    hmap ▸ List.mem_map_of_mem hc
  obtain ⟨d, hd, hface⟩ := List.mem_map.mp hmem
  exact ⟨d, List.mem_of_mem_take hd, hface⟩

theorem ShrinksTo.head (h : ShrinksTo s s') :
    s'.candidates.head?.map Candidate.face = s.candidates.head?.map Candidate.face := by
  obtain ⟨⟨n, hn, hmap⟩, -⟩ := h
  rw [← List.head?_map, hmap, List.map_take, List.head?_take, if_neg (by omega), List.head?_map]

theorem face_key {c d : Candidate} (h : d.face = c.face) :
    d.key = c.key ∧ d.value = c.value ∧ d.isNoTop = c.isNoTop := by
  simpa [Candidate.face] using h

theorem ShrinksTo.noTopRule (h : ShrinksTo s s') (hs : NoTopRule s) : NoTopRule s' := by
  intro first hfirst htop c hc
  have hhead := h.head
  rw [hfirst, Option.map_some] at hhead
  obtain ⟨first', hfirst', hface⟩ := Option.map_eq_some_iff.mp hhead.symm
  have htop' : first'.isNoTop = true := (face_key hface).2.2.trans htop
  rcases List.mem_append.mp hc with hc | hc
  · obtain ⟨d, hd, hdf⟩ := h.exists_candidate hc
    rw [← (face_key hdf).2.2]
    exact hs first' hfirst' htop' d (List.mem_append_left _ hd)
  · have hmem : c.face ∈ s.metaCandidates.map Candidate.face := h.2 ▸ List.mem_map_of_mem hc
    obtain ⟨d, hd, hdf⟩ := List.mem_map.mp hmem
    rw [← (face_key hdf).2.2]
    exact hs first' hfirst' htop' d (List.mem_append_right _ hd)

theorem Final.of_shrink (h : Final dictionary requestType segments)
    (hs : AllShrink segments segments') : Final dictionary requestType segments' := by
  constructor
  · intro s' hs' c hc
    obtain ⟨s, hmem, hshrink⟩ := hs.back s' hs'
    obtain ⟨d, hd, hface⟩ := hshrink.exists_candidate hc
    rw [← (face_key hface).1, ← (face_key hface).2.1]
    exact h.unsuppressed s hmem d hd
  · intro hr s' hs'
    obtain ⟨s, hmem, hshrink⟩ := hs.back s' hs'
    exact hshrink.noTopRule (h.noTop hr s hmem)

/-- The first candidate of a segment is suppressed. -/
def HeadSuppressed (dictionary : SuppressionDictionary) (segments : Segments) : Prop :=
  ∃ s ∈ segments.conversionSegments, ∃ c, s.candidates.head? = some c ∧
    dictionary.isSuppressedEntry c.key c.value = true

/-- The first candidate is not taken away. -/
theorem HeadSuppressed.of_shrink (h : HeadSuppressed dictionary segments)
    (hs : AllShrink segments segments') : HeadSuppressed dictionary segments' := by
  obtain ⟨s, hmem, c, hc, hsup⟩ := h
  obtain ⟨s', hmem', hshrink⟩ := hs.forth s hmem
  have hhead := hshrink.head
  rw [hc, Option.map_some] at hhead
  obtain ⟨d, hd, hface⟩ := Option.map_eq_some_iff.mp hhead
  refine ⟨s', hmem', d, hd, ?_⟩
  rw [(face_key hface).1, (face_key hface).2.1]
  exact hsup

theorem HeadSuppressed.not_final (h : HeadSuppressed dictionary segments) :
    ¬Final dictionary requestType segments := by
  obtain ⟨s, hmem, c, hc, hsup⟩ := h
  intro hf
  simp [hf.unsuppressed s hmem c (List.mem_of_head? hc)] at hsup

/-! ## Trimming -/

theorem shrinksTo_trimSegment (limit : Int) (s : Segment) : ShrinksTo s (trimSegment limit s) := by
  unfold trimSegment
  dsimp only
  split
  · exact .refl s
  · next hlen =>
    unfold Segment.eraseCandidates
    split
    · exact .refl s
    · refine ⟨⟨(max 1 (limit - s.metaCandidates.length)).toNat, by omega, ?_⟩, rfl⟩
      rw [List.drop_of_length_le (by omega), List.append_nil]

theorem segmentType_trimSegment (limit : Int) (s : Segment) :
    (trimSegment limit s).segmentType = s.segmentType := by
  unfold trimSegment Segment.eraseCandidates
  dsimp only
  split
  · rfl
  · split <;> rfl

variable {f : Segment → Segment}

theorem allShrink_mapConversion (ht : ∀ s, (f s).segmentType = s.segmentType)
    (hf : ∀ s, ShrinksTo s (f s)) :
    AllShrink segments (segments.mapConversion f) := by
  constructor
  · intro s' hs'
    rw [(conversionSegments_mapConversion ht).1] at hs'
    obtain ⟨s, hs, rfl⟩ := List.mem_map.mp hs'
    exact ⟨s, hs, hf s⟩
  · intro s hs
    rw [(conversionSegments_mapConversion ht).1]
    exact ⟨f s, List.mem_map_of_mem hs, hf s⟩

theorem allShrink_trimCandidates (request : PostRequest) (segments : Segments) :
    AllShrink segments (trimCandidates request segments) := by
  unfold trimCandidates
  cases request.candidatesSizeLimit with
  | none => exact .refl segments
  | some limit =>
    exact allShrink_mapConversion (segmentType_trimSegment limit) (shrinksTo_trimSegment limit)

/-! ## Marking -/

theorem face_maybeSetConsumedKeySize (n : Nat) (c : Candidate) :
    (maybeSetConsumedKeySizeToCandidate n c).face = c.face := by
  unfold maybeSetConsumedKeySizeToCandidate
  split <;> rfl

theorem shrinksTo_maybeSetConsumedKeySize (n : Nat) (s : Segment) :
    ShrinksTo s (maybeSetConsumedKeySizeToSegment n s) := by
  have hmap : ∀ l : List Candidate,
      (l.map (maybeSetConsumedKeySizeToCandidate n)).map Candidate.face =
        l.map Candidate.face := by
    intro l
    rw [List.map_map]
    exact List.map_congr_left fun c _ => face_maybeSetConsumedKeySize n c
  refine ⟨⟨s.candidates.length + 1, by omega, ?_⟩, hmap _⟩
  rw [List.take_of_length_le (by omega)]
  exact hmap _

/-- Only the first conversion segment is another one. -/
theorem conversionSegments_mapFirst (ht : ∀ s, (f s).segmentType = s.segmentType) :
    (mapFirstConversion segments f).conversionSegments =
      segments.conversionSegments.modify 0 f := by
  have hhist : ∀ s ∈ segments.historySegments, Segments.isHistory s = true := fun s hs =>
    List.mem_takeWhile_imp hs
  rw [Segments.conversionSegments, mapFirstConversion, List.dropWhile_append_of_pos hhist]
  cases hc : segments.conversionSegments with
  | nil => rfl
  | cons t l =>
    have hnot := List.head?_dropWhile_not Segments.isHistory segments.segments
    rw [← Segments.conversionSegments, hc] at hnot
    have ht' : Segments.isHistory (f t) = false := by
      rw [Segments.isHistory, ht, ← Segments.isHistory]
      simpa using hnot
    exact List.dropWhile_cons_of_neg (by simp [ht'])

theorem allShrink_mapFirst (ht : ∀ s, (f s).segmentType = s.segmentType)
    (hf : ∀ s, ShrinksTo s (f s)) : AllShrink segments (mapFirstConversion segments f) := by
  have hconv := @conversionSegments_mapFirst segments f ht
  cases hc : segments.conversionSegments with
  | nil =>
    rw [hc] at hconv
    constructor
    · intro s hs
      rw [hconv] at hs
      simp at hs
    · intro s hs
      simp [hc] at hs
  | cons t l =>
    rw [hc] at hconv
    replace hconv : (mapFirstConversion segments f).conversionSegments = f t :: l := hconv
    constructor
    · intro s' hs'
      rw [hconv] at hs'
      rw [hc]
      rcases List.mem_cons.mp hs' with rfl | hs'
      · exact ⟨t, by simp, hf t⟩
      · exact ⟨s', List.mem_cons_of_mem _ hs', .refl s'⟩
    · intro s hs
      rw [hc] at hs
      rw [hconv]
      rcases List.mem_cons.mp hs with rfl | hs
      · exact ⟨f s, by simp, hf s⟩
      · exact ⟨s, List.mem_cons_of_mem _ hs, .refl s⟩

theorem allShrink_finish (request : PostRequest) (segments : Segments) :
    AllShrink segments (finishPostProcessing request segments) := by
  have ht := allShrink_trimCandidates request segments
  unfold finishPostProcessing
  dsimp only
  split
  · exact ht.trans (allShrink_mapFirst (fun _ => rfl) (shrinksTo_maybeSetConsumedKeySize _))
  · exact ht

/-! ## Suppressing and ranking -/

theorem suppress_conversionSegments (dictionary : SuppressionDictionary) (segments : Segments) :
    (suppress dictionary segments).conversionSegments =
      segments.conversionSegments.map (suppressSegment dictionary) := by
  unfold suppress
  split
  · next hempty =>
    have hsame : ∀ s, suppressSegment dictionary s = s := by
      intro s
      have hall : s.candidates.filter (fun c => !dictionary.isSuppressedEntry c.key c.value) =
          s.candidates :=
        List.filter_eq_self.mpr fun c _ => by simp [SuppressionDictionary.isSuppressedEntry, hempty]
      rw [suppressSegment, hall]
    simp [List.map_congr_left fun s _ => hsame s]
  · exact (@conversionSegments_mapConversion segments (suppressSegment dictionary) fun _ => rfl).1

theorem suppressAndEnforce_conversionSegments (request : PostRequest) :
    (suppressAndEnforce dictionary request segments).conversionSegments =
      (segments.conversionSegments.map (suppressSegment dictionary)).map fun s =>
        if request.requestType = .conversion then (enforceSegment s).2 else s := by
  rw [suppressAndEnforce, enforce_conversionSegments, suppress_conversionSegments]
  split
  · rfl
  · simp

theorem mem_suppressSegment {c : Candidate} (hc : c ∈ (suppressSegment dictionary s).candidates) :
    dictionary.isSuppressedEntry c.key c.value = false := by
  simpa using (List.mem_filter.mp hc).2

/-- The candidate that the ranking puts in front is a regular one, or the promoted meta one. -/
theorem Enforced.mem {modified : Bool} (h : Enforced s modified s') {c : Candidate}
    (hc : c ∈ s'.candidates) : c ∈ s.candidates ∨ (s.candidates ≠ [] ∧
      (∀ d ∈ s.candidates, d.isNoTop = true) ∧
      s.metaCandidates.find? (fun c => !c.isNoTop) = some c) := by
  cases h with
  | kept _ => exact .inl hc
  | stuck _ => exact .inl hc
  | @moved l₁ l₂ d hs _ _ _ =>
    refine .inl ?_
    rw [hs]
    simp only [List.mem_cons, List.mem_append] at hc ⊢
    tauto
  | @inserted m₁ m₂ d hs hd hm hne hl =>
    rcases List.mem_cons.mp hc with rfl | hc
    · refine .inr ⟨hne, hl, ?_⟩
      rw [hs, List.find?_append]
      have hnone : m₁.find? (fun c => !c.isNoTop) = none := by
        simpa using hm
      rw [hnone, List.find?_cons_of_pos (by simp [hd])]
      rfl
    · exact .inl hc

theorem final_suppressAndEnforce {request : PostRequest}
    (h : NoSuppressedMeta dictionary request.requestType segments) :
    Final dictionary request.requestType (suppressAndEnforce dictionary request segments) := by
  constructor
  · intro s' hs' c hc
    rw [suppressAndEnforce_conversionSegments, List.map_map] at hs'
    obtain ⟨s, hs, rfl⟩ := List.mem_map.mp hs'
    simp only [Function.comp_apply] at hc
    split at hc
    · next hr =>
      rcases (enforceSegment_spec _).mem hc with hc | ⟨hne, hl, hfind⟩
      · exact mem_suppressSegment hc
      · exact h hr s hs hne hl c hfind
    · exact mem_suppressSegment hc
  · intro hr s' hs'
    rw [suppressAndEnforce_conversionSegments, List.map_map] at hs'
    obtain ⟨s, -, rfl⟩ := List.mem_map.mp hs'
    simpa [hr] using (enforceSegment_spec _).noTopRule

/-- A suppressed meta candidate is promoted to the first place. -/
theorem headSuppressed_suppressAndEnforce {request : PostRequest}
    (h : ¬NoSuppressedMeta dictionary request.requestType segments) :
    HeadSuppressed dictionary (suppressAndEnforce dictionary request segments) := by
  simp only [NoSuppressedMeta, not_forall, Bool.not_eq_false] at h
  obtain ⟨hr, s, hs, hne, hl, c, hfind, hsup⟩ := h
  have hmem : (enforceSegment (suppressSegment dictionary s)).2 ∈
      (suppressAndEnforce dictionary request segments).conversionSegments := by
    rw [suppressAndEnforce_conversionSegments, List.map_map]
    exact List.mem_map.mpr ⟨s, hs, by simp only [Function.comp_apply, if_pos hr]⟩
  refine ⟨_, hmem, c, ?_, hsup⟩
  have hspec := enforceSegment_spec (suppressSegment dictionary s)
  have hc : c.isNoTop = false := by simpa using List.find?_some hfind
  revert hspec
  generalize enforceSegment (suppressSegment dictionary s) = r
  obtain ⟨modified, s'⟩ := r
  intro hspec
  cases hspec with
  | kept hk =>
    obtain ⟨first, rest, hcons⟩ := List.exists_cons_of_ne_nil hne
    have hfirst := hk first (by rw [hcons, List.head?_cons])
    simp [hl first (by simp [hcons])] at hfirst
  | @moved l₁ l₂ d hd hdtop _ _ =>
    have htop := hl d (by rw [hd]; simp)
    simp [hdtop] at htop
  | @inserted m₁ m₂ d hd hdtop hm _ _ =>
    have hm' : s.metaCandidates = m₁ ++ d :: m₂ := hd
    have hnone : m₁.find? (fun c => !c.isNoTop) = none := by
      simpa using hm
    rw [hm', List.find?_append, hnone, List.find?_cons_of_pos (by simp [hdtop])] at hfind
    exact hfind
  | stuck hall =>
    have htop := hall c (List.mem_append_right _ (List.mem_of_find?_eq_some hfind))
    simp [hc] at htop

/-! ## The whole -/

section

variable {World : Type} (parts : Parts World) (dictionary : SuppressionDictionary)
  (request : PostRequest)

/-- The segments as the last of the rewriters leaves them. -/
def lastRewritten : Nat → Segments → World → Option Segments
  | 0, _, _ => none
  | fuel + 1, segments, world =>
    let (resize, world) := parts.checkResizeSegmentsRequest request segments world
    match resize.bind fun r => resizedSegments request segments r.1 r.2 with
    | some resized =>
      let (converted, world) := parts.convert request resized world
      lastRewritten fuel converted world
    | none => some (parts.rewrite request segments world).1

/-- Whatever resizing there was, the last rewriters are followed by the last steps. -/
theorem applyPostProcessing_shrinks : ∀ {fuel : Nat} {segments : Segments} {world : World}
    {result : Segments × World},
    applyPostProcessing parts dictionary request fuel segments world = some result →
    ∃ left, lastRewritten parts request fuel segments world = some left ∧
      AllShrink (suppressAndEnforce dictionary request left) result.1
  | 0, _, _, _, h => by cases h
  | fuel + 1, segments, world, result, h => by
    rw [applyPostProcessing] at h
    rw [lastRewritten]
    cases hc : parts.checkResizeSegmentsRequest request segments world with
    | mk resize world' =>
      simp only [hc] at h ⊢
      cases hr : resize.bind fun r => resizedSegments request segments r.1 r.2 with
      | some resized =>
        simp only [hr] at h ⊢
        obtain ⟨inner, hinner, rfl⟩ := Option.map_eq_some_iff.mp h
        obtain ⟨left, hleft, hshrink⟩ := applyPostProcessing_shrinks hinner
        exact ⟨left, hleft, hshrink.trans (allShrink_finish request inner.1)⟩
      | none =>
        simp only [hr, Option.some.injEq] at h ⊢
        subst h
        exact ⟨_, rfl, allShrink_finish request _⟩

/-- **The last steps keep their promises if and only if no suppressed meta candidate is promoted**:
if, in the segments that the last rewriters leave, the meta candidate that takes the first place
when no regular candidate may have it is not suppressed. -/
theorem final_iff_noSuppressedMeta (fuel : Nat) (call : PostCall) (segments : Segments)
    (world : World) (result : Segments × World)
    (h : perform parts dictionary request fuel call segments world = some result) :
    ∃ before left, beforePostProcessing parts request call segments world = some before ∧
      lastRewritten parts request fuel before.1 before.2 = some left ∧
      ((Final dictionary request.requestType result.1 ∧ EnforcesInOrder) ↔
        NoSuppressedMeta dictionary request.requestType left) := by
  unfold perform at h
  cases hb : beforePostProcessing parts request call segments world with
  | none =>
    simp [hb] at h
  | some before =>
    rw [hb] at h
    obtain ⟨left, hleft, hshrink⟩ := applyPostProcessing_shrinks parts dictionary request h
    refine ⟨before, left, rfl, hleft, fun hf => ?_, fun hn => ?_⟩
    · by_contra hn
      exact ((headSuppressed_suppressAndEnforce hn).of_shrink hshrink).not_final hf.1
    · exact ⟨(final_suppressAndEnforce hn).of_shrink hshrink, enforcesInOrder⟩

end

/-! ## A hidden candidate comes back -/

/-- A rewriter that leaves an emoticon, and the reading as the first meta candidate. -/
def emoticonParts : Parts Unit where
  checkResizeSegmentsRequest _ _ _ := (none, ())
  rewrite _ segments _ := (segments.mapConversion fun s =>
    { s with
      candidates := [{ key := s.key, value := utf8 "(^_^)",
                       rankingConstraints := RankingConstraint.NO_TOP }]
      metaCandidates := [{ key := s.key, value := s.key }] }, ())
  convert _ segments _ := (segments, ())
  predict _ _ _ := ([], ())

/-- `かお` is hidden. -/
def kaoHidden : SuppressionDictionary where
  keysValues := [(utf8 "かお", utf8 "かお")]

def kaoRequest : PostRequest where
  key := utf8 "かお"

/-- The hidden candidate is the first one. -/
def kaoShown : Segments where
  segments := [{
    key := utf8 "かお"
    candidates := [{ key := utf8 "かお", value := utf8 "かお" },
      { key := utf8 "かお", value := utf8 "(^_^)",
        rankingConstraints := RankingConstraint.NO_TOP }]
    metaCandidates := [{ key := utf8 "かお", value := utf8 "かお" }] }]
  maxHistorySegmentsSize := 4

theorem final_iff_noSuppressedMeta_kao :
    ∃ before left, beforePostProcessing emoticonParts kaoRequest .startConversion {} () =
        some before ∧
      lastRewritten emoticonParts kaoRequest 1 before.1 before.2 = some left ∧
      ((Final kaoHidden .conversion kaoShown ∧ EnforcesInOrder) ↔
        NoSuppressedMeta kaoHidden .conversion left) :=
  final_iff_noSuppressedMeta emoticonParts kaoHidden kaoRequest 1 .startConversion {} ()
    (kaoShown, ()) (by decide)

theorem not_final_kao :
    perform emoticonParts kaoHidden kaoRequest 1 .startConversion {} () = some (kaoShown, ()) ∧
      ¬Final kaoHidden .conversion kaoShown := by
  refine ⟨by decide, HeadSuppressed.not_final ?_⟩
  exact ⟨_, List.mem_singleton_self _, _, rfl, by decide⟩

end Mozkey.Converter
