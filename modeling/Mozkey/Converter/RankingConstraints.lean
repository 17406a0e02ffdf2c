import Mathlib.Data.List.TakeWhile
import Mozkey.Converter.Segments

/-!
# No first place for `NO_TOP`

`EnforceCandidateRankingConstraints` of `converter/converter_util.cc`.

* `Promoted` — what it does to the candidates of a segment
* `Enforced.noTopRule` — afterwards a `NO_TOP` candidate is first only among its like
* `enforce_idem` — it does nothing the second time
-/

namespace Mozkey.Converter

open Infra

inductive RequestType where
  | conversion
  | reverseConversion
  | prediction
  | suggestion
  | partialPrediction
  | partialSuggestion
  deriving DecidableEq

/-- The regular candidate that takes the first place. -/
def replacement (s : Segment) : Option Nat :=
  ((s.candidates.drop 1).findIdx? fun c => !c.isNoTop).map (· + 1)

/-- The meta candidate that takes it otherwise. -/
def metaReplacement (s : Segment) : Option Nat :=
  s.metaCandidates.findIdx? fun c => !c.isNoTop

/-- One segment, and whether it was modified. -/
def enforceSegment (s : Segment) : Bool × Segment :=
  match s.candidates with
  | [] => (false, s)
  | first :: _ =>
    if !first.isNoTop then (false, s)
    else match replacement s with
      | some i => (true, s.moveRegular i 0)
      | none =>
        match metaReplacement s with
        | some i => (true, s.moveMeta i 0)
        | none => (false, s)

def enforceCandidateRankingConstraints (requestType : RequestType) (segments : Segments) :
    Bool × Segments :=
  if requestType ≠ .conversion then (false, segments)
  else (segments.conversionSegments.any fun s => (enforceSegment s).1,
    segments.mapConversion fun s => (enforceSegment s).2)

/-! ## One segment -/

/-- What is done to a segment, and whether it was modified. -/
inductive Enforced (s : Segment) : Bool → Segment → Prop where
  /-- There is no first candidate, or it may be first. -/
  | kept (h : ∀ first, s.candidates.head? = some first → first.isNoTop = false) :
      Enforced s false s
  /-- The first candidate that may be first is moved to the front. -/
  | moved {l₁ l₂ : List Candidate} {c : Candidate} (h : s.candidates = l₁ ++ c :: l₂)
      (hc : c.isNoTop = false) (hne : l₁ ≠ []) (hl : ∀ d ∈ l₁, d.isNoTop = true) :
      Enforced s true { s with candidates := c :: (l₁ ++ l₂) }
  /-- A copy of the first meta candidate that may be first is put there. -/
  | inserted {m₁ m₂ : List Candidate} {c : Candidate} (h : s.metaCandidates = m₁ ++ c :: m₂)
      (hc : c.isNoTop = false) (hm : ∀ d ∈ m₁, d.isNoTop = true) (hne : s.candidates ≠ [])
      (hl : ∀ d ∈ s.candidates, d.isNoTop = true) :
      Enforced s true { s with candidates := c :: s.candidates }
  /-- No candidate may be first. -/
  | stuck (hl : ∀ d ∈ s.candidates ++ s.metaCandidates, d.isNoTop = true) : Enforced s false s

variable {s s' : Segment} {modified : Bool}

theorem split_of_findIdx? {α : Type} {p : α → Bool} {l : List α} {i : Nat}
    (h : l.findIdx? p = some i) : ∃ l₁ c l₂, l = l₁ ++ c :: l₂ ∧ l₁.length = i ∧ p c = true ∧
      ∀ d ∈ l₁, p d = false := by
  induction l generalizing i with
  | nil => simp at h
  | cons a l ih =>
    rw [List.findIdx?_cons] at h
    split at h
    · next ha =>
      cases h
      exact ⟨[], a, l, rfl, rfl, ha, by simp⟩
    · next ha =>
      obtain ⟨j, hj, rfl⟩ := Option.map_eq_some_iff.mp h
      obtain ⟨l₁, c, l₂, rfl, hlen, hc, hl₁⟩ := ih hj
      refine ⟨a :: l₁, c, l₂, rfl, by simp [hlen], hc, fun d hd => ?_⟩
      rcases List.mem_cons.mp hd with rfl | hd
      · simpa using ha
      · exact hl₁ d hd

theorem moveRegular_front {l₁ l₂ : List Candidate} {c : Candidate}
    (h : s.candidates = l₁ ++ c :: l₂) (hl : l₁ ≠ []) :
    s.moveRegular l₁.length 0 = { s with candidates := c :: (l₁ ++ l₂) } := by
  have hget : s.candidates[l₁.length]? = some c := by simp [h]
  have hne : ¬(s.candidates.length ≤ 0 ∨ l₁.length = 0) := by simp [h, hl]
  simp only [Segment.moveRegular, hget, if_neg hne]
  simp [h, List.eraseIdx_append_of_length_le (Nat.le_refl _)]

theorem moveMeta_front {m₁ m₂ : List Candidate} {c : Candidate}
    (h : s.metaCandidates = m₁ ++ c :: m₂) :
    s.moveMeta m₁.length 0 = { s with candidates := c :: s.candidates } := by
  have hget : s.metaCandidates[m₁.length]? = some c := by simp [h]
  simp [Segment.moveMeta, hget, Segment.insertCandidate]

theorem enforceSegment_spec (s : Segment) :
    Enforced s (enforceSegment s).1 (enforceSegment s).2 := by
  unfold enforceSegment
  cases hs : s.candidates with
  | nil => exact .kept (by simp [hs])
  | cons first rest =>
    dsimp only
    cases hf : first.isNoTop with
    | false =>
      refine .kept fun d hd => ?_
      rw [hs, List.head?_cons, Option.some.injEq] at hd
      exact hd ▸ hf
    | true =>
      simp only [Bool.not_true, Bool.false_eq_true, if_false]
      cases hr : replacement s with
      | some i =>
        obtain ⟨j, hj, rfl⟩ := Option.map_eq_some_iff.mp hr
        rw [hs, List.drop_succ_cons, List.drop_zero] at hj
        obtain ⟨l₁, c, l₂, rfl, rfl, hc, hl⟩ := split_of_findIdx? hj
        have hsplit : s.candidates = (first :: l₁) ++ c :: l₂ := hs
        have hmove := moveRegular_front hsplit (by simp)
        rw [List.length_cons] at hmove
        simp only [hmove]
        refine .moved hsplit (by simpa using hc) (by simp) fun d hd => ?_
        rcases List.mem_cons.mp hd with rfl | hd
        · exact hf
        · simpa using hl d hd
      | none =>
        have hrest : ∀ d ∈ s.candidates, d.isNoTop = true := by
          have hnone := Option.map_eq_none_iff.mp hr
          rw [hs, List.drop_succ_cons, List.drop_zero, List.findIdx?_eq_none_iff] at hnone
          intro d hd
          rcases List.mem_cons.mp (hs ▸ hd) with rfl | hd
          · exact hf
          · simpa using hnone d hd
        cases hm : metaReplacement s with
        | some i =>
          obtain ⟨m₁, c, m₂, hsplit, rfl, hc, hl⟩ := split_of_findIdx? hm
          simp only [moveMeta_front hsplit]
          exact .inserted hsplit (by simpa using hc) (fun d hd => by simpa using hl d hd)
            (by simp [hs]) hrest
        | none =>
          refine .stuck fun d hd => ?_
          rcases List.mem_append.mp hd with hd | hd
          · exact hrest d hd
          · simpa using List.findIdx?_eq_none_iff.mp hm d hd

/-- What is not a candidate stays. -/
theorem Enforced.frame (h : Enforced s modified s') :
    s'.segmentType = s.segmentType ∧ s'.key = s.key ∧ s'.metaCandidates = s.metaCandidates := by
  cases h <;> exact ⟨rfl, rfl, rfl⟩

/-- A `NO_TOP` candidate is first only if there is no other kind of candidate. -/
def NoTopRule (s : Segment) : Prop :=
  ∀ first, s.candidates.head? = some first → first.isNoTop = true →
    ∀ c ∈ s.candidates ++ s.metaCandidates, c.isNoTop = true

theorem Enforced.noTopRule (h : Enforced s modified s') : NoTopRule s' := by
  intro first hfirst htop
  cases h with
  | kept hk =>
    simp [hk first hfirst] at htop
  | moved _ hc _ _ =>
    obtain rfl : _ = first := Option.some.inj hfirst
    simp [hc] at htop
  | inserted _ hc _ _ _ =>
    obtain rfl : _ = first := Option.some.inj hfirst
    simp [hc] at htop
  | stuck hl => exact hl

/-- Where the rule holds there is nothing to do. -/
theorem enforceSegment_of_noTopRule (h : NoTopRule s) : enforceSegment s = (false, s) := by
  have hspec := enforceSegment_spec s
  revert hspec
  generalize hr : enforceSegment s = r
  obtain ⟨modified, s'⟩ := r
  intro hspec
  cases hspec with
  | kept _ => rfl
  | stuck _ => rfl
  | @moved l₁ l₂ c hs hc hne hl =>
    cases l₁ with
    | nil => exact absurd rfl hne
    | cons first l₁ =>
      have htop := h first (by simp [hs]) (hl first (by simp)) c (by simp [hs])
      simp [hc] at htop
  | @inserted m₁ m₂ c hs hc _ hne hl =>
    cases hcands : s.candidates with
    | nil => exact absurd hcands hne
    | cons first rest =>
      have htop := h first (by simp [hcands]) (hl first (by simp [hcands])) c (by simp [hs])
      simp [hc] at htop

/-- The candidates of a segment as they were, or one of them before the others in their order, or
a copy of a meta candidate before all of them. -/
inductive Promoted (s : Segment) : List Candidate → Prop where
  | kept : Promoted s s.candidates
  | moved {l₁ l₂ : List Candidate} {c : Candidate} (h : s.candidates = l₁ ++ c :: l₂) :
      Promoted s (c :: (l₁ ++ l₂))
  | inserted {c : Candidate} (h : c ∈ s.metaCandidates) : Promoted s (c :: s.candidates)

theorem Enforced.promoted (h : Enforced s modified s') : Promoted s s'.candidates := by
  cases h with
  | kept _ => exact .kept
  | stuck _ => exact .kept
  | moved hs _ _ _ => exact .moved hs
  | inserted hs _ _ _ _ => exact .inserted (by simp [hs])

/-! ## All segments -/

theorem conversionSegments_mapConversion {segments : Segments} {f : Segment → Segment}
    (hf : ∀ s, (f s).segmentType = s.segmentType) :
    (segments.mapConversion f).conversionSegments = segments.conversionSegments.map f ∧
      (segments.mapConversion f).historySegments = segments.historySegments := by
  have hsame : ∀ s, Segments.isHistory (f s) = Segments.isHistory s := fun s => by
    simp [Segments.isHistory, hf]
  have hhist : ∀ s ∈ segments.historySegments, Segments.isHistory s = true := fun s hs =>
    List.mem_takeWhile_imp hs
  have hconv : ∀ s, (segments.conversionSegments.map f).head? = some s →
      Segments.isHistory s = false := by
    intro s hs
    rw [List.head?_map, Option.map_eq_some_iff] at hs
    obtain ⟨t, ht, rfl⟩ := hs
    rw [hsame]
    have := List.head?_dropWhile_not Segments.isHistory segments.segments
    rw [Segments.conversionSegments] at ht
    rw [ht] at this
    simpa using this
  unfold Segments.mapConversion
  constructor
  · rw [Segments.conversionSegments, List.dropWhile_append_of_pos hhist]
    cases hm : segments.conversionSegments.map f with
    | nil => rfl
    | cons t l => exact List.dropWhile_cons_of_neg (by simp [hconv t (by simp [hm])])
  · rw [Segments.historySegments, List.takeWhile_append_of_pos hhist]
    cases hm : segments.conversionSegments.map f with
    | nil => simp
    | cons t l =>
      rw [List.takeWhile_cons_of_neg (by simp [hconv t (by simp [hm])]), List.append_nil]

theorem enforce_conversionSegments {requestType : RequestType} (segments : Segments) :
    (enforceCandidateRankingConstraints requestType segments).2.conversionSegments =
      if requestType = .conversion then
        segments.conversionSegments.map fun s => (enforceSegment s).2
      else segments.conversionSegments := by
  unfold enforceCandidateRankingConstraints
  by_cases hr : requestType = .conversion
  · rw [if_neg (not_not.mpr hr), if_pos hr]
    exact (conversionSegments_mapConversion fun s => (enforceSegment_spec s).frame.1).1
  · simp [hr]

/-- **The second time nothing is done.** -/
theorem enforce_idem (requestType : RequestType) (segments : Segments) :
    enforceCandidateRankingConstraints requestType
        (enforceCandidateRankingConstraints requestType segments).2 =
      (false, (enforceCandidateRankingConstraints requestType segments).2) := by
  by_cases hr : requestType = .conversion
  · subst hr
    have hsame : ∀ s : Segment, enforceSegment (enforceSegment s).2 =
        (false, (enforceSegment s).2) := fun s =>
      enforceSegment_of_noTopRule (enforceSegment_spec s).noTopRule
    have hc := @conversionSegments_mapConversion segments (fun s => (enforceSegment s).2)
      fun s => (enforceSegment_spec s).frame.1
    simp only [enforceCandidateRankingConstraints, ne_eq, not_true_eq_false, if_false]
    have hmap : ((segments.conversionSegments.map fun s => (enforceSegment s).2).map
        fun s => (enforceSegment s).2) =
          segments.conversionSegments.map fun s => (enforceSegment s).2 := by
      rw [List.map_map]
      exact List.map_congr_left fun s _ => by
        show (enforceSegment (enforceSegment s).2).2 = _
        rw [hsame]
    rw [Prod.mk.injEq]
    constructor
    · simp [hc.1, Function.comp_def, hsame]
    · rw [Segments.mapConversion, hc.1, hc.2, hmap]
      rfl
  · simp only [enforceCandidateRankingConstraints, ne_eq, hr, not_false_eq_true, if_true]

end Mozkey.Converter
