import Mozkey.Zenz.FeedbackDecision

/-!
# The two reuse paths agree

`Decide` merges the counts of one value, `GetRankedCandidates` merges those of every value at
once. Both go through the same list, so what the second keeps for a value is what the first
merges for it (`mergeByValue_aggregated`, `mergeByValue_exact`). What is left is that the one
combined condition of the ranking is the outcome of the rules `Decide` applies in sequence
(`decideFeedback_prefer_iff`, `rankedCandidate_eq_some_iff`).
-/

namespace Mozkey.Zenz

open Infra Std

/-! ## Merging -/

/-- The counts of some entries, merged in order. -/
def mergeAll (c : Counts) (items : List (FeedbackKey × Counts)) : Counts :=
  items.foldl (fun s i => mergeCounts i.2 s) c

@[simp] theorem mergeAll_nil (c : Counts) : mergeAll c [] = c := rfl

@[simp] theorem mergeAll_cons (c : Counts) (i : FeedbackKey × Counts)
    (rest : List (FeedbackKey × Counts)) :
    mergeAll c (i :: rest) = mergeAll (mergeCounts i.2 c) rest := rfl

theorem isDecisionCompatibleContextClass_self (c : Bytes) :
    isDecisionCompatibleContextClass c c = true := by
  simp [isDecisionCompatibleContextClass]

def compatibleEntry (key contextClass : Bytes) (i : FeedbackKey × Counts) : Bool :=
  i.1.key = key && isDecisionCompatibleContextClass contextClass i.1.contextClass

def exactEntry (key contextClass : Bytes) (i : FeedbackKey × Counts) : Bool :=
  i.1.key = key && i.1.contextClass = contextClass

theorem mergeForValue_eq (key contextClass value : Bytes) :
    ∀ (items : List (FeedbackKey × Counts)) (aggregated exact : Counts),
    mergeForValue key contextClass value (aggregated, exact) items =
      (mergeAll aggregated
          ((items.filter (compatibleEntry key contextClass)).filter fun i => i.1.value = value),
        mergeAll exact
          ((items.filter (exactEntry key contextClass)).filter fun i => i.1.value = value))
  | [], aggregated, exact => rfl
  | (k, c) :: rest, aggregated, exact => by
    rw [mergeForValue]
    by_cases hk : k.key = key
    · by_cases hv : k.value = value
      · rw [if_neg (by simp [hk, hv])]
        dsimp only
        by_cases hx : k.contextClass = contextClass
        · simp [mergeForValue_eq key contextClass value rest, compatibleEntry, exactEntry, hk, hv,
            hx, isDecisionCompatibleContextClass_self]
        · by_cases hc : isDecisionCompatibleContextClass contextClass k.contextClass = true <;>
            simp [mergeForValue_eq key contextClass value rest, compatibleEntry, exactEntry, hk, hv,
              hx, hc]
      · rw [if_pos (Or.inr hv), mergeForValue_eq key contextClass value rest]
        simp [List.filter_filter, hv]
    · rw [if_pos (Or.inl hk), mergeForValue_eq key contextClass value rest]
      simp [compatibleEntry, exactEntry, hk]

theorem mergeByValue_eq (key contextClass : Bytes) :
    ∀ (items : List (FeedbackKey × Counts)) (valueCounts exactValueCounts : TreeMap Bytes Counts),
    mergeByValue key contextClass (valueCounts, exactValueCounts) items =
      (tallyFrom (fun i => i.1.value) (fun i s => mergeCounts i.2 s) {} valueCounts
          (items.filter (compatibleEntry key contextClass)),
        tallyFrom (fun i => i.1.value) (fun i s => mergeCounts i.2 s) {} exactValueCounts
          (items.filter (exactEntry key contextClass)))
  | [], _, _ => rfl
  | (k, c) :: rest, valueCounts, exactValueCounts => by
    -- the two compatibility predicates are written twice and are the same
    have hsame : isPromotionCompatibleContextClass contextClass k.contextClass
        = isDecisionCompatibleContextClass contextClass k.contextClass := rfl
    rw [mergeByValue, hsame]
    by_cases hk : k.key = key
    · rw [if_neg (by simp [hk])]
      dsimp only
      by_cases hx : k.contextClass = contextClass
      · simp [mergeByValue_eq key contextClass rest, compatibleEntry, exactEntry, hk, hx,
          isDecisionCompatibleContextClass_self, tallyFrom]
      · by_cases hc : isDecisionCompatibleContextClass contextClass k.contextClass = true <;>
          simp [mergeByValue_eq key contextClass rest, compatibleEntry, exactEntry, hk, hx, hc,
            tallyFrom]
    · simp [hk, mergeByValue_eq key contextClass rest, compatibleEntry, exactEntry]

variable {key contextClass : Bytes} {items : List (FeedbackKey × Counts)}

/-- What the ranking keeps for a value is what the decision merges for it. -/
theorem mergeByValue_aggregated (value : Bytes) :
    (mergeByValue key contextClass (∅, ∅) items).1[value]?.getD {}
      = (mergeForValue key contextClass value ({}, {}) items).1 := by
  rw [mergeByValue_eq, mergeForValue_eq]
  exact getD_getElem?_tally _ value

theorem mergeByValue_exact (value : Bytes) :
    (mergeByValue key contextClass (∅, ∅) items).2[value]?.getD {}
      = (mergeForValue key contextClass value ({}, {}) items).2 := by
  rw [mergeByValue_eq, mergeForValue_eq]
  exact getD_getElem?_tally _ value

/-! ## The two conditions -/

/-- The merged counts allow the value to be reused. -/
def Preferable (aggregated exact : Counts) (policy : ZenzFeedbackAutoBlockPolicy) : Prop :=
  aggregated.hardRejected = false ∧ kAcceptThreshold ≤ aggregated.accepted ∧
    0 < totalScore aggregated ∧ isRejectCountDominant exact = false ∧
    isAutoBlockedByPolicy exact policy = false

theorem rankedCandidate_eq_some_iff {exactValueCounts : TreeMap Bytes Counts}
    {policy : ZenzFeedbackAutoBlockPolicy} {value : Bytes} {c : Counts} :
    (rankedCandidate exactValueCounts policy value c).isSome ↔
      Preferable c (exactValueCounts[value]?.getD {}) policy := by
  unfold rankedCandidate Preferable
  dsimp only
  split
  · next h =>
    simp only [Bool.or_eq_true, decide_eq_true_eq] at h
    simp only [Option.isSome_none, Bool.false_eq_true, false_iff]
    rintro ⟨hh, ha, ht, hd, hb⟩
    rcases h with (((h | h) | h) | h) | h
    · rw [hh] at h; simp at h
    · rw [hb] at h; simp at h
    · rw [hd] at h; simp at h
    · omega
    · omega
  · next h =>
    simp only [Bool.or_eq_true, decide_eq_true_eq, not_or, Bool.not_eq_true] at h
    obtain ⟨⟨⟨⟨hh, hb⟩, hd⟩, ha⟩, ht⟩ := h
    simp only [Option.isSome_some, true_iff]
    exact ⟨hh, by omega, by omega, hd, hb⟩

variable {candidate : ZenzFeedbackCandidate}

/-- The fields of a candidate. -/
theorem rankedCandidate_some {exactValueCounts : TreeMap Bytes Counts}
    {policy : ZenzFeedbackAutoBlockPolicy} {value : Bytes} {c : Counts}
    (h : rankedCandidate exactValueCounts policy value c = some candidate) :
    candidate.value = value ∧ candidate.acceptedCount = c.accepted ∧
      candidate.rejectedCount = c.rejected ∧ candidate.positiveScore = c.positiveScore ∧
      candidate.negativeScore = c.negativeScore ∧ candidate.totalScore = totalScore c := by
  unfold rankedCandidate at h
  dsimp only at h
  split at h
  · simp at h
  · rw [← Option.some.inj h]
    exact ⟨rfl, rfl, rfl, rfl, rfl, rfl⟩

variable {records : List ParsedFeedbackRecord} {value : Bytes} {policy : ZenzFeedbackReusePolicy}

/-- The counts `Decide` merges: of the compatible classes, and of the class itself. -/
def mergedCounts (records : List ParsedFeedbackRecord) (key contextClass value : Bytes) :
    Counts × Counts :=
  mergeForValue key (normalizeContextClass contextClass) value ({}, {}) (loadCounts records).toList

theorem buildDecisionFromCounts_prefer_iff (c : Counts) :
    (buildDecisionFromCounts c).action = .prefer ↔
      c.hardRejected = false ∧ kAcceptThreshold ≤ c.accepted ∧ 0 < totalScore c := by
  unfold buildDecisionFromCounts
  dsimp only
  split
  · next h => simp [h]
  · next h =>
    split
    · next hp => simpa [h] using hp
    · next hp => simpa [h] using hp

@[simp] theorem buildDecisionFromCounts_hardRejected (c : Counts) :
    (buildDecisionFromCounts c).hardRejected = c.hardRejected := by
  unfold buildDecisionFromCounts
  dsimp only
  split
  · rfl
  · split <;> rfl

@[simp] theorem buildDecisionFromCounts_autoBlocked (c : Counts) :
    (buildDecisionFromCounts c).autoBlocked = false := by
  unfold buildDecisionFromCounts
  dsimp only
  split
  · rfl
  · split <;> rfl

/-- The two corrections keep `prefer` exactly when neither applies. -/
theorem applied_prefer_iff (aggregated exact : Counts) (policy : ZenzFeedbackAutoBlockPolicy) :
    (applyAutoBlockDecision exact policy
        (applyRejectDominanceDecision exact (buildDecisionFromCounts aggregated))).action = .prefer
      ↔ Preferable aggregated exact policy := by
  have hiff := buildDecisionFromCounts_prefer_iff aggregated
  unfold Preferable applyAutoBlockDecision applyRejectDominanceDecision
  dsimp only
  by_cases hh : aggregated.hardRejected = true
  · simp [hh] at hiff
    simp [hh, hiff]
  · by_cases hp : (buildDecisionFromCounts aggregated).action = .prefer
    · obtain ⟨-, ha, ht⟩ := hiff.mp hp
      cases hd : isRejectCountDominant exact <;>
        cases hb : isAutoBlockedByPolicy exact policy <;> simp [hh, hp, ha, ht]
    · have hno : ¬(kAcceptThreshold ≤ aggregated.accepted ∧ 0 < totalScore aggregated) := by
        rintro ⟨ha, ht⟩
        exact hp (hiff.mpr ⟨by simpa using hh, ha, ht⟩)
      cases hb : isAutoBlockedByPolicy exact policy <;> simp [hh, hp]
      intro ha ht
      exact absurd ⟨ha, ht⟩ hno

theorem decideFeedback_prefer_iff :
    (decideFeedback records key contextClass value policy).action = .prefer ↔
      excludesAutomaticFeedback key policy = false ∧
        Preferable (mergedCounts records key contextClass value).1
          (mergedCounts records key contextClass value).2 policy.autoBlockPolicy := by
  unfold decideFeedback mergedCounts
  dsimp only
  split
  · next hx =>
    rw [hx]
    simp only [Bool.true_eq_false, false_and, iff_false]
    split
    · simp
    · next hh =>
      -- a hard reject is exempt from the exclusion, and it is not preferred either
      rw [buildDecisionFromCounts_prefer_iff]
      rintro ⟨h, -⟩
      simp [h] at hh
  · next hx =>
    rw [applied_prefer_iff, Bool.eq_false_iff.mpr hx]
    simp

/-! ## Scores -/

/-- The counts of a decision are those merged for the compatible classes. -/
theorem decideFeedback_counts :
    let decision := decideFeedback records key contextClass value policy
    let aggregated := (mergedCounts records key contextClass value).1
    decision.acceptedCount = aggregated.accepted ∧ decision.rejectedCount = aggregated.rejected ∧
      decision.positiveScore = aggregated.positiveScore ∧
      decision.negativeScore = aggregated.negativeScore ∧
      decision.totalScore = totalScore aggregated := by
  have hbuild : ∀ c, (buildDecisionFromCounts c).acceptedCount = c.accepted ∧
      (buildDecisionFromCounts c).rejectedCount = c.rejected ∧
      (buildDecisionFromCounts c).positiveScore = c.positiveScore ∧
      (buildDecisionFromCounts c).negativeScore = c.negativeScore ∧
      (buildDecisionFromCounts c).totalScore = totalScore c := by
    intro c
    unfold buildDecisionFromCounts
    dsimp only
    split
    · exact ⟨rfl, rfl, rfl, rfl, rfl⟩
    · split <;> exact ⟨rfl, rfl, rfl, rfl, rfl⟩
  unfold decideFeedback mergedCounts
  dsimp only
  split
  · split
    · exact hbuild _
    · exact hbuild _
  · unfold applyAutoBlockDecision applyRejectDominanceDecision
    dsimp only
    split_ifs <;> exact hbuild _

/-! ## The ranked list -/

/-- The candidates before they are sorted. -/
def unrankedCandidates (records : List ParsedFeedbackRecord) (key contextClass : Bytes)
    (policy : ZenzFeedbackReusePolicy) : List ZenzFeedbackCandidate :=
  let merged :=
    mergeByValue key (normalizeContextClass contextClass) (∅, ∅) (loadCounts records).toList
  merged.1.toList.filterMap fun i => rankedCandidate merged.2 policy.autoBlockPolicy i.1 i.2

theorem mem_unrankedCandidates :
    candidate ∈ unrankedCandidates records key contextClass policy ↔
      ∃ value c,
        (mergeByValue key (normalizeContextClass contextClass) (∅, ∅)
          (loadCounts records).toList).1[value]? = some c ∧
        rankedCandidate (mergeByValue key (normalizeContextClass contextClass) (∅, ∅)
          (loadCounts records).toList).2 policy.autoBlockPolicy value c = some candidate := by
  unfold unrankedCandidates
  rw [List.mem_filterMap]
  constructor
  · rintro ⟨⟨value, c⟩, hm, hc⟩
    exact ⟨value, c, TreeMap.mem_toList_iff_getElem?_eq_some.mp hm, hc⟩
  · rintro ⟨value, c, hm, hc⟩
    exact ⟨(value, c), TreeMap.mem_toList_iff_getElem?_eq_some.mpr hm, hc⟩

theorem mem_getRankedCandidates :
    candidate ∈ getRankedCandidates records key contextClass policy ↔
      excludesAutomaticFeedback key policy = false ∧
        candidate ∈ unrankedCandidates records key contextClass policy := by
  unfold getRankedCandidates
  split
  · next hx => simp [hx]
  · next hx =>
    rw [Bool.eq_false_iff.mpr hx]
    exact ((List.perm_insertionSort _ _).mem_iff).trans (by simp [unrankedCandidates])

/-- An entry of the merged table is what `Decide` merges for the value. -/
theorem mergedCounts_of_getElem? {c : Counts}
    (h : (mergeByValue key (normalizeContextClass contextClass) (∅, ∅)
      (loadCounts records).toList).1[value]? = some c) :
    (mergedCounts records key contextClass value).1 = c := by
  simp [mergedCounts, ← mergeByValue_aggregated, h]

/-- The value of a candidate, and the counts it carries. -/
theorem candidate_counts (h : candidate ∈ unrankedCandidates records key contextClass policy) :
    let merged := mergedCounts records key contextClass candidate.value
    Preferable merged.1 merged.2 policy.autoBlockPolicy ∧
      candidate.acceptedCount = merged.1.accepted ∧ candidate.rejectedCount = merged.1.rejected ∧
      candidate.positiveScore = merged.1.positiveScore ∧
      candidate.negativeScore = merged.1.negativeScore ∧
      candidate.totalScore = totalScore merged.1 := by
  obtain ⟨value, c, hm, hc⟩ := mem_unrankedCandidates.mp h
  obtain ⟨hv, hcounts⟩ := rankedCandidate_some hc
  have hmerged := mergedCounts_of_getElem? hm
  have hpref := rankedCandidate_eq_some_iff.mp (by rw [hc]; rfl)
  rw [mergeByValue_exact] at hpref
  subst hv
  dsimp only
  rw [hmerged]
  exact ⟨hpref, hcounts⟩

/-- A value that may be reused has a candidate. -/
theorem exists_candidate
    (h : Preferable (mergedCounts records key contextClass value).1
      (mergedCounts records key contextClass value).2 policy.autoBlockPolicy) :
    ∃ candidate ∈ unrankedCandidates records key contextClass policy, candidate.value = value := by
  rw [mergedCounts, ← mergeByValue_aggregated, ← mergeByValue_exact] at h
  cases hm : (mergeByValue key (normalizeContextClass contextClass) (∅, ∅)
      (loadCounts records).toList).1[value]? with
  | none =>
    -- nothing was accepted for a value without an entry
    rw [hm, Option.getD_none] at h
    exact absurd h.2.1 (by decide)
  | some c =>
    rw [hm, Option.getD_some, ← rankedCandidate_eq_some_iff] at h
    obtain ⟨candidate, hc⟩ := Option.isSome_iff_exists.mp h
    exact ⟨candidate, mem_unrankedCandidates.mpr ⟨value, c, hm, hc⟩, (rankedCandidate_some hc).1⟩

/-- The values come from the keys of one table. -/
theorem nodup_unrankedCandidates :
    ((unrankedCandidates records key contextClass policy).map fun c => c.value).Nodup := by
  unfold unrankedCandidates
  dsimp only
  rw [List.Nodup, List.pairwise_map, List.pairwise_filterMap]
  refine TreeMap.distinct_keys_toList.imp ?_
  intro a b hne x hx y hy hxy
  obtain ⟨hva, -⟩ := rankedCandidate_some hx
  obtain ⟨hvb, -⟩ := rankedCandidate_some hy
  exact hne (LawfulEqCmp.compare_eq_iff_eq.mpr (hva.symm.trans (hxy.trans hvb)))

/-- Higher total, then higher positive, then lower negative score, then the smaller value. -/
def RankedBefore (a b : ZenzFeedbackCandidate) : Prop :=
  b.totalScore < a.totalScore ∨ a.totalScore = b.totalScore ∧
    (b.positiveScore < a.positiveScore ∨ a.positiveScore = b.positiveScore ∧
      (a.negativeScore < b.negativeScore ∨ a.negativeScore = b.negativeScore ∧
        compare a.value b.value = .lt))

def candidateCmp : ZenzFeedbackCandidate → ZenzFeedbackCandidate → Ordering :=
  compareLex (compareOn fun c => -c.totalScore) <|
    compareLex (compareOn fun c => -c.positiveScore) <|
      compareLex (compareOn ZenzFeedbackCandidate.negativeScore)
        (compareOn ZenzFeedbackCandidate.value)

instance : TransCmp candidateCmp :=
  inferInstanceAs <| TransCmp <| compareLex (compareOn fun c => -c.totalScore) <|
    compareLex (compareOn fun c => -c.positiveScore) <|
      compareLex (compareOn ZenzFeedbackCandidate.negativeScore)
        (compareOn ZenzFeedbackCandidate.value)

theorem candidateBefore_iff (a b : ZenzFeedbackCandidate) :
    candidateBefore a b = true ↔ RankedBefore a b := by
  unfold candidateBefore RankedBefore
  split_ifs with ht hp hn
  · have : a.totalScore ≠ b.totalScore := ht
    simp only [decide_eq_true_eq]
    omega
  · have : a.totalScore = b.totalScore := not_not.mp ht
    have : a.positiveScore ≠ b.positiveScore := hp
    simp only [decide_eq_true_eq]
    omega
  · have : a.totalScore = b.totalScore := not_not.mp ht
    have : a.positiveScore = b.positiveScore := not_not.mp hp
    have : a.negativeScore ≠ b.negativeScore := hn
    simp only [decide_eq_true_eq]
    omega
  · have ht : a.totalScore = b.totalScore := not_not.mp ht
    have hp : a.positiveScore = b.positiveScore := not_not.mp hp
    have hn : a.negativeScore = b.negativeScore := not_not.mp hn
    simp [ht, hp, hn]

theorem candidateCmp_lt_iff (a b : ZenzFeedbackCandidate) :
    candidateCmp a b = .lt ↔ RankedBefore a b := by
  unfold candidateCmp RankedBefore
  simp only [compareLex, compareOn, Ordering.then_eq_lt, Int.compare_eq_lt,
    LawfulEqCmp.compare_eq_iff_eq, Int.neg_lt_neg_iff, Int.neg_inj]

/--
**The live decision and the ranking agree.**

For every log, key, context class and policy: a value is offered exactly when `Decide` prefers
it, with the counts and scores of that decision. Every value is offered once, and the list is
strictly ordered.
-/
theorem rankedCandidates_agree (records : List ParsedFeedbackRecord) (key contextClass : Bytes)
    (policy : ZenzFeedbackReusePolicy) :
    (∀ value, (∃ candidate ∈ getRankedCandidates records key contextClass policy,
        candidate.value = value) ↔
      (decideFeedback records key contextClass value policy).action = .prefer) ∧
    (∀ candidate ∈ getRankedCandidates records key contextClass policy,
      let decision := decideFeedback records key contextClass candidate.value policy
      candidate.acceptedCount = decision.acceptedCount ∧
      candidate.rejectedCount = decision.rejectedCount ∧
      candidate.positiveScore = decision.positiveScore ∧
      candidate.negativeScore = decision.negativeScore ∧
      candidate.totalScore = decision.totalScore) ∧
    ((getRankedCandidates records key contextClass policy).map fun c => c.value).Nodup ∧
    (getRankedCandidates records key contextClass policy).Pairwise RankedBefore := by
  refine ⟨fun value => ?_, fun candidate hc => ?_, ?_, ?_⟩
  · rw [decideFeedback_prefer_iff]
    constructor
    · rintro ⟨candidate, hm, rfl⟩
      obtain ⟨hx, hm⟩ := mem_getRankedCandidates.mp hm
      exact ⟨hx, (candidate_counts hm).1⟩
    · rintro ⟨hx, hpref⟩
      obtain ⟨candidate, hm, hv⟩ := exists_candidate hpref
      exact ⟨candidate, mem_getRankedCandidates.mpr ⟨hx, hm⟩, hv⟩
  · obtain ⟨-, hm⟩ := mem_getRankedCandidates.mp hc
    obtain ⟨-, ha, hr, hp, hn, ht⟩ := candidate_counts hm
    obtain ⟨ha', hr', hp', hn', ht'⟩ :=
      @decideFeedback_counts key contextClass records candidate.value policy
    exact ⟨ha.trans ha'.symm, hr.trans hr'.symm, hp.trans hp'.symm, hn.trans hn'.symm,
      ht.trans ht'.symm⟩
  · unfold getRankedCandidates
    split
    · simp
    · exact ((List.perm_insertionSort _ _).map _).nodup_iff.mpr nodup_unrankedCandidates
  · unfold getRankedCandidates
    split
    · simp
    · have hsorted := pairwise_before_insertionSort
        (fun a b => (candidateBefore_iff a b).trans (candidateCmp_lt_iff a b).symm)
        (fun c => c.value) (fun a b h => ?_)
        (nodup_unrankedCandidates : ((unrankedCandidates records key contextClass policy).map
          fun c => c.value).Nodup)
      · exact hsorted.imp fun h => (candidateBefore_iff _ _).mp h
      · obtain ⟨-, h⟩ := compareLex_eq_eq.mp h
        obtain ⟨-, h⟩ := compareLex_eq_eq.mp h
        obtain ⟨-, h⟩ := compareLex_eq_eq.mp h
        exact LawfulEqCmp.eq_of_compare h

end Mozkey.Zenz
