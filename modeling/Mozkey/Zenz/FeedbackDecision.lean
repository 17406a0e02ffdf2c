import Mozkey.Infra.Tally
import Mozkey.Zenz.FeedbackRecord

/-!
# What the feedback log says

`session/zenz_feedback_store.cc`, the part that interprets the records: counts per
(key, context class, value), the decision for one value, the ranked candidates of a key, and
the entries shown for management.

Everything here reads the list `LoadFeedbackRecords` returned. The counters are `int`; an
overflow is undefined behaviour, so their sums are those of `ℤ`.
-/

namespace Mozkey.Zenz

open Infra Std

/-! ## Counts -/

structure Counts where
  accepted : Int := 0
  rejected : Int := 0
  autoBlockRejected : Int := 0
  positiveScore : Int := 0
  negativeScore : Int := 0
  hardRejected : Bool := false
deriving DecidableEq

def kAcceptThreshold : Int := 1
def kAcceptedFeedbackWeight : Int := 1000
def kSpaceRevertRejectWeight : Int := 150
def kPredictAfterZenzRejectWeight : Int := 200
def kExplicitConversionRejectWeight : Int := 400
def kLegacyRejectWeight : Int := 400
def kHardRejectWeight : Int := 2000

def totalScore (c : Counts) : Int := c.positiveScore - c.negativeScore

def isHardRejectReason (reason : Bytes) : Bool :=
  reason == utf8 "hard_reject" || reason == utf8 "user_hard_reject" ||
    reason == utf8 "manual_hard_reject" || reason == utf8 "explicit_hard_reject"

def rejectWeightForReason (reason : Bytes) : Int :=
  if isHardRejectReason reason then kHardRejectWeight
  else if reason == utf8 "space_revert_zenz_to_mozc" ||
      reason == utf8 "auto_block_shadow_compare" then kSpaceRevertRejectWeight
  else if reason == utf8 "predict_after_zenz" then kPredictAfterZenzRejectWeight
  else if reason == utf8 "explicit_conversion_after_zenz" ||
      reason == utf8 "cancel_visible_zenz_to_composition" then kExplicitConversionRejectWeight
  else kLegacyRejectWeight

def addAccepted (c : Counts) : Counts :=
  { c with
    accepted := c.accepted + 1
    positiveScore := c.positiveScore + kAcceptedFeedbackWeight }

def rollbackAccepted (c : Counts) : Counts :=
  if c.accepted ≤ 0 then c
  else
    { c with
      accepted := c.accepted - 1
      positiveScore := max 0 (c.positiveScore - kAcceptedFeedbackWeight) }

def addRejected (reason : Bytes) (c : Counts) : Counts :=
  { c with
    rejected := c.rejected + 1
    negativeScore := c.negativeScore + rejectWeightForReason reason
    autoBlockRejected :=
      if isHardRejectReason reason then c.autoBlockRejected else c.autoBlockRejected + 1
    hardRejected := c.hardRejected || isHardRejectReason reason }

def mergeCounts (src dest : Counts) : Counts where
  accepted := dest.accepted + src.accepted
  rejected := dest.rejected + src.rejected
  autoBlockRejected := dest.autoBlockRejected + src.autoBlockRejected
  positiveScore := dest.positiveScore + src.positiveScore
  negativeScore := dest.negativeScore + src.negativeScore
  hardRejected := dest.hardRejected || src.hardRejected

/-! ## Policies -/

structure ZenzFeedbackAutoBlockPolicy where
  enabled : Bool := false
  minimumRejectCount : Int := 0
  minimumRejectPercentage : Int := 0

structure ZenzFeedbackReusePolicy where
  autoBlockPolicy : ZenzFeedbackAutoBlockPolicy := {}
  minimumKeyLengthEnabled : Bool := false
  minimumKeyLength : Nat := 7

/-- Characters are counted by their first bytes. -/
def excludesAutomaticFeedback (key : Bytes) (policy : ZenzFeedbackReusePolicy) : Bool :=
  if !policy.minimumKeyLengthEnabled || policy.minimumKeyLength ≤ 1 then false
  else key.countP (fun c => c &&& 0xC0 != 0x80) < policy.minimumKeyLength

def normalizeAutoBlockPolicy (policy : ZenzFeedbackAutoBlockPolicy) :
    ZenzFeedbackAutoBlockPolicy :=
  if !policy.enabled || policy.minimumRejectCount ≤ 0 || policy.minimumRejectPercentage ≤ 0 then {}
  else { policy with minimumRejectPercentage := min policy.minimumRejectPercentage 100 }

def autoBlockRejectPercentage (c : Counts) : Int :=
  let observations := c.accepted + c.autoBlockRejected
  if observations ≤ 0 then 0 else (c.autoBlockRejected * 100).tdiv observations

def isAutoBlockedByPolicy (c : Counts) (autoBlockPolicy : ZenzFeedbackAutoBlockPolicy) : Bool :=
  let policy := normalizeAutoBlockPolicy autoBlockPolicy
  if !policy.enabled || c.autoBlockRejected < policy.minimumRejectCount then false
  else
    let observations := c.accepted + c.autoBlockRejected
    0 < observations &&
      policy.minimumRejectPercentage * observations ≤ c.autoBlockRejected * 100

def isRejectCountDominant (c : Counts) : Bool := c.accepted < c.autoBlockRejected

/-! ## Context classes -/

def isSensitiveFeedbackContextClass (contextClass : Bytes) : Bool :=
  contextClass == utf8 "sensitive_like"

def isSharedPromotionContextClass (contextClass : Bytes) : Bool :=
  contextClass == utf8 "empty" || contextClass == utf8 "japanese_only" ||
    contextClass == utf8 "japanese_with_punctuation" ||
    contextClass == utf8 "mixed_japanese_ascii" || contextClass == utf8 "symbol_or_other" ||
    contextClass == utf8 "legacy"

def isPromotionCompatibleContextClass (requested record : Bytes) : Bool :=
  if requested == record then true
  else if isSensitiveFeedbackContextClass requested ||
      isSensitiveFeedbackContextClass record then false
  else if isSharedPromotionContextClass requested && isSharedPromotionContextClass record then true
  else false

def isDecisionCompatibleContextClass (requested record : Bytes) : Bool :=
  if requested == record then true
  else if isSensitiveFeedbackContextClass requested ||
      isSensitiveFeedbackContextClass record then false
  else if isSharedPromotionContextClass requested && isSharedPromotionContextClass record then true
  else false

/-! ## Decisions -/

inductive ZenzFeedbackAction where
  | neutral
  | prefer
  | reject
deriving DecidableEq

structure ZenzFeedbackDecision where
  action : ZenzFeedbackAction := .neutral
  reason : Bytes := utf8 "feedback_neutral"
  acceptedCount : Int := 0
  rejectedCount : Int := 0
  positiveScore : Int := 0
  negativeScore : Int := 0
  totalScore : Int := 0
  autoBlockRejectCount : Int := 0
  hardRejected : Bool := false
  autoBlocked : Bool := false
deriving DecidableEq

def buildDecisionFromCounts (c : Counts) : ZenzFeedbackDecision :=
  let decision : ZenzFeedbackDecision :=
    { acceptedCount := c.accepted
      rejectedCount := c.rejected
      autoBlockRejectCount := c.autoBlockRejected
      positiveScore := c.positiveScore
      negativeScore := c.negativeScore
      totalScore := totalScore c
      hardRejected := c.hardRejected }
  if c.hardRejected then
    { decision with action := .reject, reason := utf8 "feedback_hard_rejected" }
  else if kAcceptThreshold ≤ c.accepted && 0 < totalScore c then
    { decision with action := .prefer, reason := utf8 "feedback_preferred" }
  else
    { decision with
      action := .neutral
      reason := if 0 < c.rejected then utf8 "feedback_downgraded" else utf8 "feedback_neutral" }

def applyRejectDominanceDecision (exactCounts : Counts) (decision : ZenzFeedbackDecision) :
    ZenzFeedbackDecision :=
  if decision.hardRejected || decision.autoBlocked || decision.action != .prefer then decision
  else
    let decision := { decision with autoBlockRejectCount := exactCounts.autoBlockRejected }
    if !isRejectCountDominant exactCounts then decision
    else { decision with action := .neutral, reason := utf8 "feedback_reject_count_dominant" }

def applyAutoBlockDecision (exactCounts : Counts) (autoBlockPolicy : ZenzFeedbackAutoBlockPolicy)
    (decision : ZenzFeedbackDecision) : ZenzFeedbackDecision :=
  if decision.hardRejected then decision
  else
    let decision := { decision with autoBlockRejectCount := exactCounts.autoBlockRejected }
    if !isAutoBlockedByPolicy exactCounts autoBlockPolicy then decision
    else
      { decision with
        action := .reject
        reason := utf8 "feedback_auto_blocked"
        autoBlocked := true }

/-! ## The counts of a log -/

/-- The tuple the counts are kept under, ordered as a tuple is. -/
structure FeedbackKey where
  key : Bytes
  contextClass : Bytes
  value : Bytes
deriving DecidableEq

instance : Ord FeedbackKey where
  compare := compareLex (compareOn FeedbackKey.key)
    (compareLex (compareOn FeedbackKey.contextClass) (compareOn FeedbackKey.value))

instance : TransOrd FeedbackKey :=
  inferInstanceAs <| TransCmp (compareLex (compareOn FeedbackKey.key)
    (compareLex (compareOn FeedbackKey.contextClass) (compareOn FeedbackKey.value)))

instance : LawfulEqOrd FeedbackKey where
  compare_self := ReflCmp.compare_self
  eq_of_compare {a b} h := by
    obtain ⟨hk, hrest⟩ := compareLex_eq_eq.mp h
    obtain ⟨hc, hv⟩ := compareLex_eq_eq.mp hrest
    have hk : a.key = b.key := LawfulEqCmp.eq_of_compare hk
    have hc : a.contextClass = b.contextClass := LawfulEqCmp.eq_of_compare hc
    have hv : a.value = b.value := LawfulEqCmp.eq_of_compare hv
    cases a
    cases b
    exact (FeedbackKey.mk.injEq ..).mpr ⟨hk, hc, hv⟩

def feedbackKey (record : ParsedFeedbackRecord) : FeedbackKey :=
  ⟨record.key, record.contextClass, record.value⟩

/-- The branch of `LoadCounts` for the record's action. -/
def countRecord (record : ParsedFeedbackRecord) (c : Counts) : Counts :=
  if record.action = utf8 "accepted" then addAccepted c
  else if record.action = utf8 "accepted_rollback" then rollbackAccepted c
  else if record.action = utf8 "rejected" then addRejected record.reason c
  else c

def loadCounts (records : List ParsedFeedbackRecord) : TreeMap FeedbackKey Counts :=
  -- a key whose acceptances were all rolled back is dropped
  (tally feedbackKey countRecord {} records).filter
    fun _ c => !(c.accepted == 0 && c.rejected == 0)

/-! ## The decision for one value -/

/-- The loop of `Decide`: the counts of the compatible classes, and those of the class itself. -/
def mergeForValue (key contextClass value : Bytes) :
    Counts × Counts → List (FeedbackKey × Counts) → Counts × Counts
  | acc, [] => acc
  | (aggregated, exact), (k, c) :: rest =>
    if k.key ≠ key ∨ k.value ≠ value then
      mergeForValue key contextClass value (aggregated, exact) rest
    else
      let exact := if k.contextClass = contextClass then mergeCounts c exact else exact
      if !isDecisionCompatibleContextClass contextClass k.contextClass then
        mergeForValue key contextClass value (aggregated, exact) rest
      else mergeForValue key contextClass value (mergeCounts c aggregated, exact) rest

def decideFeedback (records : List ParsedFeedbackRecord) (key contextClass value : Bytes)
    (reusePolicy : ZenzFeedbackReusePolicy) : ZenzFeedbackDecision :=
  let (aggregated, exact) :=
    mergeForValue key (normalizeContextClass contextClass) value ({}, {})
      (loadCounts records).toList
  let decision := buildDecisionFromCounts aggregated
  if excludesAutomaticFeedback key reusePolicy then
    -- manual hard blocks are exempt
    if !decision.hardRejected then
      { decision with action := .neutral, reason := utf8 "feedback_key_length_excluded" }
    else decision
  else
    applyAutoBlockDecision exact reusePolicy.autoBlockPolicy
      (applyRejectDominanceDecision exact decision)

def isManuallyBlocked (records : List ParsedFeedbackRecord) (key contextClass value : Bytes) :
    Bool :=
  (loadCounts records).toList.any fun (k, c) =>
    if !c.hardRejected || k.key != key || k.value != value then false
    else isDecisionCompatibleContextClass (normalizeContextClass contextClass) k.contextClass

/-! ## Ranked candidates -/

structure ZenzFeedbackCandidate where
  value : Bytes
  acceptedCount : Int := 0
  rejectedCount : Int := 0
  positiveScore : Int := 0
  negativeScore : Int := 0
  totalScore : Int := 0
  autoBlockRejectCount : Int := 0
  hardRejected : Bool := false
  autoBlocked : Bool := false
  reason : Bytes := utf8 "feedback_neutral"
deriving DecidableEq

/-- The comparison the candidates are sorted by. -/
def candidateBefore (a b : ZenzFeedbackCandidate) : Bool :=
  if a.totalScore ≠ b.totalScore then b.totalScore < a.totalScore
  else if a.positiveScore ≠ b.positiveScore then b.positiveScore < a.positiveScore
  else if a.negativeScore ≠ b.negativeScore then a.negativeScore < b.negativeScore
  else compare a.value b.value == .lt

/-- Per value: the counts of the compatible classes, and those of the class itself. -/
def mergeByValue (key contextClass : Bytes) :
    TreeMap Bytes Counts × TreeMap Bytes Counts → List (FeedbackKey × Counts) →
      TreeMap Bytes Counts × TreeMap Bytes Counts
  | acc, [] => acc
  | (valueCounts, exactValueCounts), (k, c) :: rest =>
    if k.key ≠ key then mergeByValue key contextClass (valueCounts, exactValueCounts) rest
    else
      let exactValueCounts :=
        if k.contextClass = contextClass then
          exactValueCounts.alter k.value fun exact => some (mergeCounts c (exact.getD {}))
        else exactValueCounts
      if !isPromotionCompatibleContextClass contextClass k.contextClass then
        mergeByValue key contextClass (valueCounts, exactValueCounts) rest
      else
        mergeByValue key contextClass
          (valueCounts.alter k.value fun s => some (mergeCounts c (s.getD {})), exactValueCounts)
          rest

/-- A value and its counts as a candidate, if it may be offered. -/
def rankedCandidate (exactValueCounts : TreeMap Bytes Counts)
    (autoBlockPolicy : ZenzFeedbackAutoBlockPolicy) (value : Bytes) (c : Counts) :
    Option ZenzFeedbackCandidate :=
  let exactCounts := exactValueCounts[value]?.getD {}
  if c.hardRejected || isAutoBlockedByPolicy exactCounts autoBlockPolicy ||
      isRejectCountDominant exactCounts || c.accepted < kAcceptThreshold ||
      totalScore c ≤ 0 then none
  else
    some
      { value := value
        acceptedCount := c.accepted
        rejectedCount := c.rejected
        positiveScore := c.positiveScore
        negativeScore := c.negativeScore
        totalScore := totalScore c
        autoBlockRejectCount := exactCounts.autoBlockRejected
        hardRejected := c.hardRejected
        autoBlocked := false
        reason := utf8 "feedback_preferred" }

def getRankedCandidates (records : List ParsedFeedbackRecord) (key contextClass : Bytes)
    (reusePolicy : ZenzFeedbackReusePolicy) : List ZenzFeedbackCandidate :=
  if excludesAutomaticFeedback key reusePolicy then []
  else
    let (valueCounts, exactValueCounts) :=
      mergeByValue key (normalizeContextClass contextClass) (∅, ∅) (loadCounts records).toList
    let candidates := valueCounts.toList.filterMap fun (value, c) =>
      rankedCandidate exactValueCounts reusePolicy.autoBlockPolicy value c
    candidates.insertionSort fun a b => !candidateBefore b a

/-! ## Entries -/

structure ZenzFeedbackEntry where
  key : Bytes
  contextClass : Bytes
  value : Bytes
  acceptedCount : Int := 0
  rejectedCount : Int := 0
  autoBlockRejectCount : Int := 0
  autoBlockRejectPercentage : Int := 0
  hardRejected : Bool := false
  autoBlocked : Bool := false
  reuseExcluded : Bool := false
  reason : Bytes := utf8 "feedback_neutral"
deriving DecidableEq

def feedbackEntry (reusePolicy : ZenzFeedbackReusePolicy) (k : FeedbackKey) (c : Counts) :
    ZenzFeedbackEntry :=
  let decision := applyAutoBlockDecision c reusePolicy.autoBlockPolicy
    (applyRejectDominanceDecision c (buildDecisionFromCounts c))
  { key := k.key
    contextClass := k.contextClass
    value := k.value
    acceptedCount := c.accepted
    rejectedCount := c.rejected
    autoBlockRejectCount := c.autoBlockRejected
    autoBlockRejectPercentage := autoBlockRejectPercentage c
    hardRejected := decision.hardRejected
    autoBlocked := decision.autoBlocked
    reuseExcluded := !decision.hardRejected && excludesAutomaticFeedback k.key reusePolicy
    reason := decision.reason }

/-- The comparison the entries are sorted by. -/
def entryBefore (a b : ZenzFeedbackEntry) : Bool :=
  if a.key ≠ b.key then compare a.key b.key == .lt
  else if a.value ≠ b.value then compare a.value b.value == .lt
  else compare a.contextClass b.contextClass == .lt

def listEntries (records : List ParsedFeedbackRecord) (reusePolicy : ZenzFeedbackReusePolicy) :
    List ZenzFeedbackEntry :=
  ((loadCounts records).toList.map fun (k, c) => feedbackEntry reusePolicy k c).insertionSort
    fun a b => !entryBefore b a

end Mozkey.Zenz
