import Mathlib.Data.List.InsertIdx
import Mozkey.Rewriter.ZenzFeedbackCandidate
import Mozkey.Zenz.FeedbackAgreement

/-!
# What a reused value has passed

The loop checks the repaired value against the original top value. The ranking asks the store about
the value as it was recorded. Where symbol repair makes another value of it, nobody asks the store
about that one (`reuse_obeys_iff`).
-/

namespace Mozkey.Rewriter.ZenzFeedbackCandidateRewriter

open Infra Base Converter Zenz

/-! ## The guards -/

variable {request : ReuseRequest} {s : Segment} {key top v : Bytes}

/-- One candidate was moved or inserted at `j`. The others keep their order and their fields. Only
the mark of the best candidate is taken off them, when the one at `j` is now the best. -/
structure Placed (others : List Candidate) (s s' : Segment) (j : Nat) (c : Candidate) : Prop where
  atPosition : s'.candidates[j]? = some c
  others_eq : s'.candidates.eraseIdx j = if j = 0 then others.map clearBest else others
  best : j = 0 → c.has Attribute.BEST_CANDIDATE = true ∧
    ∀ d ∈ s'.candidates.tail, d.has Attribute.BEST_CANDIDATE = false
  rest_eq : s' = { s with candidates := s'.candidates }

variable {c : Candidate} {others : List Candidate} {f : ZenzFeedbackCandidate} {segments : Segments}

variable {records : List ParsedFeedbackRecord}

/-- The ranked candidates of a segment's key. -/
def rankedFor (records : List ParsedFeedbackRecord) (request : ReuseRequest) (s : Segment) :
    List ZenzFeedbackCandidate :=
  getRankedCandidates records s.key kContextClass (getZenzFeedbackReusePolicy request)

def topValue (s : Segment) : Bytes := (s.candidates.getD 0 {}).value

/-- The value that is reused for a segment, and the ranked candidate it comes from. -/
def reused (records : List ParsedFeedbackRecord) (request : ReuseRequest) (s : Segment) :
    Option (ZenzFeedbackCandidate × Bytes) :=
  firstUsable request s s.key (topValue s) (rankedFor records request s)

end Mozkey.Rewriter.ZenzFeedbackCandidateRewriter
