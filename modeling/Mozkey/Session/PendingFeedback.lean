import Mozkey.Session.ZenzLiveCorrection
import Mozkey.Session.ZenzSettings

/-!
# The pending record

`PendingZenzFeedback` of `session/session.h`, and a session as far as it reads and writes it.

What the feedback store and the converter are asked is kept in a journal, the newest entry first.
Every entry says which pending record it comes from, and in what state that record was prepared.
The program keeps neither of the two.
-/

namespace Mozkey.Session

open Infra Zenz

/-! ## Data -/

structure ZenzProjectedLearningSegment where
  key : Bytes
  value : Bytes
  isReranked : Bool := false
  boundaryResized : Bool := false
  needsNativeResolution : Bool := false
  /-- The keys inside an aggregate that is not resolved. -/
  baselineKeys : List Bytes := []
  deriving DecidableEq

structure ExternalConversionSegment where
  key : Bytes
  value : Bytes
  isReranked : Bool := false
  boundaryResized : Bool := false
  deriving DecidableEq

/-- `PendingZenzFeedback::Action` -/
inductive FeedbackAction where
  | none
  | accepted
  | compareFinalCommit
  deriving DecidableEq

structure PendingZenzFeedback where
  pending : Bool := false
  action : FeedbackAction := .none
  key : Bytes := []
  contextClass : Bytes := []
  value : Bytes := []
  reason : Bytes := []
  hasFinalCommittedValue : Bool := false
  finalCommittedValue : Bytes := []
  requireFinalCommittedKeyMatch : Bool := false
  finalCommittedKey : Bytes := []
  reverseLearningSegments : List (Bytes × Bytes) := []
  reverseProjectedLearningSegments : List ZenzProjectedLearningSegment := []
  feedbackAcceptanceWriteSucceeded : Bool := false
  mozcHistoryLearningRequested : Bool := false
  mozcHistoryLearningApplied : Bool := false
  mozcHistoryRevertIds : List UInt64 := []
  deriving DecidableEq

/-- A pending record as it was prepared, and the state in which it was. -/
structure PreparedRecord where
  number : Nat := 0
  context : InputContext := {}
  feedback : PendingZenzFeedback := {}

/-- What is asked of the feedback store and of the converter, and the final value that a comparison
observes. `handle` is the id that the pending record holds from then on. -/
inductive FeedbackCall where
  | observe (value key : Bytes)
  | recordAccepted (key contextClass value : Bytes) (appended : Bool)
  | recordRejected (key contextClass value reason : Bytes)
  | recordManualBlock (key contextClass value : Bytes)
  | recordAcceptedRollback (key contextClass value reason : Bytes)
  | learnResult (key value : Bytes) (handle : Option UInt64)
  | learnSegments (segments : List ExternalConversionSegment) (handle : Option UInt64)
  | confirmLearning (revertId : UInt64)
  | revertLearning (revertId : UInt64)
  deriving DecidableEq

/-- `record` is none where no pending record is involved. -/
structure FeedbackEntry where
  record : Option PreparedRecord
  context : InputContext
  call : FeedbackCall

/-- The answers of the feedback store and of the converter, which may depend on all that they were
asked before. An id of 0 says that nothing was learned. -/
structure LearningServices where
  recordAccepted : List FeedbackEntry → Bytes → Bytes → Bytes → Bool
  learnResult : List FeedbackEntry → Bytes → Bytes → Bool
  learnResultReversibly : List FeedbackEntry → Bytes → Bytes → UInt64
  learnSegments : List FeedbackEntry → List ExternalConversionSegment → Bool
  learnSegmentsReversibly : List FeedbackEntry → List ExternalConversionSegment → UInt64

/-- `prepared` is the record that `pendingZenzFeedback` was last. -/
structure FeedbackSession where
  live : LiveState := {}
  context : InputContext := {}
  pendingZenzFeedback : PendingZenzFeedback := {}
  prepared : PreparedRecord := {}
  journal : List FeedbackEntry := []

/-- Both the key and the value pass their check. -/
def IsPublic (text : Bytes × Bytes) : Prop :=
  (evaluateZenzLiveKeyPrivacy text.1).allow = true ∧
    (evaluateZenzLiveValuePrivacy text.2).allow = true

/-! ## Calls -/

namespace FeedbackCall

def handle : FeedbackCall → Option UInt64
  | learnResult _ _ handle => handle
  | learnSegments _ handle => handle
  | _ => none

def confirmed : FeedbackCall → Option UInt64
  | confirmLearning revertId => some revertId
  | _ => none

def reverted : FeedbackCall → Option UInt64
  | revertLearning revertId => some revertId
  | _ => none

/-- The keys and the values that are written. -/
def texts : FeedbackCall → List (Bytes × Bytes)
  | recordAccepted key _ value _ => [(key, value)]
  | recordRejected key _ value _ => [(key, value)]
  | recordManualBlock key _ value => [(key, value)]
  | recordAcceptedRollback key _ value _ => [(key, value)]
  | learnResult key value _ => [(key, value)]
  | learnSegments segments _ => segments.map fun segment => (segment.key, segment.value)
  | _ => []

def isLearning : FeedbackCall → Bool
  | learnResult .. => true
  | learnSegments .. => true
  | _ => false

def isRollback : FeedbackCall → Bool
  | recordAcceptedRollback .. => true
  | _ => false

/-- An accepted or a rejected record. -/
def isVerdict : FeedbackCall → Bool
  | recordAccepted .. => true
  | recordRejected .. => true
  | _ => false

end FeedbackCall

/-- What was asked on behalf of one record. -/
def callsOf (number : Nat) (journal : List FeedbackEntry) : List FeedbackCall :=
  journal.filterMap fun entry =>
    if entry.record.any (·.number == number) then some entry.call else none

@[simp] theorem callsOf_nil (number : Nat) : callsOf number [] = [] := rfl

theorem callsOf_cons_self {number : Nat} {record : PreparedRecord} (h : record.number = number)
    (context : InputContext) (call : FeedbackCall) (journal : List FeedbackEntry) :
    callsOf number (⟨some record, context, call⟩ :: journal) = call :: callsOf number journal := by
  unfold callsOf
  simp [beq_iff_eq.mpr h]

theorem callsOf_cons_other {number : Nat} {entry : FeedbackEntry}
    (h : ∀ record, entry.record = some record → record.number ≠ number)
    (journal : List FeedbackEntry) :
    callsOf number (entry :: journal) = callsOf number journal := by
  unfold callsOf
  rw [List.filterMap_cons_none]
  cases hrecord : entry.record with
  | none => rfl
  | some record =>
    simp [beq_eq_false_iff_ne.mpr (h record hrecord)]

/-- A call that comes from no record. -/
@[simp] theorem callsOf_cons_none (number : Nat) (context : InputContext) (call : FeedbackCall)
    (journal : List FeedbackEntry) :
    callsOf number (⟨none, context, call⟩ :: journal) = callsOf number journal :=
  callsOf_cons_other (by simp) journal

theorem mem_callsOf {number : Nat} {journal : List FeedbackEntry} {call : FeedbackCall} :
    call ∈ callsOf number journal ↔
      ∃ entry ∈ journal, ∃ record, entry.record = some record ∧ record.number = number ∧
        entry.call = call := by
  unfold callsOf
  rw [List.mem_filterMap]
  refine exists_congr fun entry => and_congr_right fun _ => ?_
  cases hrecord : entry.record with
  | none => simp
  | some record => simp [and_comm]

/-! ## A session writes -/

namespace FeedbackSession

variable (s : FeedbackSession)

/-- The entry of a call that the pending record makes. -/
def entry (call : FeedbackCall) : FeedbackEntry := ⟨some s.prepared, s.context, call⟩

def log (call : FeedbackCall) : FeedbackSession :=
  { s with journal := s.entry call :: s.journal }

/-- One call after the other. -/
def logAll (calls : List FeedbackCall) : FeedbackSession := calls.foldl log s

/-- A call of the converter. The id that it returns is held. -/
def learned (call : FeedbackCall) : FeedbackSession :=
  { s.log call with
    pendingZenzFeedback := { s.pendingZenzFeedback with
      mozcHistoryRevertIds := s.pendingZenzFeedback.mozcHistoryRevertIds ++ call.handle.toList } }

/-- The pending record is written. -/
def prepare (feedback : PendingZenzFeedback) : FeedbackSession :=
  { s with
    pendingZenzFeedback := feedback
    prepared := { number := s.prepared.number + 1, context := s.context, feedback } }

/-- The pending record is left. -/
def clear : FeedbackSession := { s with pendingZenzFeedback := {} }

theorem logAll_eq (calls : List FeedbackCall) :
    s.logAll calls = { s with journal := (calls.map s.entry).reverse ++ s.journal } := by
  induction calls generalizing s with
  | nil => rfl
  | cons call calls ih =>
    rw [logAll, List.foldl_cons, ← logAll, ih]
    simp [log, entry]

end FeedbackSession

end Mozkey.Session
