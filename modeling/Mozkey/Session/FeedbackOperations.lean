import Mozkey.Session.HistoryLearning

/-!
# What a session does with the pending record

`session/session.cc`, the functions that write, settle and leave `pending_zenz_feedback_`, and the
handlers that commit, take back or block the correction that is shown. Every event of a session is
a sequence of the operations and of the actions below. Between two of them configuration, request,
client context and input field may change.

The segments that an acceptance is projected on are a parameter.
-/

namespace Mozkey.Session

open Infra Zenz

/-- `ClearLiveConversionState`, as far as a correction is concerned. -/
def LiveState.clearLiveConversionState (s : LiveState) : LiveState :=
  { s.clearZenzLiveCorrectionState with
    liveConversionActive := false
    liveConversionKey := []
    liveConversionValue := [] }

/-- What the reverse projection of an accepted value and the native resegmentation have found. -/
structure ZenzReverseLearningProjection where
  changedSegments : List (Bytes × Bytes) := []
  projectedSegments : List ZenzProjectedLearningSegment := []

/-- The changed segments that are still there after the resegmentation. -/
def ZenzReverseLearningProjection.validatedChangedSegments
    (projection : ZenzReverseLearningProjection) : List (Bytes × Bytes) :=
  projection.changedSegments.filter fun (key, value) =>
    projection.projectedSegments.any fun segment =>
      !segment.needsNativeResolution && segment.isReranked && segment.key == key &&
        segment.value == value

def orEmpty (contextClass : Bytes) : Bytes :=
  if contextClass.isEmpty then utf8 "empty" else contextClass

namespace FeedbackSession

variable (services : LearningServices)

/-! ## Preparing a record -/

def passesPrivacy (key value : Bytes) : Bool :=
  !key.isEmpty && !value.isEmpty && (evaluateZenzLiveKeyPrivacy key).allow &&
    (evaluateZenzLiveValuePrivacy value).allow

/-- `SetPendingZenzFeedbackAccepted` does something. -/
def preparesAcceptance (key value : Bytes) (s : FeedbackSession) : Bool :=
  (s.context.canRecordZenzFeedback || s.context.canLearnZenzToMozcHistory) &&
    passesPrivacy key value

/-- The acceptance is recorded, which may fail. -/
def recordPendingAccepted (s : FeedbackSession) : FeedbackSession :=
  let pending := s.pendingZenzFeedback
  let appended :=
    services.recordAccepted s.journal pending.key pending.contextClass pending.value
  { s.log (.recordAccepted pending.key pending.contextClass pending.value appended) with
    pendingZenzFeedback := { pending with feedbackAcceptanceWriteSucceeded := appended } }

/-- The segments of an earlier acceptance stay. -/
def acceptedRecord (key contextClass value : Bytes) (s : FeedbackSession) : PendingZenzFeedback :=
  { s.pendingZenzFeedback with
    pending := true
    action := .accepted
    key
    contextClass := orEmpty contextClass
    value
    reason := []
    hasFinalCommittedValue := false
    finalCommittedValue := []
    requireFinalCommittedKeyMatch := false
    finalCommittedKey := []
    feedbackAcceptanceWriteSucceeded := false
    mozcHistoryLearningRequested := s.context.canLearnZenzToMozcHistory
    mozcHistoryLearningApplied := false
    mozcHistoryRevertIds := [] }

def setLearningSegments (projection : ZenzReverseLearningProjection) (s : FeedbackSession) :
    FeedbackSession :=
  { s with
    pendingZenzFeedback := { s.pendingZenzFeedback with
      reverseLearningSegments := projection.validatedChangedSegments
      reverseProjectedLearningSegments := projection.projectedSegments } }

/-- Whatever was pending is overwritten. -/
def setPendingZenzFeedbackAccepted (projection : ZenzReverseLearningProjection)
    (key contextClass value : Bytes) (s : FeedbackSession) : FeedbackSession :=
  if !s.preparesAcceptance key value then s
  else
    let recordFeedback := s.context.canRecordZenzFeedback
    let learnMozcHistory := s.context.canLearnZenzToMozcHistory
    let s := s.prepare (s.acceptedRecord key contextClass value)
    -- only one of the two may be wanted
    if !learnMozcHistory then s.recordPendingAccepted services
    else
      let s := s.setLearningSegments projection
      if recordFeedback then s.recordPendingAccepted services else s

/-- `SetPendingZenzFeedbackComparison` does something. -/
def preparesComparison (key value : Bytes) (s : FeedbackSession) : Bool :=
  s.context.canRecordZenzFeedback && passesPrivacy key value

/-- Whatever was pending is overwritten. -/
def setPendingZenzFeedbackComparison (key contextClass value reason : Bytes)
    (requireFinalCommittedKeyMatch : Bool) (s : FeedbackSession) : FeedbackSession :=
  if !s.preparesComparison key value then s
  else
    s.prepare {
      pending := true
      action := .compareFinalCommit
      key
      contextClass := orEmpty contextClass
      value
      reason
      requireFinalCommittedKeyMatch }

def setPendingZenzFeedbackRejected (reason : Bytes) (s : FeedbackSession) : FeedbackSession :=
  if !s.live.hasVisibleZenzLiveCorrection then s
  else
    s.setPendingZenzFeedbackComparison s.live.zenzLive.key s.live.zenzLive.contextClass
      s.live.zenzLive.value reason false

/-! ## The final value -/

/-- The record has the value that it is compared with. -/
def observed (value key : Bytes) (s : FeedbackSession) : FeedbackSession :=
  { s.log (.observe value key) with
    pendingZenzFeedback := { s.pendingZenzFeedback with
      hasFinalCommittedValue := true
      finalCommittedValue := value
      finalCommittedKey := key } }

/-- Only a full commit is observed, and only the first one. -/
def observePendingZenzFeedbackCommittedResult (output : Output) (s : FeedbackSession) :
    FeedbackSession :=
  if !s.pendingZenzFeedback.pending || s.pendingZenzFeedback.action != .compareFinalCommit then s
  else if s.pendingZenzFeedback.hasFinalCommittedValue then s
  else if s.live.imeState != .precomposition then s
  else
    match output.result with
    | none => s
    | some result =>
      match result.value with
      | none => s
      | some value => s.observed value (result.key.getD [])

/-- `InsertCharacter`, where a punctuation commits what a cancelled correction left. -/
def captureFinalCommittedValue (key value : Bytes) (s : FeedbackSession) : FeedbackSession :=
  if s.pendingZenzFeedback.pending && s.pendingZenzFeedback.action == .compareFinalCommit &&
      s.pendingZenzFeedback.requireFinalCommittedKeyMatch &&
      !s.pendingZenzFeedback.hasFinalCommittedValue then
    s.observed value key
  else s

/-! ## Settling a record -/

/-- What the final value says of a comparison. Nothing where the key does not match. -/
def concludeComparison (s : FeedbackSession) : FeedbackSession :=
  let pending := s.pendingZenzFeedback
  if !pending.hasFinalCommittedValue then s
  else if pending.requireFinalCommittedKeyMatch && pending.finalCommittedKey != pending.key then s
  else if pending.finalCommittedValue == pending.value then
    s.log (.recordAccepted pending.key pending.contextClass pending.value
      (services.recordAccepted s.journal pending.key pending.contextClass pending.value))
  else s.log (.recordRejected pending.key pending.contextClass pending.value pending.reason)

def confirmAll (s : FeedbackSession) : FeedbackSession :=
  s.logAll (s.pendingZenzFeedback.mozcHistoryRevertIds.map .confirmLearning)

def confirmPendingZenzFeedback (s : FeedbackSession) : FeedbackSession :=
  if !s.pendingZenzFeedback.pending then s
  else if !s.context.isZenzPersistentPersonalizationContextAllowed then s.confirmAll.clear
  else
    match s.pendingZenzFeedback.action with
    | .accepted =>
      if s.pendingZenzFeedback.mozcHistoryLearningApplied then s.confirmAll.clear
      else if s.pendingZenzFeedback.mozcHistoryLearningRequested &&
          s.context.canLearnZenzToMozcHistory then
        (s.learnPending services false).clear
      else s.clear
    | .compareFinalCommit =>
      if s.context.canRecordZenzFeedback then (s.concludeComparison services).clear else s.clear
    | .none => s.clear

/-- In reverse order. -/
def revertAll (s : FeedbackSession) : FeedbackSession :=
  s.logAll (s.pendingZenzFeedback.mozcHistoryRevertIds.reverse.map .revertLearning)

def rollBack (reason : Bytes) (s : FeedbackSession) : FeedbackSession :=
  if s.pendingZenzFeedback.feedbackAcceptanceWriteSucceeded &&
      s.context.isZenzPersistentPersonalizationContextAllowed then
    s.log (.recordAcceptedRollback s.pendingZenzFeedback.key s.pendingZenzFeedback.contextClass
      s.pendingZenzFeedback.value reason)
  else s

def discardPendingZenzFeedback (reason : Bytes) (s : FeedbackSession) : FeedbackSession :=
  if !s.pendingZenzFeedback.pending then s
  else if s.pendingZenzFeedback.action == .accepted then
    if s.pendingZenzFeedback.mozcHistoryLearningApplied then (s.revertAll.rollBack reason).clear
    else (s.rollBack reason).clear
  else s.clear

/-- Keys that decide a conversion settle nothing. -/
def handlePendingZenzFeedbackForKeyEvent (s : FeedbackSession) : FeedbackSession :=
  if !s.pendingZenzFeedback.pending then s
  else if s.live.imeState == .conversion then s
  else s.confirmPendingZenzFeedback services

def handlePendingZenzFeedbackForSessionCommand (type : CommandType) (s : FeedbackSession) :
    FeedbackSession :=
  match type with
  | .revert | .undo => s.discardPendingZenzFeedback (utf8 "session_command_discard")
  | .resetContext => s.confirmPendingZenzFeedback services
  | _ => s

/-! ## The correction that is shown -/

/-- `output` is what the command has put out before. -/
def commitStringDirectly (key preedit : Bytes) (output : Output) (s : FeedbackSession) :
    FeedbackSession :=
  if key.isEmpty || preedit.isEmpty then s
  else
    let result := output.result.getD {}
    let result := { result with
      type := .string
      key := some (result.key.getD [] ++ key)
      value := some (result.value.getD [] ++ preedit) }
    { s with live := { s.live with imeState := .precomposition } }
      |>.observePendingZenzFeedbackCommittedResult { output with consumed := true, result }

/-- A correction is accepted and `commitKey` with `commitValue` is committed. -/
def commitAccepted (projection : ZenzReverseLearningProjection) (visible : VisibleCorrection)
    (commitKey commitValue : Bytes) (output : Output) (s : FeedbackSession) : FeedbackSession :=
  let s := s.setPendingZenzFeedbackAccepted services projection visible.key visible.contextClass
    visible.value
  { s with live := s.live.clearLiveConversionState }
    |>.commitStringDirectly commitKey commitValue output
    |>.applyPendingZenzAcceptedMozcHistoryLearning services

def commitZenzLiveCorrectionResult (projection : ZenzReverseLearningProjection) (output : Output)
    (s : FeedbackSession) : FeedbackSession :=
  if !s.live.hasVisibleZenzLiveCorrection then s
  else
    s.commitAccepted services projection s.live.zenzLive s.live.zenzLive.key s.live.zenzLive.value
      output

/-- `keepLiveConversion` says that the user types in a live conversion. -/
def revertZenzLiveCorrectionToNormalConversion (recordRejection keepLiveConversion : Bool)
    (s : FeedbackSession) : FeedbackSession :=
  if !s.live.hasVisibleZenzLiveCorrection then s
  else
    let s := if recordRejection then
        s.setPendingZenzFeedbackRejected (utf8 "space_revert_zenz_to_mozc")
      else s
    { s with
      live := if keepLiveConversion then s.live.clearZenzLiveCorrectionState
        else s.live.clearLiveConversionState }

/-- The block is not made on behalf of a pending record. -/
def recordManualBlock (key contextClass value : Bytes) (s : FeedbackSession) : FeedbackSession :=
  if s.context.canPersistZenzLearningFromInput && (evaluateZenzLiveKeyPrivacy key).allow &&
      (evaluateZenzLiveValuePrivacy value).allow then
    { s with journal := ⟨none, s.context, .recordManualBlock key contextClass value⟩ :: s.journal }
  else s

def blockVisibleZenzCorrection (keepLiveConversion : Bool) (s : FeedbackSession) :
    FeedbackSession :=
  if !s.live.hasVisibleZenzLiveCorrection then s
  else
    s.recordManualBlock s.live.zenzLive.key (orEmpty s.live.zenzLive.contextClass)
        s.live.zenzLive.value
      |>.revertZenzLiveCorrectionToNormalConversion false keepLiveConversion

end FeedbackSession

/-! ## Interleavings -/

inductive FeedbackOperation where
  | commit (projection : ZenzReverseLearningProjection) (output : Output)
  /-- A punctuation commits the correction that was shown before it. -/
  | directCommit (projection : ZenzReverseLearningProjection) (visible : VisibleCorrection)
      (commitKey commitValue : Bytes) (output : Output)
  /-- A correction that was cancelled, or one that is not shown because it was rejected before. -/
  | compare (key contextClass value reason : Bytes) (requireFinalCommittedKeyMatch : Bool)
  | reject (reason : Bytes)
  | revertToMozc (keepLiveConversion : Bool)
  | block (keepLiveConversion : Bool)
  | observe (output : Output)
  | capture (key value : Bytes)
  | confirm
  | discard (reason : Bytes)
  | keyEvent
  | sessionCommand (type : CommandType)

namespace FeedbackSession

def perform (services : LearningServices) (s : FeedbackSession) :
    FeedbackOperation → FeedbackSession
  | .commit projection output => s.commitZenzLiveCorrectionResult services projection output
  | .directCommit projection visible commitKey commitValue output =>
    s.commitAccepted services projection visible commitKey commitValue output
  | .compare key contextClass value reason requireFinalCommittedKeyMatch =>
    s.setPendingZenzFeedbackComparison key contextClass value reason requireFinalCommittedKeyMatch
  | .reject reason => s.setPendingZenzFeedbackRejected reason
  | .revertToMozc keepLiveConversion =>
    s.revertZenzLiveCorrectionToNormalConversion true keepLiveConversion
  | .block keepLiveConversion => s.blockVisibleZenzCorrection keepLiveConversion
  | .observe output => s.observePendingZenzFeedbackCommittedResult output
  | .capture key value => s.captureFinalCommittedValue key value
  | .confirm => s.confirmPendingZenzFeedback services
  | .discard reason => s.discardPendingZenzFeedback reason
  | .keyEvent => s.handlePendingZenzFeedbackForKeyEvent services
  | .sessionCommand type => s.handlePendingZenzFeedbackForSessionCommand services type

/-- The operation writes a new pending record. -/
def prepares (s : FeedbackSession) : FeedbackOperation → Bool
  | .commit .. =>
    s.live.hasVisibleZenzLiveCorrection &&
      s.preparesAcceptance s.live.zenzLive.key s.live.zenzLive.value
  | .directCommit _ visible .. => s.preparesAcceptance visible.key visible.value
  | .compare key _ value _ _ => s.preparesComparison key value
  | .reject _ | .revertToMozc _ =>
    s.live.hasVisibleZenzLiveCorrection &&
      s.preparesComparison s.live.zenzLive.key s.live.zenzLive.value
  | _ => false

end FeedbackSession

inductive FeedbackEvent where
  | settings (context : InputContext)
  | live (action : LiveAction)
  | operation (operation : FeedbackOperation)

/-- One step of a session, or of the worker. -/
inductive FeedbackStep (services : LearningServices)
    (converts : ZenzLiveRequest → ZenzLiveResponse → Prop) (s : FeedbackSession) :
    FeedbackEvent → FeedbackSession → Prop where
  | settings {context : InputContext} :
      FeedbackStep services converts s (.settings context) { s with context }
  | live {action : LiveAction} {live : LiveState} :
      LiveStep converts s.live action live →
      FeedbackStep services converts s (.live action) { s with live }
  | operation {operation : FeedbackOperation} :
      FeedbackStep services converts s (.operation operation) (s.perform services operation)

end Mozkey.Session
