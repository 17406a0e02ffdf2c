import Mozkey.Session.CommandSequence
import Mozkey.Zenz.ProtectedSpan
import Mozkey.Zenz.SegmentProjection
import Mozkey.Zenz.PromptFraming

/-!
# Corrections of a live conversion

`session/session.cc`, from the request for a correction to the value that is shown. Every event of
the session is a sequence of the actions below, and the worker may act between any two of them.

Everything else a session does is `edit`: it may change the live conversion in any way.
-/

/-!
## The corrector and its worker

`session/zenz_live_corrector.cc`. There is one slot for a request and one for a result, and what is
done to them is done under the mutex. Between two locks the worker holds what its local variables
hold. Generations are counted without an upper bound.

`Stop` is called by the destructor only and is left out.
-/

namespace Mozkey.Session

open Infra

structure ZenzLiveRequest where
  generation : Nat := 0
  key : Bytes := []
  prompt : Bytes := []
  readingKatakana : Bytes := []
  leftContext : Bytes := []
  mozcValue : Bytes := []
  pipeName : Bytes := []
  timeoutMsec : Nat := 180
  maxOutputChars : Nat := 128
  issuedAt : Nat := 0
  deriving DecidableEq

structure ZenzLiveResponse where
  generation : Nat := 0
  key : Bytes := []
  value : Bytes := []
  debug : Bytes := []
  ok : Bool := false
  timeout : Bool := false
  deriving DecidableEq

/-- What the worker is doing. -/
inductive Worker where
  | waiting
  | converting (request : ZenzLiveRequest)
  | converted (request : ZenzLiveRequest) (response : ZenzLiveResponse)
  deriving DecidableEq

/-- The request that the worker is busy with. -/
def Worker.request : Worker → Option ZenzLiveRequest
  | .waiting => none
  | .converting request => some request
  | .converted request _ => some request

structure ZenzLiveCorrector where
  latestRequest : Option ZenzLiveRequest := none
  latestResult : Option ZenzLiveResponse := none
  worker : Worker := .waiting
  deriving DecidableEq

namespace ZenzLiveCorrector

def submit (request : ZenzLiveRequest) (c : ZenzLiveCorrector) : ZenzLiveCorrector :=
  { c with latestRequest := some request, latestResult := none }

def cancelPending (c : ZenzLiveCorrector) : ZenzLiveCorrector :=
  { c with latestRequest := none, latestResult := none }

/-- A result of another generation is dropped. -/
def takeResult (generation : Nat) (c : ZenzLiveCorrector) :
    Option ZenzLiveResponse × ZenzLiveCorrector :=
  match c.latestResult with
  | none => (none, c)
  | some response =>
    if response.generation ≠ generation then (none, { c with latestResult := none })
    else (some response, { c with latestResult := none })

/-- The response while no client is available. -/
def unavailable (request : ZenzLiveRequest) : ZenzLiveResponse where
  generation := request.generation
  key := request.key
  debug := utf8 "zenz_client_unavailable"

inductive WorkerAction where
  | take
  | finish (response : ZenzLiveResponse)
  | store
  deriving DecidableEq

/-- `WorkerLoop`, from one lock to the next. `converts` is the client's `Convert`. -/
inductive WorkerStep (converts : ZenzLiveRequest → ZenzLiveResponse → Prop)
    (c : ZenzLiveCorrector) : WorkerAction → ZenzLiveCorrector → Prop where
  | take {request : ZenzLiveRequest} :
      c.worker = .waiting → c.latestRequest = some request →
      WorkerStep converts c .take { c with latestRequest := none, worker := .converting request }
  | finish {request : ZenzLiveRequest} {response : ZenzLiveResponse} :
      c.worker = .converting request →
      response = unavailable request ∨ converts request response →
      WorkerStep converts c (.finish response) { c with worker := .converted request response }
  | store {request : ZenzLiveRequest} {response : ZenzLiveResponse} :
      c.worker = .converted request response →
      -- a newer request may be queued already
      WorkerStep converts c .store { c with latestResult := some response, worker := .waiting }

/-- The result that is taken has the generation that is asked for. -/
theorem generation_of_takeResult {generation : Nat} {c : ZenzLiveCorrector}
    {response : ZenzLiveResponse} (h : (c.takeResult generation).1 = some response) :
    c.latestResult = some response ∧ response.generation = generation := by
  unfold takeResult at h
  split at h
  · cases h
  · next hresult =>
    split at h
    · cases h
    · next hgen =>
      cases h
      exact ⟨hresult, not_ne_iff.mp hgen⟩

theorem takeResult_of_latest {c : ZenzLiveCorrector} {response : ZenzLiveResponse}
    (h : c.latestResult = some response) :
    (c.takeResult response.generation).1 = some response := by
  unfold takeResult
  rw [h]
  exact congrArg Prod.fst (if_neg (not_ne_iff.mpr rfl))

@[simp] theorem takeResult_latestRequest (generation : Nat) (c : ZenzLiveCorrector) :
    (c.takeResult generation).2.latestRequest = c.latestRequest := by
  unfold takeResult
  split
  · rfl
  · split <;> rfl

@[simp] theorem takeResult_worker (generation : Nat) (c : ZenzLiveCorrector) :
    (c.takeResult generation).2.worker = c.worker := by
  unfold takeResult
  split
  · rfl
  · split <;> rfl

@[simp] theorem takeResult_latestResult (generation : Nat) (c : ZenzLiveCorrector) :
    (c.takeResult generation).2.latestResult = none := by
  unfold takeResult
  split
  · next h => exact h
  · split <;> rfl

end ZenzLiveCorrector

open Zenz

structure PendingZenzLiveCorrection where
  generation : Nat := 0
  key : Bytes := []
  leftContext : Bytes := []
  rightContext : Bytes := []
  contextClass : Bytes := []
  mozcValue : Bytes := []
  symbolStyleSource : Bytes := []
  prompt : Bytes := []
  promptReading : Bytes := []
  properNameProxyActive : Bool := false
  protectedSpans : List ProtectedConversionSpan := []
  baselineSegments : List ZenzBaselineSegment := []
  issuedAt : Nat := 0
  pending : Bool := false
  submitted : Bool := false
  forced : Bool := false
  bypassAutomaticFeedback : Bool := false
  pollCount : Nat := 0

/-- The fields `zenz_live_*` of a value that is shown. -/
structure VisibleCorrection where
  generation : Nat := 0
  key : Bytes := []
  displayKey : Bytes := []
  value : Bytes := []
  mozcValue : Bytes := []
  contextClass : Bytes := []
  leftContext : Bytes := []
  deriving DecidableEq

/-- `taken` is the response that `ApplyZenzLiveCorrectionResult` is given. -/
structure LiveState where
  imeState : ImeState := .direct
  liveConversionActive : Bool := false
  liveConversionKey : Bytes := []
  liveConversionValue : Bytes := []
  zenzLiveGeneration : Nat := 0
  pendingZenzLive : PendingZenzLiveCorrection := {}
  zenzLive : VisibleCorrection := {}
  zenzLiveCorrector : Option ZenzLiveCorrector := none
  taken : Option ZenzLiveResponse := none

/-- What the configuration says of waiting. -/
structure PollConfig where
  pipeName : Bytes := []
  timeoutMsec : Nat := 180
  deferLiveConversionDisplayUntilZenzResult : Bool := false
  deferredPresentationTimeoutMsec : Nat := 300

def kDefaultZenzLiveCorrectionPollMsec : Nat := 24

def kZenzLiveCorrectionAsyncWaitMsec : Nat := 3000

namespace LiveState

def hasVisibleZenzLiveCorrection (s : LiveState) : Bool :=
  s.zenzLive.generation != 0 && !s.zenzLive.key.isEmpty && !s.zenzLive.value.isEmpty &&
    !s.zenzLive.mozcValue.isEmpty && s.liveConversionActive && s.imeState == .conversion &&
    s.liveConversionKey == s.zenzLive.key && s.liveConversionValue == s.zenzLive.mozcValue

/-- The correction that is shown. -/
def visibleCorrection (s : LiveState) : Option VisibleCorrection :=
  if s.hasVisibleZenzLiveCorrection then some s.zenzLive else none

def cancelPendingZenzLiveCorrection (s : LiveState) : LiveState :=
  { s with
    zenzLiveGeneration := s.zenzLiveGeneration + 1
    pendingZenzLive := {}
    zenzLiveCorrector := s.zenzLiveCorrector.map (·.cancelPending) }

def clearZenzLiveCorrectionState (s : LiveState) : LiveState :=
  { s.cancelPendingZenzLiveCorrection with zenzLive := {} }

/-- What `MaybeScheduleZenzLiveCorrection` has computed for a request. -/
structure Schedule where
  leftContext : Bytes := []
  rightContext : Bytes := []
  contextClass : Bytes := []
  symbolStyleSource : Bytes := []
  prompt : Bytes := []
  promptReading : Bytes := []
  properNameProxyActive : Bool := false
  protectedSpans : List ProtectedConversionSpan := []
  baselineSegments : List ZenzBaselineSegment := []
  issuedAt : Nat := 0
  forced : Bool := false
  bypassAutomaticFeedback : Bool := false

/-- The end of `MaybeScheduleZenzLiveCorrection`, where nothing has been refused. -/
def scheduleZenzLiveCorrection (schedule : Schedule) (s : LiveState) : LiveState :=
  { s with
    zenzLiveGeneration := s.zenzLiveGeneration + 1
    pendingZenzLive :=
      { generation := s.zenzLiveGeneration + 1
        key := s.liveConversionKey
        leftContext := schedule.leftContext
        rightContext := schedule.rightContext
        contextClass := schedule.contextClass
        mozcValue := s.liveConversionValue
        symbolStyleSource := schedule.symbolStyleSource
        prompt := schedule.prompt
        promptReading := schedule.promptReading
        properNameProxyActive := schedule.properNameProxyActive
        protectedSpans := schedule.protectedSpans
        baselineSegments := schedule.baselineSegments
        issuedAt := schedule.issuedAt
        pending := true
        submitted := false
        forced := schedule.forced
        bypassAutomaticFeedback := schedule.bypassAutomaticFeedback
        pollCount := 0 } }

/-- The end of `MaybeApplyZenzFeedbackLiveCorrection`: a value of the feedback store is shown. -/
def applyFeedback (value displayKey contextClass leftContext : Bytes) (s : LiveState) :
    LiveState :=
  { s with
    zenzLiveGeneration := s.zenzLiveGeneration + 1
    pendingZenzLive := {}
    zenzLive :=
      { generation := s.zenzLiveGeneration + 1
        key := s.liveConversionKey
        displayKey, value
        mozcValue := s.liveConversionValue
        contextClass, leftContext } }

/-- The request for the pending correction. -/
def zenzLiveRequest (config : PollConfig) (now : Nat) (s : LiveState) : ZenzLiveRequest where
  generation := s.pendingZenzLive.generation
  key := s.pendingZenzLive.key
  prompt := s.pendingZenzLive.prompt
  readingKatakana := PromptBuilder.hiraganaToKatakana
    (if s.pendingZenzLive.promptReading.isEmpty then s.pendingZenzLive.key
      else s.pendingZenzLive.promptReading)
  leftContext := s.pendingZenzLive.leftContext
  mozcValue := s.pendingZenzLive.mozcValue
  pipeName := config.pipeName
  timeoutMsec := config.timeoutMsec
  maxOutputChars := 256
  issuedAt := now

/-- `AdvancePendingZenzLiveCorrection`, the first time. -/
def submitPending (config : PollConfig) (now : Nat) (s : LiveState) : LiveState :=
  { s with
    pendingZenzLive := { s.pendingZenzLive with issuedAt := now, submitted := true, pollCount := 0 }
    zenzLiveCorrector :=
      some ((s.zenzLiveCorrector.getD {}).submit (s.zenzLiveRequest config now)) }

/-- `AdvancePendingZenzLiveCorrection` after that. A result that is there is `taken`. -/
def pollPending (config : PollConfig) (now : Nat) (s : LiveState) : LiveState :=
  match s.zenzLiveCorrector with
  | none => s.cancelPendingZenzLiveCorrection
  | some corrector =>
    if config.deferLiveConversionDisplayUntilZenzResult &&
        config.deferredPresentationTimeoutMsec ≤ now - s.pendingZenzLive.issuedAt then
      s.cancelPendingZenzLiveCorrection
    else
      match corrector.takeResult s.pendingZenzLive.generation with
      | (some response, corrector) =>
        { s with zenzLiveCorrector := some corrector, taken := some response }
      | (none, corrector) =>
        let pollCount := s.pendingZenzLive.pollCount + 1
        let s := { s with
          zenzLiveCorrector := some corrector
          pendingZenzLive := { s.pendingZenzLive with pollCount } }
        let asyncWaitMsec := max config.timeoutMsec kZenzLiveCorrectionAsyncWaitMsec
        let maxPollCount := max 1 (asyncWaitMsec / kDefaultZenzLiveCorrectionPollMsec + 2)
        let timedOut := asyncWaitMsec ≤ now - s.pendingZenzLive.issuedAt
        if timedOut || maxPollCount ≤ pollCount then s.cancelPendingZenzLiveCorrection else s

def advancePendingZenzLiveCorrection (config : PollConfig) (now : Nat) (s : LiveState) :
    LiveState :=
  if !s.pendingZenzLive.submitted then s.submitPending config now else s.pollPending config now

/-- Whether a callback is for the pending correction. -/
def isCurrentZenzLiveCorrectionCallback (generation : Option Nat) (key : Option Bytes)
    (s : LiveState) : Bool :=
  s.pendingZenzLive.pending && generation == some s.pendingZenzLive.generation &&
    key == some s.pendingZenzLive.key && s.imeState == .conversion && s.liveConversionActive &&
    s.liveConversionKey == s.pendingZenzLive.key &&
    s.liveConversionValue == s.pendingZenzLive.mozcValue

/-- What `SendCommand` does at its end. -/
def endCommand (s : LiveState) : LiveState :=
  if s.imeState ≠ .conversion then
    { s.clearZenzLiveCorrectionState with liveConversionActive := false }
  else s

/-- `ApplyZenzLiveCorrection`. A stale callback only shows again what is shown. -/
def applyZenzLiveCorrection (generation : Option Nat) (key : Option Bytes) (config : PollConfig)
    (now : Nat) (s : LiveState) : LiveState :=
  if s.isCurrentZenzLiveCorrectionCallback generation key then
    s.advancePendingZenzLiveCorrection config now
  else s.endCommand

/-- A value that has been accepted. -/
structure Adopted where
  value : Bytes
  displayKey : Bytes
  contextClass : Bytes
  deriving DecidableEq

/-- `ApplyZenzLiveCorrectionResult`, where it is left. -/
def applyZenzLiveCorrectionResult (adopted : Option Adopted) (s : LiveState) : LiveState :=
  match adopted with
  | none => { s.cancelPendingZenzLiveCorrection with taken := none }
  | some adopted =>
    { s with
      zenzLive :=
        { generation := s.pendingZenzLive.generation
          key := s.pendingZenzLive.key
          displayKey := adopted.displayKey
          value := adopted.value
          mozcValue := s.pendingZenzLive.mozcValue
          contextClass :=
            if adopted.contextClass.isEmpty then utf8 "empty" else adopted.contextClass
          leftContext := s.pendingZenzLive.leftContext }
      pendingZenzLive := { s.pendingZenzLive with pending := false }
      taken := none }

end LiveState

/-! ## Interleavings -/

inductive LiveAction where
  | edit (imeState : ImeState) (active : Bool) (key value : Bytes)
  | cancel
  | clear
  | applyFeedback (value displayKey contextClass leftContext : Bytes)
  | schedule (schedule : LiveState.Schedule)
  /-- A correction that starts at once. -/
  | start (config : PollConfig) (now : Nat)
  | callback (generation : Option Nat) (key : Option Bytes) (config : PollConfig) (now : Nat)
  | result (adopted : Option LiveState.Adopted)
  | worker (action : ZenzLiveCorrector.WorkerAction)

/-- The session's actions, and between them the worker's. While a response is taken the session
does nothing else. -/
inductive LiveStep (converts : ZenzLiveRequest → ZenzLiveResponse → Prop) (s : LiveState) :
    LiveAction → LiveState → Prop where
  | edit {imeState : ImeState} {active : Bool} {key value : Bytes} :
      s.taken = none →
      LiveStep converts s (.edit imeState active key value)
        { s with
          imeState
          liveConversionActive := active
          liveConversionKey := key
          liveConversionValue := value }
  | cancel : s.taken = none → LiveStep converts s .cancel s.cancelPendingZenzLiveCorrection
  | clear : s.taken = none → LiveStep converts s .clear s.clearZenzLiveCorrectionState
  | applyFeedback {value displayKey contextClass leftContext : Bytes} :
      s.taken = none →
      LiveStep converts s (.applyFeedback value displayKey contextClass leftContext)
        (s.applyFeedback value displayKey contextClass leftContext)
  | schedule {schedule : LiveState.Schedule} :
      s.taken = none →
      LiveStep converts s (.schedule schedule) (s.scheduleZenzLiveCorrection schedule)
  | start {config : PollConfig} {now : Nat} :
      s.taken = none → s.pendingZenzLive.pending = true → s.pendingZenzLive.submitted = false →
      LiveStep converts s (.start config now) (s.advancePendingZenzLiveCorrection config now)
  | callback {generation : Option Nat} {key : Option Bytes} {config : PollConfig} {now : Nat} :
      s.taken = none →
      LiveStep converts s (.callback generation key config now)
        (s.applyZenzLiveCorrection generation key config now)
  | result {response : ZenzLiveResponse} {adopted : Option LiveState.Adopted} :
      s.taken = some response →
      (adopted.isSome → response.ok = true ∧ response.timeout = false) →
      LiveStep converts s (.result adopted) (s.applyZenzLiveCorrectionResult adopted)
  | worker {corrector corrector' : ZenzLiveCorrector}
      {action : ZenzLiveCorrector.WorkerAction} :
      s.zenzLiveCorrector = some corrector →
      ZenzLiveCorrector.WorkerStep converts corrector action corrector' →
      LiveStep converts s (.worker action) { s with zenzLiveCorrector := some corrector' }

end Mozkey.Session
