import Mozkey.Session.ZenzLiveCorrection
import Mozkey.Session.ZenzSettings
import Mozkey.Zenz.ContextAssembler
import Mozkey.Zenz.AdoptionGuarantees
import Mozkey.Zenz.PromptProtection
import Mozkey.Zenz.SymbolRepair

/-!
# From a response to the value that is shown

`Session::ApplyZenzLiveCorrectionResult` of `session/session.cc`. A response is restored and
repaired, validated, adopted, and what the adoption made of it is checked once more, but not
validated once more.

The feedback store is what its log says, and the readings of the converter are a parameter.
-/

namespace Mozkey.Session

open Infra Base Zenz OutputValidator

/-- What the function reads besides the pending correction and the response. -/
structure ResultInput where
  context : InputContext := {}
  feedback : List ParsedFeedbackRecord := []
  /-- `GetReadingText`, none when it fails. -/
  getReadingText : Bytes → Option Bytes := fun _ => none

/-- How the function is left: with a reason and Mozc's value on the screen, or with a value that
is shown. `shadow` is what is compared with the user's commit though it is not shown. -/
inductive ResultOutcome where
  | stopped (reason : Bytes) (shadow : Option Bytes)
  | shown (adopted : LiveState.Adopted)
deriving DecidableEq

/-- What the session is told to show. -/
def ResultOutcome.adopted : ResultOutcome → Option LiveState.Adopted
  | .stopped .. => none
  | .shown adopted => some adopted

namespace PendingZenzLiveCorrection

def zenzSymbolStyleSource (pending : PendingZenzLiveCorrection) : Bytes :=
  if pending.symbolStyleSource.isEmpty then pending.key else pending.symbolStyleSource

/-! ## Before the validation -/

def kProxySurface : Bytes := utf8 "木村"

def kHonorifics : List Bytes := ["さん", "さま", "様", "ちゃん", "くん", "君", "氏"].map utf8

/-- The stand-in of a proper name has to be there once, without an honorific behind it. -/
def checkProperNameProxy (pending : PendingZenzLiveCorrection) (value : Bytes) :
    Except Bytes Unit :=
  if !pending.properNameProxyActive then .ok ()
  else if countOccurrences value kProxySurface ≠ 1 then
    .error (utf8 "natural_name_proxy_missing_or_ambiguous")
  else
    let afterProxy := value.drop ((find kProxySurface value 0).getD 0 + kProxySurface.length)
    if kHonorifics.any fun honorific => honorific.isPrefixOf afterProxy then
      .error (utf8 "natural_name_proxy_unrequested_honorific")
    else .ok ()

/-- The value that is validated. -/
def repairedValue (pending : PendingZenzLiveCorrection) (raw : Bytes) : Except Bytes Bytes :=
  let decision := resolveLeftContextPrefix raw pending.leftContext pending.mozcValue
  if !decision.safe then .error (utf8 "ambiguous_left_context_prefix")
  else
    match pending.checkProperNameProxy decision.value with
    | .error reason => .error reason
    | .ok () =>
      .ok (repairUserControlledSymbols pending.zenzSymbolStyleSource pending.mozcValue
        (AdoptionPolicy.restorePlaceholders decision.value pending.protectedSpans))

def validationInput (pending : PendingZenzLiveCorrection) (config : ZenzConfig) (value : Bytes) :
    ZenzValidationInput where
  key := pending.key
  mozcValue := pending.mozcValue
  zenzValue := value
  leftContext := pending.leftContext
  minKeyLength := if pending.forced then 0 else getZenzLiveCorrectionMinKeyLength config
  allowSyntheticCandidate := config.useZenzSyntheticCandidate
  allowZenzEmojiChanges := config.allowZenzEmojiChanges

def adoptionInput (pending : PendingZenzLiveCorrection) (value : Bytes) : ZenzAdoptionInput where
  key := pending.key
  mozcValue := pending.mozcValue
  zenzValue := value
  protectedSpans := pending.protectedSpans
  baselineSegments := pending.baselineSegments

/-- The checks of a value before it is adopted. -/
def checkValue (pending : PendingZenzLiveCorrection) (config : ZenzConfig) (value : Bytes) :
    Except Bytes Unit :=
  let validation := validate (pending.validationInput config value)
  let keyPrivacy := evaluateZenzLiveKeyPrivacy pending.key
  let valuePrivacy := evaluateZenzLiveValuePrivacy value
  if !validation.accept then .error validation.reason
  else if !keyPrivacy.allow then .error (utf8 "key_privacy_" ++ keyPrivacy.reason)
  else if !valuePrivacy.allow then .error (utf8 "value_privacy_" ++ valuePrivacy.reason)
  else .ok ()

/-! ## After the adoption -/

/-- `ValidateZenzStrictReading` -/
def validateZenzStrictReading (getReadingText : Bytes → Option Bytes) (key candidateValue : Bytes) :
    ZenzValidationResult :=
  if candidateValue == key then validateReadingPreservation key [] key
  else
    match getReadingText candidateValue with
    | none => validateReadingPreservation key [] []
    | some candidateReading =>
      if candidateReading == key then validateReadingPreservation key [] candidateReading
      else
        validateReadingPreservation key ((getReadingText key).getD []) candidateReading

/-- The checks of a value that was adopted. -/
def checkAdopted (pending : PendingZenzLiveCorrection) (input : ResultInput) (value : Bytes) :
    Except Bytes Unit :=
  let config := input.context.config
  let valuePrivacy := evaluateZenzLiveValuePrivacy value
  let reading := validateZenzStrictReading input.getReadingText pending.key value
  if !config.allowZenzEmojiChanges && !preservesEmojiSequences pending.mozcValue value then
    .error (utf8 "emoji_sequence_changed_after_adoption")
  else if value == pending.mozcValue then .error (utf8 "same_as_mozc_after_adoption")
  else if !valuePrivacy.allow then .error (utf8 "adopted_value_privacy_" ++ valuePrivacy.reason)
  else if config.useZenzStrictReadingPreservation && !reading.accept then .error reading.reason
  else .ok ()

def contextClassOf (pending : PendingZenzLiveCorrection) (config : ZenzConfig) : Bytes :=
  if pending.contextClass.isEmpty then
    let result := ContextAssembler.sanitizeForZenz pending.leftContext
      config.zenzLiveCorrectionLeftContextLength
    if result.contextClass.isEmpty then utf8 "empty" else result.contextClass
  else pending.contextClass

/-- What the feedback says of the value. Nothing is asked while personalization is not allowed. -/
def feedbackDecision (pending : PendingZenzLiveCorrection) (input : ResultInput) (value : Bytes) :
    ZenzFeedbackDecision :=
  let contextClass := pending.contextClassOf input.context.config
  let hardRejected : ZenzFeedbackDecision :=
    { action := .reject, reason := utf8 "feedback_hard_rejected", hardRejected := true }
  if !input.context.isZenzPersistentPersonalizationContextAllowed then
    { reason := utf8 "feedback_reuse_disabled" }
  else if pending.bypassAutomaticFeedback then
    if isManuallyBlocked input.feedback pending.key contextClass value then hardRejected
    else { reason := utf8 "feedback_bypassed" }
  else if input.context.config.useZenzFeedbackReuse then
    decideFeedback input.feedback pending.key contextClass value
      (getZenzFeedbackReusePolicy input.context.config)
  else if isManuallyBlocked input.feedback pending.key contextClass value then hardRejected
  else { reason := utf8 "feedback_reuse_disabled" }

/-- From the adoption to the end. -/
def afterAdoption (pending : PendingZenzLiveCorrection) (input : ResultInput)
    (adoption : ZenzAdoptionResult) : ResultOutcome :=
  if adoption.action = .reject then .stopped adoption.reason none
  else
    match pending.checkAdopted input adoption.value with
    | .error reason => .stopped reason none
    | .ok () =>
      let decision := pending.feedbackDecision input adoption.value
      if decision.action = .reject then
        .stopped decision.reason (if decision.autoBlocked then some adoption.value else none)
      else
        .shown
          { value := adoption.value
            displayKey := restoreUserVisibleSymbolStyle pending.zenzSymbolStyleSource
              pending.mozcValue pending.key
            contextClass := pending.contextClassOf input.context.config }

def kMaxSafeDebugReasonBytes : Nat := 80

/-- `ZenzSafeDebugReason` -/
def zenzSafeDebugReason (debug : Bytes) : Bytes :=
  if debug.isEmpty then []
  else if kMaxSafeDebugReasonBytes < debug.length then utf8 "external_debug"
  else if debug.all isSecretChar then debug
  else utf8 "external_debug"

/-- `ApplyZenzLiveCorrectionResult`. The adoption is given at most `fuel` steps. -/
def resultOutcome (pending : PendingZenzLiveCorrection) (input : ResultInput)
    (response : ZenzLiveResponse) (fuel : Nat) : Option ResultOutcome :=
  if !response.ok || response.timeout then
    some (.stopped (if response.debug.isEmpty then utf8 "zenz_response_not_ok"
      else zenzSafeDebugReason response.debug) none)
  else
    match pending.repairedValue response.value with
    | .error reason => some (.stopped reason none)
    | .ok value =>
      match pending.checkValue input.context.config value with
      | .error reason => some (.stopped reason none)
      | .ok () =>
        (AdoptionPolicy.decide (pending.adoptionInput value) fuel).map (pending.afterAdoption input)

end PendingZenzLiveCorrection

/-- `ApplyZenzLiveCorrectionResult` of a session, none while the adoption has no result. -/
def LiveState.applyResult (s : LiveState) (input : ResultInput) (response : ZenzLiveResponse)
    (fuel : Nat) : Option LiveState :=
  (s.pendingZenzLive.resultOutcome input response fuel).map fun outcome =>
    s.applyZenzLiveCorrectionResult outcome.adopted

end Mozkey.Session
