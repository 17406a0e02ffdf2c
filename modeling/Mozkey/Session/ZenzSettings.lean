import Mozkey.Base.Utf8
import Mozkey.Zenz.FeedbackDecision
import Mozkey.Zenz.TextPrivacyAnalyzer

/-!
# What a session is allowed to do

`session/session.cc`, the settings that decide about corrections and about learning from them,
and the checks that every key and every value has to pass.
-/

namespace Mozkey.Session

open Infra Base Zenz

/-! ## Settings -/

/-- The fields of `config::Config` that these functions read. -/
structure ZenzConfig where
  incognitoMode : Bool := false
  zenzLiveCorrectionMinKeyLength : Option Nat := none
  zenzLiveCorrectionLeftContextLength : Nat := 24
  useZenzSyntheticCandidate : Bool := true
  allowZenzEmojiChanges : Bool := false
  useZenzStrictReadingPreservation : Bool := false
  useZenzFeedbackRecording : Bool := false
  useZenzFeedbackReuse : Bool := false
  useZenzMozcHistoryLearning : Bool := false
  useZenzFeedbackMinKeyLength : Bool := true
  zenzFeedbackMinKeyLength : Nat := 7
  useZenzAutoBlockRejectedCorrection : Bool := false
  zenzAutoBlockRejectThreshold : Nat := 1
  zenzAutoBlockMinimumRejectPercentage : Nat := 50

/-- `commands::Context::InputFieldType` -/
inductive InputFieldType where
  | normal
  | password
  | tel
  | number
deriving DecidableEq

/-- What the gates read of `ImeContext`: configuration, request, client context and composer. -/
structure InputContext where
  config : ZenzConfig := {}
  isIncognitoMode : Bool := false
  isPrivateInput : Bool := false
  inputFieldType : InputFieldType := .normal

def kDefaultZenzLiveCorrectionMinKeyLength : Nat := 2

def getZenzLiveCorrectionMinKeyLength (config : ZenzConfig) : Nat :=
  match config.zenzLiveCorrectionMinKeyLength with
  | none => kDefaultZenzLiveCorrectionMinKeyLength
  | some length => max 2 length

/-- `static_cast<int>` of an unsigned number of 32 bits. -/
def toInt (n : Nat) : Int := if n < 2 ^ 31 then n else n - 2 ^ 32

def getZenzFeedbackReusePolicy (config : ZenzConfig) : ZenzFeedbackReusePolicy where
  minimumKeyLengthEnabled := config.useZenzFeedbackMinKeyLength
  minimumKeyLength := min 20 (max 1 config.zenzFeedbackMinKeyLength)
  autoBlockPolicy :=
    { enabled := config.useZenzAutoBlockRejectedCorrection
      minimumRejectCount := toInt config.zenzAutoBlockRejectThreshold
      minimumRejectPercentage := toInt config.zenzAutoBlockMinimumRejectPercentage }

/-! ## Gates -/

namespace InputContext

def isZenzPersistentPersonalizationContextAllowed (context : InputContext) : Bool :=
  !context.config.incognitoMode && !context.isIncognitoMode

def canReuseZenzFeedbackAutomatically (context : InputContext) : Bool :=
  context.config.useZenzFeedbackReuse && context.isZenzPersistentPersonalizationContextAllowed

def canPersistZenzLearningFromInput (context : InputContext) : Bool :=
  context.isZenzPersistentPersonalizationContextAllowed && !context.isPrivateInput &&
    context.inputFieldType != .password

def canRecordZenzFeedback (context : InputContext) : Bool :=
  context.config.useZenzFeedbackRecording && context.canPersistZenzLearningFromInput

def canLearnZenzToMozcHistory (context : InputContext) : Bool :=
  context.config.useZenzMozcHistoryLearning && context.canPersistZenzLearningFromInput

end InputContext

/-! ## Private text -/

structure ZenzTextPrivacyDecision where
  allow : Bool := false
  reason : Bytes := utf8 "unspecified"
deriving DecidableEq

def kMaxZenzLiveCorrectionKeyChars : Nat := 64

def kMaxZenzLiveCorrectionValueChars : Nat := 128

def kJapaneseScriptRanges : List (Nat × Nat) :=
  [(0x3040, 0x309F), (0x30A0, 0x30FF), (0xFF66, 0xFF9F), (0x4E00, 0x9FFF), (0x3400, 0x4DBF),
    (0xF900, 0xFAFF), (0x20000, 0x2A6DF), (0x2A700, 0x2B73F), (0x2B740, 0x2B81F),
    (0x2B820, 0x2CEAF), (0x30000, 0x3134F)]

def isJapaneseScriptSignal (c : Nat) : Bool :=
  kJapaneseScriptRanges.any fun (first, last) => first ≤ c && c ≤ last

def containsJapaneseScriptSignal (text : Bytes) : Bool :=
  (utf8ToUtf32 text).any isJapaneseScriptSignal

def isControlChar (c : UInt8) : Bool := c < 0x20 || c == 0x7F

def evaluateZenzLiveKeyPrivacy (key : Bytes) : ZenzTextPrivacyDecision :=
  let privacy := TextPrivacyAnalyzer.analyze key .liveText
  if key.isEmpty then ⟨false, utf8 "empty_key"⟩
  else if !isValidUtf8 key then ⟨false, utf8 "invalid_utf8"⟩
  else if key.any isControlChar then ⟨false, utf8 "control_char"⟩
  else if kMaxZenzLiveCorrectionKeyChars < charsLen key then ⟨false, utf8 "key_too_long"⟩
  else if !containsJapaneseScriptSignal key then ⟨false, utf8 "no_japanese_signal"⟩
  else if privacy.sensitive then ⟨false, privacy.reason⟩
  else ⟨true, utf8 "allow"⟩

/-- A value need not contain a Japanese character. -/
def evaluateZenzLiveValuePrivacy (value : Bytes) : ZenzTextPrivacyDecision :=
  let privacy := TextPrivacyAnalyzer.analyze value .liveText
  if value.isEmpty then ⟨false, utf8 "empty_value"⟩
  else if !isValidUtf8 value then ⟨false, utf8 "invalid_utf8"⟩
  else if value.any isControlChar then ⟨false, utf8 "control_char"⟩
  else if kMaxZenzLiveCorrectionValueChars < charsLen value then ⟨false, utf8 "value_too_long"⟩
  else if privacy.sensitive then ⟨false, privacy.reason⟩
  else ⟨true, utf8 "allow"⟩

/-- What an allowed value is. -/
theorem allowed_value {value : Bytes} (h : (evaluateZenzLiveValuePrivacy value).allow = true) :
    value ≠ [] ∧ isValidUtf8 value = true ∧
      (TextPrivacyAnalyzer.analyze value .liveText).sensitive = false := by
  unfold evaluateZenzLiveValuePrivacy at h
  dsimp only at h
  split at h
  · cases h
  · next hne =>
    split at h
    · cases h
    · next hvalid =>
      split at h
      · cases h
      · split at h
        · cases h
        · split at h
          · cases h
          · next hs =>
            rw [List.isEmpty_iff] at hne
            rw [Bool.not_eq_true, Bool.not_eq_false'] at hvalid
            exact ⟨hne, hvalid, Bool.not_eq_true _ ▸ hs⟩

end Mozkey.Session
