import Mozkey.Base.ScriptType
import Mozkey.Infra.Runs

/-!
# The orthography policy

`session/zenz_orthography_policy.cc`. A candidate may not change the alphabetic runs of the
baseline, nor its technical tokens, up to their order.
-/

namespace Mozkey.Zenz

open Infra Base

structure ZenzOrthographyDecision where
  allow : Bool := true
  reason : Bytes := utf8 "accepted"
deriving DecidableEq

namespace OrthographyPolicy

/-! ## Technical tokens -/

def isAsciiDigit (c : UInt8) : Bool := byte '0' ≤ c && c ≤ byte '9'

def isAsciiLetter (c : UInt8) : Bool :=
  (byte 'A' ≤ c && c ≤ byte 'Z') || (byte 'a' ≤ c && c ≤ byte 'z')

/-- Version digits and technical connectors stay with the letters. -/
def isAsciiTechnicalTokenChar (c : UInt8) : Bool :=
  isAsciiDigit c || isAsciiLetter c || c == byte '_' || c == byte '-' || c == byte '.' ||
    c == byte '+' || c == byte '#' || c == byte '/'

def hasAsciiLetter (value : Bytes) : Bool := value.any isAsciiLetter

/-- A token without a letter is an ordinary number. -/
def extractAsciiTechnicalTokens (value : Bytes) : List Bytes :=
  (runs isAsciiTechnicalTokenChar value).filter hasAsciiLetter

/-! ## Alphabetic runs -/

def isAlphabet (codepoint : Nat) : Bool := getScriptType codepoint = .alphabet

/-- The code points are read up to the first ill-formed sequence. -/
def extractAlphabetRuns (value : Bytes) : List Bytes :=
  (runs isAlphabet (utf8ToUtf32 value)).map fun run => run.flatMap codepointToUtf8

/-! ## The decision -/

/-- The loop over the candidate's values. `baselineValues` are those not yet consumed. -/
def consumeAll (baselineValues : List Bytes) : List Bytes → Bool
  | [] => true
  | candidateValue :: rest =>
    if candidateValue ∈ baselineValues then consumeAll (baselineValues.erase candidateValue) rest
    else false

def stringMultisetsMatch (baselineValues candidateValues : List Bytes) : Bool :=
  if baselineValues.length ≠ candidateValues.length then false
  else consumeAll baselineValues candidateValues

def evaluate (mozcValue candidateValue : Bytes) : ZenzOrthographyDecision :=
  if !isValidUtf8 mozcValue || !isValidUtf8 candidateValue then ⟨false, utf8 "invalid_utf8"⟩
  else if mozcValue = candidateValue then {}
  else if !stringMultisetsMatch (extractAlphabetRuns mozcValue)
      (extractAlphabetRuns candidateValue) then ⟨false, utf8 "alphabetic_surface_changed"⟩
  else if !stringMultisetsMatch (extractAsciiTechnicalTokens mozcValue)
      (extractAsciiTechnicalTokens candidateValue) then
    ⟨false, utf8 "technical_token_surface_changed"⟩
  else {}

/-! ## What it allows -/

theorem consumeAll_iff : ∀ (candidateValues baselineValues : List Bytes),
    baselineValues.length = candidateValues.length →
    (consumeAll baselineValues candidateValues = true ↔ baselineValues.Perm candidateValues)
  | [], baselineValues, h => by
    have hnil : baselineValues = [] := List.length_eq_zero_iff.mp h
    rw [hnil]
    exact ⟨fun _ => .nil, fun _ => rfl⟩
  | c :: rest, baselineValues, h => by
    change (if c ∈ baselineValues then consumeAll (baselineValues.erase c) rest
      else false) = true ↔ _
    split
    · next hc =>
      have hlen : (baselineValues.erase c).length = rest.length := by
        simp [List.length_erase_of_mem hc, h]
      rw [consumeAll_iff rest _ hlen]
      have hb : baselineValues.Perm (c :: baselineValues.erase c) := List.perm_cons_erase hc
      constructor
      · intro hp
        exact hb.trans (hp.cons c)
      · intro hp
        exact (List.perm_cons c).mp (hb.symm.trans hp)
    · next hc =>
      constructor
      · intro hf
        simp at hf
      · intro hp
        exact absurd (hp.mem_iff.mpr List.mem_cons_self) hc

/-- The consumed flags compare multisets. -/
theorem stringMultisetsMatch_iff (baselineValues candidateValues : List Bytes) :
    stringMultisetsMatch baselineValues candidateValues = true ↔
      baselineValues.Perm candidateValues := by
  unfold stringMultisetsMatch
  split
  · next h =>
    constructor
    · intro hf
      simp at hf
    · intro hp
      exact absurd hp.length_eq h
  · next h => exact consumeAll_iff candidateValues baselineValues (not_not.mp h)

/-- **What is allowed: valid texts with the same alphabetic runs and technical tokens.** -/
theorem evaluate_allow_iff (mozcValue candidateValue : Bytes) :
    (evaluate mozcValue candidateValue).allow = true ↔
      isValidUtf8 mozcValue = true ∧ isValidUtf8 candidateValue = true ∧
      (extractAlphabetRuns mozcValue).Perm (extractAlphabetRuns candidateValue) ∧
      (extractAsciiTechnicalTokens mozcValue).Perm
        (extractAsciiTechnicalTokens candidateValue) := by
  rw [← stringMultisetsMatch_iff, ← stringMultisetsMatch_iff]
  unfold evaluate
  split
  · next h =>
    constructor
    · intro hf
      simp at hf
    · rintro ⟨hm, hc, -⟩
      simp [hm, hc] at h
  · next h =>
    have hv : isValidUtf8 mozcValue = true ∧ isValidUtf8 candidateValue = true := by
      simpa [not_or] using h
    split
    · next he =>
      subst he
      rw [stringMultisetsMatch_iff, stringMultisetsMatch_iff]
      constructor
      · intro _
        exact ⟨hv.1, hv.2, .refl _, .refl _⟩
      · intro _
        rfl
    · split
      · next hr =>
        rw [Bool.not_eq_true'] at hr
        rw [hr]
        constructor
        · intro hf
          simp at hf
        · rintro ⟨-, -, hf, -⟩
          simp at hf
      · next hr =>
        rw [Bool.not_eq_true', Bool.not_eq_false] at hr
        rw [hr]
        split
        · next ht =>
          rw [Bool.not_eq_true'] at ht
          rw [ht]
          constructor
          · intro hf
            simp at hf
          · rintro ⟨-, -, -, hf⟩
            simp at hf
        · next ht =>
          rw [Bool.not_eq_true', Bool.not_eq_false] at ht
          constructor
          · intro _
            exact ⟨hv.1, hv.2, rfl, ht⟩
          · intro _
            rfl

end OrthographyPolicy

end Mozkey.Zenz
