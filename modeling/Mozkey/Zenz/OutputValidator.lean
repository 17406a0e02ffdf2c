import Mozkey.Infra.Find
import Mozkey.Zenz.PromptFraming

/-!
# Validating the model's output

`session/zenz_output_validator.cc`, the checks an output has to pass before it may be shown.
-/

namespace Mozkey.Zenz.OutputValidator

open Infra Base

structure ZenzValidationInput where
  key : Bytes
  mozcValue : Bytes
  zenzValue : Bytes
  leftContext : Bytes
  minKeyLength : Nat := 5
  allowSyntheticCandidate : Bool := true
  allowZenzEmojiChanges : Bool := false

structure ZenzValidationResult where
  accept : Bool
  synthetic : Bool
  reason : Bytes
deriving DecidableEq

def accept (synthetic : Bool) (reason : String) : ZenzValidationResult :=
  ⟨true, synthetic, utf8 reason⟩

def reject (reason : String) : ZenzValidationResult := ⟨false, false, utf8 reason⟩

/-! ## Special tokens -/

def containsSpecialToken (text : Bytes) : Bool :=
  if contains (utf8 "<s>") text || contains (utf8 "</s>") text || contains (utf8 "<unk>") text ||
      contains (utf8 "<|endoftext|>") text then true
  else
    let (cps, unread) := walk decodeOneUtf8 text
    -- prompt markers U+EE00..U+EE06
    cps.any (fun cp => 0xEE00 ≤ cp && cp ≤ 0xEE06) || !unread.isEmpty

/-! ## URLs and secrets -/

def looksLikeUrlOrEmail (text : Bytes) : Bool :=
  contains (utf8 "://") text || contains (utf8 "www.") text || contains (utf8 "@") text

def isSecretChar (c : UInt8) : Bool :=
  (byte 'a' ≤ c && c ≤ byte 'z') || (byte 'A' ≤ c && c ≤ byte 'Z') ||
    (byte '0' ≤ c && c ≤ byte '9') || c == byte '_' || c == byte '-' || c == byte '.'

def looksLikeSecret (text : Bytes) : Bool :=
  if 32 ≤ text.length && 80 ≤ text.countP isSecretChar * 100 / text.length then true
  else
    contains (utf8 "password") text || contains (utf8 "passwd") text ||
      contains (utf8 "secret") text || contains (utf8 "token") text ||
      contains (utf8 "api_key") text || contains (utf8 "apikey") text

/-! ## Left context -/

/-- The characters of a text, none when it is ill-formed. -/
def splitUtf8ForSymbolRestore (text : Bytes) : List (Nat × Bytes) :=
  let next : Bytes → Option ((Nat × Bytes) × Nat) := fun s =>
    (decodeOneUtf8 s).map fun (cp, len) => ((cp, s.take len), len)
  let (chars, unread) := walk next text
  if unread.isEmpty then chars else []

/-- The longest of at most `n` characters that end the context and begin the value. -/
def longestOverlap (contextChars valueChars : List Bytes) : Nat → Nat
  | 0 => 0
  | n + 1 =>
    if contextChars.drop (contextChars.length - (n + 1)) = valueChars.take (n + 1) then n + 1
    else longestOverlap contextChars valueChars n

def longestLeftContextSuffixPrefixChars (leftContext zenzValue : Bytes) : Nat :=
  if leftContext.isEmpty || zenzValue.isEmpty then 0
  else
    let contextChars := (splitUtf8ForSymbolRestore leftContext).map Prod.snd
    let valueChars := (splitUtf8ForSymbolRestore zenzValue).map Prod.snd
    if contextChars.isEmpty || valueChars.isEmpty then 0
    else longestOverlap contextChars valueChars (min contextChars.length valueChars.length)

def looksLikeLeftContextEcho (input : ZenzValidationInput) (keyLen valueLen : Nat) : Bool :=
  let kMinContextEchoChars := 4
  let echoLen := longestLeftContextSuffixPrefixChars input.leftContext input.zenzValue
  if echoLen < kMinContextEchoChars then false
  else
    let baselineLen := max 1 (max keyLen (charsLen input.mozcValue))
    if baselineLen * 2 + 1 ≤ echoLen then true else echoLen + baselineLen ≤ valueLen

/-! ## Emoji -/

/-- Ranges with the Unicode Emoji property. -/
def kEmojiPropertyRanges : List (Nat × Nat) :=
  [
    (0x23, 0x23), (0x2a, 0x2a), (0x30, 0x39), (0xa9, 0xa9), (0xae, 0xae), (0x203c, 0x203c),
    (0x2049, 0x2049), (0x2122, 0x2122), (0x2139, 0x2139), (0x2194, 0x2199), (0x21a9, 0x21aa),
    (0x231a, 0x231b), (0x2328, 0x2328), (0x23cf, 0x23cf), (0x23e9, 0x23f3), (0x23f8, 0x23fa),
    (0x24c2, 0x24c2), (0x25aa, 0x25ab), (0x25b6, 0x25b6), (0x25c0, 0x25c0), (0x25fb, 0x25fe),
    (0x2600, 0x2604), (0x260e, 0x260e), (0x2611, 0x2611), (0x2614, 0x2615), (0x2618, 0x2618),
    (0x261d, 0x261d), (0x2620, 0x2620), (0x2622, 0x2623), (0x2626, 0x2626), (0x262a, 0x262a),
    (0x262e, 0x262f), (0x2638, 0x263a), (0x2640, 0x2640), (0x2642, 0x2642), (0x2648, 0x2653),
    (0x265f, 0x2660), (0x2663, 0x2663), (0x2665, 0x2666), (0x2668, 0x2668), (0x267b, 0x267b),
    (0x267e, 0x267f), (0x2692, 0x2697), (0x2699, 0x2699), (0x269b, 0x269c), (0x26a0, 0x26a1),
    (0x26a7, 0x26a7), (0x26aa, 0x26ab), (0x26b0, 0x26b1), (0x26bd, 0x26be), (0x26c4, 0x26c5),
    (0x26c8, 0x26c8), (0x26ce, 0x26cf), (0x26d1, 0x26d1), (0x26d3, 0x26d4), (0x26e9, 0x26ea),
    (0x26f0, 0x26f5), (0x26f7, 0x26fa), (0x26fd, 0x26fd), (0x2702, 0x2702), (0x2705, 0x2705),
    (0x2708, 0x270d), (0x270f, 0x270f), (0x2712, 0x2712), (0x2714, 0x2714), (0x2716, 0x2716),
    (0x271d, 0x271d), (0x2721, 0x2721), (0x2728, 0x2728), (0x2733, 0x2734), (0x2744, 0x2744),
    (0x2747, 0x2747), (0x274c, 0x274c), (0x274e, 0x274e), (0x2753, 0x2755), (0x2757, 0x2757),
    (0x2763, 0x2764), (0x2795, 0x2797), (0x27a1, 0x27a1), (0x27b0, 0x27b0), (0x27bf, 0x27bf),
    (0x2934, 0x2935), (0x2b05, 0x2b07), (0x2b1b, 0x2b1c), (0x2b50, 0x2b50), (0x2b55, 0x2b55),
    (0x3030, 0x3030), (0x303d, 0x303d), (0x3297, 0x3297), (0x3299, 0x3299), (0x1f004, 0x1f004),
    (0x1f0cf, 0x1f0cf), (0x1f170, 0x1f171), (0x1f17e, 0x1f17f), (0x1f18e, 0x1f18e),
    (0x1f191, 0x1f19a), (0x1f1e6, 0x1f1ff), (0x1f201, 0x1f202), (0x1f21a, 0x1f21a),
    (0x1f22f, 0x1f22f), (0x1f232, 0x1f23a), (0x1f250, 0x1f251), (0x1f300, 0x1f321),
    (0x1f324, 0x1f393), (0x1f396, 0x1f397), (0x1f399, 0x1f39b), (0x1f39e, 0x1f3f0),
    (0x1f3f3, 0x1f3f5), (0x1f3f7, 0x1f4fd), (0x1f4ff, 0x1f53d), (0x1f549, 0x1f54e),
    (0x1f550, 0x1f567), (0x1f56f, 0x1f570), (0x1f573, 0x1f57a), (0x1f587, 0x1f587),
    (0x1f58a, 0x1f58d), (0x1f590, 0x1f590), (0x1f595, 0x1f596), (0x1f5a4, 0x1f5a5),
    (0x1f5a8, 0x1f5a8), (0x1f5b1, 0x1f5b2), (0x1f5bc, 0x1f5bc), (0x1f5c2, 0x1f5c4),
    (0x1f5d1, 0x1f5d3), (0x1f5dc, 0x1f5de), (0x1f5e1, 0x1f5e1), (0x1f5e3, 0x1f5e3),
    (0x1f5e8, 0x1f5e8), (0x1f5ef, 0x1f5ef), (0x1f5f3, 0x1f5f3), (0x1f5fa, 0x1f64f),
    (0x1f680, 0x1f6c5), (0x1f6cb, 0x1f6d2), (0x1f6d5, 0x1f6d8), (0x1f6dc, 0x1f6e5),
    (0x1f6e9, 0x1f6e9), (0x1f6eb, 0x1f6ec), (0x1f6f0, 0x1f6f0), (0x1f6f3, 0x1f6fc),
    (0x1f7e0, 0x1f7eb), (0x1f7f0, 0x1f7f0), (0x1f90c, 0x1f93a), (0x1f93c, 0x1f945),
    (0x1f947, 0x1f9ff), (0x1fa70, 0x1fa7c), (0x1fa80, 0x1fa8a), (0x1fa8e, 0x1fac6),
    (0x1fac8, 0x1fac8), (0x1facd, 0x1fadc), (0x1fadf, 0x1faea), (0x1faef, 0x1faf8)]

/-- The first range that does not end before `cp` begins at it or before. -/
def hasEmojiProperty (cp : Nat) : Bool :=
  match kEmojiPropertyRanges.find? fun range => cp ≤ range.2 with
  | none => false
  | some range => range.1 ≤ cp

def isKeycapBase (cp : Nat) : Bool :=
  (0x30 ≤ cp && cp ≤ 0x39) || cp == 0x23 || cp == 0x2A

/-- The loop over the scalars of a cluster. -/
def hasEmojiScalar : List Nat → Bool
  | [] => false
  | cp :: rest =>
    if !hasEmojiProperty cp then hasEmojiScalar rest
    else if isKeycapBase cp then
      let next := if rest.head? = some 0xFE0F then rest.tail else rest
      if next.head? = some 0x20E3 then true else hasEmojiScalar rest
    -- common as technical text
    else if cp == 0x00A9 || cp == 0x00AE || cp == 0x2122 then
      if rest.head? = some 0xFE0F then true else hasEmojiScalar rest
    -- text presentation
    else if rest.head? = some 0xFE0E then hasEmojiScalar rest
    else true

def isEmojiCluster (cluster : Bytes) : Bool := hasEmojiScalar (utf8ToUtf32 cluster)

/-- A keycap without a presentation selector can come as two graphemes. -/
def emojiClusters : List Bytes → List Bytes
  | [] => []
  | [grapheme] => if isEmojiCluster grapheme then [grapheme] else []
  | grapheme :: next :: rest =>
    if ((utf8ToUtf32 grapheme).getLast?.any isKeycapBase) && next == [0xE2, 0x83, 0xA3] then
      (grapheme ++ next) :: emojiClusters rest
    else if isEmojiCluster grapheme then grapheme :: emojiClusters (next :: rest)
    else emojiClusters (next :: rest)

def extractEmojiClusters (text : Bytes) : List Bytes :=
  emojiClusters (splitStringToUtf8Graphemes text)

def preservesEmojiSequences (mozcValue zenzValue : Bytes) : Bool :=
  if !isValidUtf8 mozcValue || !isValidUtf8 zenzValue then false
  else extractEmojiClusters mozcValue == extractEmojiClusters zenzValue

/-! ## The checks in order -/

def validate (input : ZenzValidationInput) : ZenzValidationResult :=
  if input.key.isEmpty then reject "empty_key"
  else if input.zenzValue.isEmpty then reject "empty_value"
  else if input.zenzValue == input.mozcValue then reject "same_as_mozc"
  else if charsLen input.key < input.minKeyLength then reject "too_short_key"
  else if containsSpecialToken input.zenzValue then reject "special_token"
  else if !isValidUtf8 input.zenzValue then reject "invalid_utf8"
  else if !input.allowZenzEmojiChanges &&
      !preservesEmojiSequences input.mozcValue input.zenzValue then
    reject "emoji_sequence_changed"
  else
    let keyLen := charsLen input.key
    let valueLen := charsLen input.zenzValue
    if valueLen == 0 then reject "zero_value_len"
    else if looksLikeLeftContextEcho input keyLen valueLen then reject "left_context_echo"
    else if keyLen * 3 + 8 < valueLen then reject "too_long_value"
    else if looksLikeUrlOrEmail input.zenzValue then reject "url_or_email"
    else if looksLikeSecret input.zenzValue then reject "secret_like"
    else if !input.allowSyntheticCandidate then reject "synthetic_disabled"
    else accept true "accepted_synthetic"

/-- A strict prefix or suffix of Mozc's conversion. -/
def isObviousSurfaceTruncation (mozcValue candidateValue : Bytes) : Bool :=
  !mozcValue.isEmpty && !candidateValue.isEmpty &&
    candidateValue.length < mozcValue.length &&
    (candidateValue.isPrefixOf mozcValue || candidateValue.isSuffixOf mozcValue)

end Mozkey.Zenz.OutputValidator

/-!
## Prompt markers in an accepted output

The prompt builder frames prompts with U+EE00..U+EE07 and keeps U+EE00..U+EE0F out of condition
text. The validator looks for U+EE00..U+EE06. Both read a text with the same decoder, so an
output can carry one of the remaining nine code points past the validator, and that is all that
goes wrong (`noControlCodepoint_iff`).
-/

namespace Mozkey.Zenz

open Infra Base OutputValidator PromptBuilder

/-- A code point the prompt builder frames prompts with or strips occurs in the text. -/
def containsControlCodepoint (text : Bytes) : Bool :=
  (walk decodeOneUtf8 text).1.any isZenzControlCodepoint

/-- A control code point that the validator does not look for. -/
def containsUncheckedCodepoint (text : Bytes) : Bool :=
  (walk decodeOneUtf8 text).1.any fun cp => 0xEE07 ≤ cp && cp ≤ 0xEE0F

/-! ## The checks -/

/-- What each of the checks of `Validate` asks of its input. -/
structure PassesChecks (input : ZenzValidationInput) : Prop where
  key : input.key.isEmpty = false
  value : input.zenzValue.isEmpty = false
  changed : (input.zenzValue == input.mozcValue) = false
  keyLength : input.minKeyLength ≤ charsLen input.key
  specialToken : containsSpecialToken input.zenzValue = false
  validUtf8 : isValidUtf8 input.zenzValue = true
  emoji : input.allowZenzEmojiChanges = true ∨
    preservesEmojiSequences input.mozcValue input.zenzValue = true
  valueLength : charsLen input.zenzValue ≠ 0
  leftContext : looksLikeLeftContextEcho input (charsLen input.key)
    (charsLen input.zenzValue) = false
  expansion : charsLen input.zenzValue ≤ charsLen input.key * 3 + 8
  url : looksLikeUrlOrEmail input.zenzValue = false
  secret : looksLikeSecret input.zenzValue = false
  synthetic : input.allowSyntheticCandidate = true

/-- A check in front of others. -/
theorem accept_check (c : Prop) [Decidable c] (reason : String) (result : ZenzValidationResult) :
    (if c then reject reason else result).accept = true ↔ ¬c ∧ result.accept = true := by
  split
  · next h => simp [reject, h]
  · next h => simp [h]

/-- **The validator accepts exactly what passes each check.** -/
theorem validate_accept_iff (input : ZenzValidationInput) :
    (validate input).accept = true ↔ PassesChecks input := by
  unfold validate
  dsimp only
  simp only [accept_check, Bool.not_eq_true, Bool.and_eq_true, Bool.not_eq_true',
    Bool.not_eq_false, not_and, beq_eq_false_iff_ne, Nat.not_lt]
  constructor
  · rintro ⟨h1, h2, h3, h4, h5, h6, h7, h8, h9, h10, h11, h12, h13, -⟩
    refine ⟨h1, h2, by simpa using h3, h4, h5, h6, ?_, h8, h9, h10, h11, h12, h13⟩
    cases he : input.allowZenzEmojiChanges with
    | true => exact Or.inl rfl
    | false => exact Or.inr (h7 he)
  · rintro ⟨h1, h2, h3, h4, h5, h6, h7, h8, h9, h10, h11, h12, h13⟩
    refine ⟨h1, h2, by simpa using h3, h4, h5, h6, ?_, h8, h9, h10, h11, h12, h13, rfl⟩
    intro he
    rcases h7 with h7 | h7
    · rw [he] at h7; exact absurd h7 (by decide)
    · exact h7

/-! ## Markers -/

/-- What the special token check leaves: the markers it does not know. -/
theorem controlCodepoint_of_not_specialToken {text : Bytes}
    (h : containsSpecialToken text = false) :
    containsControlCodepoint text = containsUncheckedCodepoint text := by
  unfold containsSpecialToken at h
  split at h
  · simp at h
  · dsimp only at h
    rw [Bool.or_eq_false_iff, List.any_eq_false] at h
    obtain ⟨hknown, -⟩ := h
    unfold containsControlCodepoint containsUncheckedCodepoint
    rw [Bool.eq_iff_iff, List.any_eq_true, List.any_eq_true]
    refine exists_congr fun cp => and_congr_right fun hcp => ?_
    have hcp := hknown cp hcp
    simp only [Bool.and_eq_true, decide_eq_true_eq, not_and, Nat.not_le] at hcp
    simp [isZenzControlCodepoint, decide_eq_true_eq]
    omega

/--
**Exactly the markers U+EE07..U+EE0F get through.**

An accepted output is free of control code points, if and only if a value that passes every
check has none of those the validator does not look for.
-/
theorem noControlCodepoint_iff (input : ZenzValidationInput) :
    ((validate input).accept = true → containsControlCodepoint input.zenzValue = false) ↔
      (PassesChecks input → containsUncheckedCodepoint input.zenzValue = false) := by
  rw [validate_accept_iff]
  constructor
  · intro h hpass
    rw [← controlCodepoint_of_not_specialToken hpass.specialToken]
    exact h hpass
  · intro h hpass
    rw [controlCodepoint_of_not_specialToken hpass.specialToken]
    exact h hpass

/-- The right-context marker U+EE07 in the middle of an accepted value. -/
theorem rightContextMarker_accepted :
    ¬ ∀ input : ZenzValidationInput, (validate input).accept = true →
      containsControlCodepoint input.zenzValue = false := by
  intro h
  have hinput := h
    { key := utf8 "あいうえお"
      mozcValue := utf8 "相上尾"
      zenzValue := utf8 "相上" ++ kZenzRightContextBegin ++ utf8 "尾"
      leftContext := [] }
  revert hinput
  decide +kernel

end Mozkey.Zenz
