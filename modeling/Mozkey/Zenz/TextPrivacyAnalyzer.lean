import Mozkey.Infra.Bytes
import Mozkey.Infra.Occurrences
import Mozkey.Infra.Runs

/-!
# Signals of private text

`session/zenz_text_privacy_analyzer.cc`. Two policies share the detectors: one for the text of
the composition, one for the text around it. Every detector but the one for paths looks for a
part of the text, so a part that is sensitive makes the whole sensitive.
-/

namespace Mozkey.Zenz.TextPrivacyAnalyzer

open Infra

inductive ZenzTextPrivacyPolicy where
  | liveText
  | context
deriving DecidableEq

inductive ZenzTextPrivacySignal where
  | none
  | emailLike
  | urlOrDomainLike
  | pathLike
  | secretPrefix
  | tokenLike
  | credentialWord
deriving DecidableEq

/-- `ZenzTextPrivacyAnalysis::sensitive` -/
def ZenzTextPrivacySignal.sensitive (signal : ZenzTextPrivacySignal) : Bool := signal != .none

def ZenzTextPrivacySignal.reason : ZenzTextPrivacySignal → Bytes
  | .none => utf8 "allow"
  | .emailLike => utf8 "email_like"
  | .urlOrDomainLike => utf8 "url_or_domain_like"
  | .pathLike => utf8 "path_like"
  | .secretPrefix => utf8 "secret_prefix"
  | .tokenLike => utf8 "token_like"
  | .credentialWord => utf8 "credential_word"

/-! ## ASCII -/

def isAsciiAlpha (c : UInt8) : Bool :=
  (byte 'a' ≤ c && c ≤ byte 'z') || (byte 'A' ≤ c && c ≤ byte 'Z')

def isAsciiDigit (c : UInt8) : Bool := byte '0' ≤ c && c ≤ byte '9'

def isAsciiAlnum (c : UInt8) : Bool := isAsciiAlpha c || isAsciiDigit c

def isAsciiHexDigit (c : UInt8) : Bool :=
  isAsciiDigit c || (byte 'a' ≤ c && c ≤ byte 'f') || (byte 'A' ≤ c && c ≤ byte 'F')

def toLowerAsciiByte (c : UInt8) : UInt8 :=
  if byte 'A' ≤ c && c ≤ byte 'Z' then c - byte 'A' + byte 'a' else c

def toLowerAscii (text : Bytes) : Bytes := text.map toLowerAsciiByte

/-- One of the words is in the text. -/
def containsAny (words : List String) (text : Bytes) : Bool :=
  words.any fun word => contains (utf8 word) text

/-! ## Addresses and paths -/

def kDomainSuffixes : List String :=
  [".com", ".net", ".org", ".jp", ".co.jp", ".io", ".dev", ".app", ".local", ".localhost"]

def looksLikeLiveUrlOrDomain (text : Bytes) : Bool :=
  containsAny ["://", "www."] (toLowerAscii text) || containsAny kDomainSuffixes (toLowerAscii text)

def looksLikeLiveEmail (text : Bytes) : Bool := containsAny ["@"] text

/-- A drive letter, a colon and a slash. -/
def startsWithDrive : Bytes → Bool
  | letter :: colon :: slash :: _ =>
    isAsciiAlpha letter && colon == byte ':' && (slash == byte '\\' || slash == byte '/')
  | _ => false

def looksLikeLivePath (text : Bytes) : Bool :=
  let lower := toLowerAscii text
  containsAny ["\\"] text || startsWithDrive lower || (utf8 "/").isPrefixOf lower ||
    (utf8 "~/").isPrefixOf lower || containsAny ["../", "./"] lower

/-! ## Long tokens -/

def isAsciiTokenChar (c : UInt8) : Bool :=
  isAsciiAlnum c || c == byte '_' || c == byte '-' || c == byte '.'

/-- The digits of one group, none as soon as their value passes 255. -/
def readOctet : Nat → Bytes → Option Bytes
  | _, [] => some []
  | value, c :: rest =>
    if isAsciiDigit c then
      let value := value * 10 + (c.toNat - (byte '0').toNat)
      if 255 < value then none else readOctet value rest
    else some (c :: rest)

/-- `groups + 1` groups with dots between them, and nothing behind the last. -/
def octets : Nat → Bytes → Bool
  | groups, token =>
    match readOctet 0 token with
    | none => false
    | some rest =>
      if rest.length = token.length then false
      else
        match groups, rest with
        | 0, rest => rest.isEmpty
        | groups + 1, c :: rest => c == byte '.' && octets groups rest
        | _ + 1, [] => false

def isIpv4LikeAsciiToken (token : Bytes) : Bool := octets 3 token

/-- At least one digit is consumed. -/
def consumeDigits (token : Bytes) : Option Bytes :=
  let rest := token.dropWhile isAsciiDigit
  if rest.length = token.length then none else some rest

/-- Up to `groups` further groups, each behind a dot. -/
def dottedGroups : Nat → Bytes → Option Bytes
  | groups, c :: rest =>
    if c = byte '.' then
      match consumeDigits rest with
      | none => none
      | some rest =>
        match groups with
        | 0 => none
        | groups + 1 => dottedGroups groups rest
    else some (c :: rest)
  | _, [] => some []

/-- A hyphen, letters and perhaps digits behind the number. -/
def versionSuffix : Bytes → Bool
  | [] => true
  | c :: rest =>
    let behind := rest.dropWhile isAsciiAlpha
    c == byte '-' && behind.length != rest.length && (behind.dropWhile isAsciiDigit).isEmpty

def withoutVersionLetter : Bytes → Bytes
  | [] => []
  | c :: rest => if c = byte 'v' ∨ c = byte 'V' then rest else c :: rest

def isVersionLikeAsciiToken (token : Bytes) : Bool :=
  match consumeDigits (withoutVersionLetter token) with
  | none => false
  | some rest =>
    match dottedGroups 3 rest with
    | none => false
    -- a plain v12345678 is not a harmless version string
    | some behind => behind.length != rest.length && versionSuffix behind

def longestDigitRun (token : Bytes) : Nat :=
  ((runs isAsciiDigit token).map List.length).foldl max 0

/-- The lambda `check_token` of `LooksLikeLongAsciiToken`. -/
def checkToken (token : Bytes) : Bool :=
  let len := token.length
  let hasAlpha := token.any isAsciiAlpha
  let hasDigit := token.any isAsciiDigit
  let hasSymbol := token.any fun c => c == byte '_' || c == byte '-' || c == byte '.'
  let allHex := token.all isAsciiHexDigit
  if isIpv4LikeAsciiToken token then true
  else if isVersionLikeAsciiToken token then false
  else if 8 ≤ longestDigitRun token then true
  else if 12 ≤ len && hasAlpha && hasDigit && hasSymbol then true
  else if 16 ≤ len && hasAlpha && hasDigit then true
  else if 16 ≤ len && allHex && hasAlpha then true
  else if 24 ≤ len && hasAlpha then true
  else 32 ≤ len

def looksLikeLongAsciiToken (text : Bytes) : Bool := (runs isAsciiTokenChar text).any checkToken

/-! ## Secrets -/

def kSecretPrefixes : List String :=
  ["ghp_", "github_pat_", "glpat-", "sk-", "xoxb-", "xoxp-", "ya29.", "akia", "bearer "]

def looksLikeLiveKnownSecretPrefix (text : Bytes) : Bool :=
  containsAny kSecretPrefixes (toLowerAscii text)

def kLiveAsciiWords : List String :=
  ["password", "passwd", "passphrase", "secret", "token", "apikey", "api_key", "credential",
    "privatekey", "private_key", "authorization"]

def kLiveJapaneseWords : List String :=
  ["パスワード", "暗証番号", "認証コード", "認証番号", "秘密鍵", "秘密キー", "トークン",
    "アクセストークン", "APIキー", "apiキー"]

def containsLiveSensitiveCredentialWord (text : Bytes) : Bool :=
  containsAny kLiveAsciiWords (toLowerAscii text) || containsAny kLiveJapaneseWords text

def kHistoricalContextWords : List String :=
  ["password", "passwd", "pwd", "token", "secret", "apikey", "api_key", "authorization",
    "bearer ", "cookie", "sessionid", "session_id"]

def containsHistoricalContextCredentialWord (text : Bytes) : Bool :=
  containsAny kHistoricalContextWords (toLowerAscii text)

def containsContextSensitiveCredentialWord (text : Bytes) : Bool :=
  containsHistoricalContextCredentialWord text || containsLiveSensitiveCredentialWord text

/-! ## The two policies -/

def analyzeLiveText (text : Bytes) : ZenzTextPrivacySignal :=
  if looksLikeLiveEmail text then .emailLike
  else if looksLikeLiveUrlOrDomain text then .urlOrDomainLike
  else if looksLikeLivePath text then .pathLike
  else if looksLikeLiveKnownSecretPrefix text then .secretPrefix
  else if looksLikeLongAsciiToken text then .tokenLike
  else if containsLiveSensitiveCredentialWord text then .credentialWord
  else .none

def looksLikeContextUrlOrDomain (text : Bytes) : Bool :=
  looksLikeLiveUrlOrDomain text || containsAny ["mailto:"] (toLowerAscii text)

def looksLikeContextKnownSecretPrefix (text : Bytes) : Bool :=
  looksLikeLiveKnownSecretPrefix text || containsAny ["pk_"] (toLowerAscii text)

def analyzeContextText (text : Bytes) : ZenzTextPrivacySignal :=
  if looksLikeContextKnownSecretPrefix text then .secretPrefix
  else if containsContextSensitiveCredentialWord text then .credentialWord
  else if looksLikeLiveEmail text then .emailLike
  else if looksLikeContextUrlOrDomain text then .urlOrDomainLike
  else if looksLikeLivePath text then .pathLike
  else if looksLikeLongAsciiToken text then .tokenLike
  else .none

def analyze (text : Bytes) : ZenzTextPrivacyPolicy → ZenzTextPrivacySignal
  | .liveText => analyzeLiveText text
  | .context => analyzeContextText text

/-- Both policies ask all their detectors in turn. -/
theorem sensitive_context_iff (text : Bytes) : (analyze text .context).sensitive = true ↔
    looksLikeContextKnownSecretPrefix text = true ∨
    containsContextSensitiveCredentialWord text = true ∨ looksLikeLiveEmail text = true ∨
    looksLikeContextUrlOrDomain text = true ∨ looksLikeLivePath text = true ∨
    looksLikeLongAsciiToken text = true := by
  rw [analyze, analyzeContextText]
  repeat' split
  all_goals simp_all [ZenzTextPrivacySignal.sensitive]

theorem sensitive_live_iff (text : Bytes) : (analyze text .liveText).sensitive = true ↔
    looksLikeLiveEmail text = true ∨ looksLikeLiveUrlOrDomain text = true ∨
    looksLikeLivePath text = true ∨ looksLikeLiveKnownSecretPrefix text = true ∨
    looksLikeLongAsciiToken text = true ∨ containsLiveSensitiveCredentialWord text = true := by
  rw [analyze, analyzeLiveText]
  repeat' split
  all_goals simp_all [ZenzTextPrivacySignal.sensitive]

/-! ## A sensitive part -/

theorem containsAny_mono {words : List String} {part text : Bytes} (h : part <:+: text)
    (hp : containsAny words part = true) : containsAny words text = true := by
  rw [containsAny, List.any_eq_true] at hp ⊢
  obtain ⟨word, hw, hc⟩ := hp
  exact ⟨word, hw, (contains_iff text).mpr (((contains_iff part).mp hc).trans h)⟩

theorem toLowerAscii_part {part text : Bytes} (h : part <:+: text) :
    toLowerAscii part <:+: toLowerAscii text := h.map toLowerAsciiByte

/-- The slashes, the colon and the tilde are no token characters, in either case. -/
theorem toLowerAsciiByte_of_token : ∀ c : UInt8, isAsciiTokenChar c = true →
    toLowerAsciiByte c ≠ byte '/' ∧ toLowerAsciiByte c ≠ byte ':' ∧
      toLowerAsciiByte c ≠ byte '~' ∧ c ≠ byte '\\' := by
  refine forall_byte ?_
  decide +kernel

theorem mem_of_contains {word : String} {text : Bytes} {c : UInt8} (hc : c ∈ utf8 word)
    (h : contains (utf8 word) text = true) : c ∈ text :=
  ((contains_iff text).mp h).subset hc

/-- No path is spelled with token characters alone. -/
theorem not_looksLikeLivePath_of_token {run : Bytes} (h : ∀ c ∈ run, isAsciiTokenChar c = true) :
    looksLikeLivePath run = false := by
  have hlower : ∀ c ∈ toLowerAscii run, c ≠ byte '/' ∧ c ≠ byte ':' ∧ c ≠ byte '~' := by
    intro c hc
    obtain ⟨x, hx, rfl⟩ := List.mem_map.mp hc
    have hx := toLowerAsciiByte_of_token x (h x hx)
    exact ⟨hx.1, hx.2.1, hx.2.2.1⟩
  have hslash : byte '/' ∉ toLowerAscii run := fun hm => (hlower _ hm).1 rfl
  have hback : containsAny ["\\"] run = false := by
    rw [containsAny, List.any_eq_false]
    intro word hw hc
    rw [List.mem_singleton.mp hw] at hc
    exact (toLowerAsciiByte_of_token _ (h _ (mem_of_contains (by decide) hc))).2.2.2 rfl
  have hdots : containsAny ["../", "./"] (toLowerAscii run) = false := by
    rw [containsAny, List.any_eq_false]
    intro word hw hc
    refine hslash (mem_of_contains ?_ hc)
    rcases List.mem_pair.mp hw with rfl | rfl <;> decide
  have hdrive : startsWithDrive (toLowerAscii run) = false := by
    rcases hl : toLowerAscii run with _ | ⟨a, _ | ⟨b, _ | ⟨c, rest⟩⟩⟩
    · rfl
    · rfl
    · rfl
    · have hb := (hlower b (by simp [hl])).2.1
      simp [startsWithDrive, hb]
  have hroot : (utf8 "/").isPrefixOf (toLowerAscii run) = false := by
    rw [← Bool.not_eq_true, List.isPrefixOf_iff_prefix]
    exact fun hp => hslash (hp.subset (by decide))
  have hhome : (utf8 "~/").isPrefixOf (toLowerAscii run) = false := by
    rw [← Bool.not_eq_true, List.isPrefixOf_iff_prefix]
    exact fun hp => hslash (hp.subset (by decide))
  simp [looksLikeLivePath, hback, hdots, hdrive, hroot, hhome]

/-- **A maximal token that is sensitive by itself makes the text sensitive.** -/
theorem sensitive_of_token {text before token after : Bytes}
    (ht : IsRunIn isAsciiTokenChar text before token after)
    (h : (analyze token .context).sensitive = true) : (analyze text .context).sensitive = true := by
  have hi : token <:+: text := ⟨before, after, ht.list_eq.symm⟩
  have hlower := toLowerAscii_part hi
  rw [sensitive_context_iff] at h ⊢
  rcases h with h | h | h | h | h | h
  · rw [looksLikeContextKnownSecretPrefix, Bool.or_eq_true] at h ⊢
    exact Or.inl (h.imp (containsAny_mono hlower) (containsAny_mono hlower))
  · refine Or.inr (Or.inl ?_)
    rw [containsContextSensitiveCredentialWord, Bool.or_eq_true,
      containsLiveSensitiveCredentialWord,
      Bool.or_eq_true] at h ⊢
    exact h.imp (containsAny_mono hlower)
      (Or.imp (containsAny_mono hlower) (containsAny_mono hi))
  · exact Or.inr (Or.inr (Or.inl (containsAny_mono hi h)))
  · refine Or.inr (Or.inr (Or.inr (Or.inl ?_)))
    rw [looksLikeContextUrlOrDomain, Bool.or_eq_true, looksLikeLiveUrlOrDomain,
      Bool.or_eq_true] at h ⊢
    exact h.imp (Or.imp (containsAny_mono hlower) (containsAny_mono hlower))
      (containsAny_mono hlower)
  · simp [not_looksLikeLivePath_of_token ht.all] at h
  · refine Or.inr (Or.inr (Or.inr (Or.inr (Or.inr ?_))))
    rw [looksLikeLongAsciiToken, List.any_eq_true] at h ⊢
    obtain ⟨run, hrun, hcheck⟩ := h
    -- the token alone has one run, itself
    have halone : runs isAsciiTokenChar token = [token] := runs_of_all ht.ne_nil ht.all
    rw [halone, List.mem_singleton] at hrun
    exact ⟨token, ht.mem_runs, hrun ▸ hcheck⟩

/-!
## Long numbers

Eight digits in a row make a text private, wherever they are, unless the token around them looks
like a version. What is sensitive in the composition is sensitive in the context as well.

* `longNumbers_are_private` — both statements
* `version_is_not_private` — a token that is a version
-/

/-- Eight or more digits. -/
structure IsLongNumber (digits : Bytes) : Prop where
  long : 8 ≤ digits.length
  digit : ∀ c ∈ digits, isAsciiDigit c = true

theorem IsLongNumber.ne_nil {digits : Bytes} (h : IsLongNumber digits) : digits ≠ [] := by
  rintro rfl
  exact absurd h.long (by simp)

theorem isAsciiTokenChar_of_digit {c : UInt8} (h : isAsciiDigit c = true) :
    isAsciiTokenChar c = true := by
  simp [isAsciiTokenChar, isAsciiAlnum, h]

/-! ## The longest run of digits -/

theorem le_foldl_max : ∀ (lengths : List Nat) (n : Nat), n ≤ lengths.foldl max n
  | [], _ => Nat.le_refl _
  | m :: lengths, n => (Nat.le_max_left n m).trans (le_foldl_max lengths (max n m))

theorem le_foldl_max_of_mem : ∀ (lengths : List Nat) (n m : Nat), m ∈ lengths →
    m ≤ lengths.foldl max n
  | m' :: lengths, n, m, h => by
    rcases List.mem_cons.mp h with rfl | h
    · exact (Nat.le_max_right n m).trans (le_foldl_max lengths (max n m))
    · exact le_foldl_max_of_mem lengths (max n m') m h

theorem IsLongNumber.longestDigitRun {digits token : Bytes} (h : IsLongNumber digits)
    (hpart : digits <:+: token) : 8 ≤ longestDigitRun token := by
  obtain ⟨run, hrun, hdigits⟩ := exists_run_of_infix h.ne_nil h.digit hpart
  calc 8 ≤ digits.length := h.long
    _ ≤ run.length := hdigits.length_le
    _ ≤ TextPrivacyAnalyzer.longestDigitRun token :=
        le_foldl_max_of_mem _ 0 _ (List.mem_map_of_mem hrun)

/-! ## Tokens -/

/-- The digits are looked at before any other property of a token but its being a version. -/
theorem checkToken_of_longNumber {token : Bytes} (hlong : 8 ≤ longestDigitRun token)
    (hversion : isVersionLikeAsciiToken token = false) : checkToken token = true := by
  unfold checkToken
  dsimp only
  split
  · rfl
  · simp [hversion]

theorem sensitive_of_longToken {text token : Bytes} (htoken : token ∈ runs isAsciiTokenChar text)
    (hlong : 8 ≤ longestDigitRun token) (hversion : isVersionLikeAsciiToken token = false) :
    (analyze text .liveText).sensitive = true ∧ (analyze text .context).sensitive = true := by
  have htokens : looksLikeLongAsciiToken text = true :=
    List.any_eq_true.mpr ⟨token, htoken, checkToken_of_longNumber hlong hversion⟩
  rw [sensitive_live_iff, sensitive_context_iff]
  simp [htokens]

/-- Every detector of the composition is one of the context too. -/
theorem sensitive_context_of_live {text : Bytes} (h : (analyze text .liveText).sensitive = true) :
    (analyze text .context).sensitive = true := by
  rw [sensitive_live_iff] at h
  rw [sensitive_context_iff, looksLikeContextKnownSecretPrefix, looksLikeContextUrlOrDomain,
    containsContextSensitiveCredentialWord]
  rcases h with h | h | h | h | h | h <;> simp [h]

/-- **Eight digits are private under both policies, unless their token is a version; and what is
private in the composition is private in the context.** -/
theorem longNumbers_are_private (text : Bytes) :
    (∀ digits, IsLongNumber digits → digits <:+: text →
      ∃ token ∈ runs isAsciiTokenChar text, digits <:+: token ∧
        (isVersionLikeAsciiToken token = false →
          (analyze text .liveText).sensitive = true ∧
            (analyze text .context).sensitive = true)) ∧
    ((analyze text .liveText).sensitive = true → (analyze text .context).sensitive = true) := by
  refine ⟨fun digits hdigits hpart => ?_, sensitive_context_of_live⟩
  obtain ⟨token, htoken, hin⟩ := exists_run_of_infix hdigits.ne_nil
    (fun c hc => isAsciiTokenChar_of_digit (hdigits.digit c hc)) hpart
  exact ⟨token, htoken, hin, sensitive_of_longToken htoken (hdigits.longestDigitRun hin)⟩

theorem version_is_not_private :
    IsLongNumber (utf8 "12345678") ∧ utf8 "12345678" <:+: utf8 "12345678.1" ∧
      (analyze (utf8 "12345678.1") .liveText).sensitive = false ∧
      (analyze (utf8 "12345678.1") .context).sensitive = false :=
  ⟨⟨by decide +kernel, by decide +kernel⟩, by decide +kernel, by decide +kernel, by decide +kernel⟩

end Mozkey.Zenz.TextPrivacyAnalyzer
