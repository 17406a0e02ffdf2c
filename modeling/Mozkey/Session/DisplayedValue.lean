import Mozkey.Session.ZenzLiveResult

/-!
# What is shown against what was validated

A value is validated before the adoption repairs it. What the adoption returns is checked for
emoji, for being Mozc's own value, for private text and for its reading, but the validation is
not repeated. So a repaired value can be one that the validation rejects, for one of four reasons
(`displayed_value_is_checked`), and every one of them occurs (`displayed_values_rejected`).
-/

namespace Mozkey.Zenz

open Infra Base

/-! ## The private text policy is stricter than the validation -/

theorem TextPrivacyAnalyzer.contains_toLowerAscii {word : String} {text : Bytes}
    (hw : toLowerAscii (utf8 word) = utf8 word) (h : contains (utf8 word) text = true) :
    contains (utf8 word) (toLowerAscii text) = true := by
  rw [contains_iff] at h ⊢
  have hl := toLowerAscii_part h
  rwa [hw] at hl

theorem TextPrivacyAnalyzer.containsAny_of_mem {words : List String} {word : String} {text : Bytes}
    (hm : word ∈ words) (h : contains (utf8 word) text = true) : containsAny words text = true := by
  simpa [containsAny] using ⟨word, hm, h⟩

namespace OutputValidator

open TextPrivacyAnalyzer

theorem looksLikeUrlOrEmail_sensitive {text : Bytes} (h : looksLikeUrlOrEmail text = true) :
    (analyze text .liveText).sensitive = true := by
  rw [sensitive_live_iff]
  rw [looksLikeUrlOrEmail, Bool.or_eq_true, Bool.or_eq_true] at h
  rcases h with (h | h) | h
  · refine Or.inr (Or.inl (Bool.or_eq_true_iff.mpr (Or.inl ?_)))
    exact containsAny_of_mem (by decide) (contains_toLowerAscii (by decide) h)
  · refine Or.inr (Or.inl (Bool.or_eq_true_iff.mpr (Or.inl ?_)))
    exact containsAny_of_mem (by decide) (contains_toLowerAscii (by decide) h)
  · exact Or.inl (containsAny_of_mem (by decide) h)

/-- A secret that is not recognized by a word is recognized by its length. -/
theorem looksLikeSecret_cases {text : Bytes} (h : looksLikeSecret text = true) :
    (analyze text .liveText).sensitive = true ∨
      32 ≤ text.length ∧ 80 ≤ text.countP isSecretChar * 100 / text.length := by
  rw [looksLikeSecret] at h
  split at h
  · next hlong =>
    rw [Bool.and_eq_true, decide_eq_true_eq, decide_eq_true_eq] at hlong
    exact Or.inr hlong
  · refine Or.inl ((sensitive_live_iff text).mpr ?_)
    refine Or.inr (Or.inr (Or.inr (Or.inr (Or.inr (Bool.or_eq_true_iff.mpr (Or.inl ?_))))))
    simp only [Bool.or_eq_true] at h
    rcases h with ((((h | h) | h) | h) | h) | h <;>
      exact containsAny_of_mem (by decide) (contains_toLowerAscii (by decide) h)

/-- The first byte of a valid text begins a character. -/
theorem charsLen_pos {text : Bytes} (hne : text ≠ []) (hvalid : isValidUtf8 text = true) :
    charsLen text ≠ 0 := by
  cases text with
  | nil => exact absurd rfl hne
  | cons c rest =>
    have hc : isUtf8TrailingByte c = false := by
      cases hs : splitFirstChar32 (c :: rest) with
      | none =>
        simp [isValidUtf8, walk_of_none (List.cons_ne_nil c rest) hs] at hvalid
      | some token =>
        rw [splitFirstChar32] at hs
        rw [isUtf8TrailingByte, Bool.and_eq_false_iff, decide_eq_false_iff_not,
          decide_eq_false_iff_not]
        split at hs
        · next hascii => exact Or.inl (by omega)
        · split at hs
          · cases hs
          · next head hhead =>
            have hlead := sequenceHead_ascii hhead
            exact Or.inr (by omega)
    simp [charsLen, hc]

/-! ## Validating again -/

/-- What an accepted validation says of everything but the value. -/
theorem validate_accept {input : ZenzValidationInput} (h : (validate input).accept = true) :
    input.key.isEmpty = false ∧ ¬charsLen input.key < input.minKeyLength ∧
      input.allowSyntheticCandidate = true := by
  rw [validate] at h
  simp only [accept_check] at h
  obtain ⟨hkey, -, -, hmin, -, -, -, -, -, -, -, -, hsynthetic, -⟩ := h
  exact ⟨Bool.not_eq_true _ ▸ hkey, hmin, by simpa using hsynthetic⟩

/-- The reasons that are not checked for again. -/
def kUnrepeatedReasons : List Bytes :=
  [utf8 "special_token", utf8 "left_context_echo", utf8 "too_long_value", utf8 "secret_like"]

theorem validate_again {input : ZenzValidationInput} (hkey : input.key.isEmpty = false)
    (hmin : ¬charsLen input.key < input.minKeyLength)
      (hsynthetic : input.allowSyntheticCandidate = true)
    (hne : input.zenzValue ≠ []) (hmozc : input.zenzValue ≠ input.mozcValue)
    (hvalid : isValidUtf8 input.zenzValue = true)
    (hemoji : input.allowZenzEmojiChanges = false →
      preservesEmojiSequences input.mozcValue input.zenzValue = true)
    (hquiet : (analyze input.zenzValue .liveText).sensitive = false) :
    (validate input).accept = true ∨ (validate input).reason ∈ kUnrepeatedReasons := by
  have hlen := charsLen_pos hne hvalid
  have hurl : looksLikeUrlOrEmail input.zenzValue = false := by
    rw [← Bool.not_eq_true]
    intro h
    simp [looksLikeUrlOrEmail_sensitive h] at hquiet
  have hkeeps : (!input.allowZenzEmojiChanges &&
      !preservesEmojiSequences input.mozcValue input.zenzValue) = false := by
    cases hallow : input.allowZenzEmojiChanges with
    | true => rfl
    | false => rw [hemoji hallow]; rfl
  have hsome : input.zenzValue.isEmpty = false := by simp [hne]
  have hdiffers : (input.zenzValue == input.mozcValue) = false := by simp [hmozc]
  have hcount : (charsLen input.zenzValue == 0) = false := by simp [hlen]
  have hmem : ∀ reason ∈ ["special_token", "left_context_echo", "too_long_value", "secret_like"],
      (reject reason).reason ∈ kUnrepeatedReasons := by decide
  unfold validate
  simp only [hkey, hsome, hdiffers, hmin, hvalid, hkeeps, hcount, hurl, hsynthetic, Bool.not_true,
    Bool.false_eq_true, if_false]
  split
  · exact Or.inr (hmem _ (by decide))
  · split
    · exact Or.inr (hmem _ (by decide))
    · split
      · exact Or.inr (hmem _ (by decide))
      · split
        · exact Or.inr (hmem _ (by decide))
        · exact Or.inl rfl

end OutputValidator

/-- A value that is accepted as it is was not rewritten. -/
theorem AdoptionPolicy.acceptAsIs_value {input : ZenzAdoptionInput} {c : Config}
    {r : ZenzAdoptionResult} (hret : Returns (step input) c r) (ha : r.action = .acceptAsIs) :
    r.value = c.adoptedValue := by
  have hquiet := (quiet_of_acceptAsIs hret ha).2
  induction hret with
  | @left c r hl => rw [← hquiet c .refl, rewritten_of_inr hl]
  | @next c t r hn _ ih => rw [ih ha (hquiet.next hn).1, (hquiet.next hn).2]

end Mozkey.Zenz

namespace Mozkey.Session

open Infra Base Zenz OutputValidator

namespace PendingZenzLiveCorrection

variable {pending : PendingZenzLiveCorrection} {input : ResultInput} {response : ZenzLiveResponse}

/-- Everything that a value went through before it is shown. -/
structure ShownBy (pending : PendingZenzLiveCorrection) (input : ResultInput)
    (response : ZenzLiveResponse) (fuel : Nat) (adopted : LiveState.Adopted) (validated : Bytes)
    (adoption : ZenzAdoptionResult) : Prop where
  answered : response.ok = true ∧ response.timeout = false
  repaired : pending.repairedValue response.value = .ok validated
  checked : pending.checkValue input.context.config validated = .ok ()
  adopts : AdoptionPolicy.decide (pending.adoptionInput validated) fuel = some adoption
  accepts : adoption.action ≠ .reject
  checkedAgain : pending.checkAdopted input adoption.value = .ok ()
  notRejected : (pending.feedbackDecision input adoption.value).action ≠ .reject
  value_eq : adopted.value = adoption.value

theorem shown_spec {fuel : Nat} {adopted : LiveState.Adopted}
    (h : pending.resultOutcome input response fuel = some (.shown adopted)) :
    ∃ validated adoption, ShownBy pending input response fuel adopted validated adoption := by
  unfold resultOutcome at h
  split at h
  · cases h
  · next hanswered =>
    rw [Bool.or_eq_true, Bool.not_eq_true', not_or, Bool.not_eq_false,
      Bool.not_eq_true] at hanswered
    split at h
    · cases h
    · next validated hrepaired =>
      split at h
      · cases h
      · next hchecked =>
        rw [Option.map_eq_some_iff] at h
        obtain ⟨adoption, hadopts, h⟩ := h
        unfold afterAdoption at h
        split at h
        · cases h
        · next haccepts =>
          split at h
          · cases h
          · next hagain =>
            dsimp only at h
            split at h
            · cases h
            · next hnot =>
              rw [ResultOutcome.shown.injEq] at h
              exact ⟨validated, adoption,
                ⟨hanswered, hrepaired, hchecked, hadopts, haccepts, hagain, hnot, by rw [← h]⟩⟩

theorem checkValue_ok {config : ZenzConfig} {value : Bytes}
    (h : pending.checkValue config value = .ok ()) :
    (validate (pending.validationInput config value)).accept = true := by
  unfold checkValue at h
  dsimp only at h
  split at h
  · cases h
  · next haccept => simpa using haccept

theorem checkAdopted_ok {value : Bytes} (h : pending.checkAdopted input value = .ok ()) :
    (input.context.config.allowZenzEmojiChanges = false →
      preservesEmojiSequences pending.mozcValue value = true) ∧
      value ≠ pending.mozcValue ∧ (evaluateZenzLiveValuePrivacy value).allow = true := by
  unfold checkAdopted at h
  dsimp only at h
  split at h
  · cases h
  · next hemoji =>
    split at h
    · cases h
    · next hmozc =>
      split at h
      · cases h
      · next hprivacy =>
        refine ⟨fun hallow => ?_, by simpa using hmozc, by simpa using hprivacy⟩
        rw [hallow] at hemoji
        simpa using hemoji

/-- What is validated is what is shown, unless the adoption repaired it. -/
theorem ShownBy.eq_validated {fuel : Nat} {adopted : LiveState.Adopted} {validated : Bytes}
    {adoption : ZenzAdoptionResult}
    (h : ShownBy pending input response fuel adopted validated adoption)
    (ha : adoption.action = .acceptAsIs) : adoption.value = validated :=
  AdoptionPolicy.acceptAsIs_value (returns_of_run h.adopts) ha

end PendingZenzLiveCorrection

/-! ## What is shown -/

/-- `ApplyZenzLiveCorrectionResult` shows the value. -/
def LiveState.Displays (s : LiveState) (input : ResultInput) (response : ZenzLiveResponse)
    (v : Bytes) : Prop :=
  ∃ fuel adopted, s.pendingZenzLive.resultOutcome input response fuel = some (.shown adopted) ∧
    (s.applyZenzLiveCorrectionResult (some adopted)).zenzLive.value = v

/-- Names of the user dictionary, with their readings. -/
def pendingNames (key mozcValue leftContext : String) (names : List (String × String)) :
    PendingZenzLiveCorrection where
  key := utf8 key
  mozcValue := utf8 mozcValue
  leftContext := utf8 leftContext
  protectedSpans := names.map fun (reading, surface) =>
    { key := utf8 reading, value := utf8 surface, tier := .identityCritical, repairable := true }
  pending := true

/-- **A value that is shown is nonempty, valid, not Mozc's, neither an address nor spelled like a
secret. The validation would accept it, or it was repaired after it had been validated, and the
reason is one of four.** -/
theorem displayed_value_is_checked {s : LiveState} {input : ResultInput}
    {response : ZenzLiveResponse} {v : Bytes} (h : s.Displays input response v) :
    v ≠ [] ∧ isValidUtf8 v = true ∧ v ≠ s.pendingZenzLive.mozcValue ∧
      looksLikeUrlOrEmail v = false ∧
      (looksLikeSecret v = true →
        32 ≤ v.length ∧ 80 ≤ v.countP isSecretChar * 100 / v.length) ∧
      ((validate (s.pendingZenzLive.validationInput input.context.config v)).accept = true ∨
        (validate (s.pendingZenzLive.validationInput input.context.config v)).reason
            ∈ kUnrepeatedReasons ∧
          ∃ validated adoption fuel,
            (validate (s.pendingZenzLive.validationInput input.context.config validated)).accept
              = true ∧
            AdoptionPolicy.decide (s.pendingZenzLive.adoptionInput validated) fuel
              = some adoption ∧
            adoption.action = .acceptWithRepair ∧ adoption.value = v) := by
  obtain ⟨fuel, adopted, houtcome, rfl⟩ := h
  obtain ⟨validated, adoption, hshown⟩ := PendingZenzLiveCorrection.shown_spec houtcome
  have hvalue : (s.applyZenzLiveCorrectionResult (some adopted)).zenzLive.value = adoption.value :=
    hshown.value_eq
  have haccept := PendingZenzLiveCorrection.checkValue_ok hshown.checked
  obtain ⟨hemoji, hmozc, hprivacy⟩ :=
    PendingZenzLiveCorrection.checkAdopted_ok hshown.checkedAgain
  obtain ⟨hne, hvalid, hquiet⟩ := allowed_value hprivacy
  obtain ⟨hkey, hmin, hsynthetic⟩ := validate_accept haccept
  rw [hvalue]
  refine ⟨hne, hvalid, hmozc, ?_, ?_, ?_⟩
  · rw [← Bool.not_eq_true]
    intro hurl
    simp [looksLikeUrlOrEmail_sensitive hurl] at hquiet
  · intro hsecret
    rcases looksLikeSecret_cases hsecret with hs | hlong
    · simp [hs] at hquiet
    · exact hlong
  · rcases @validate_again
      (s.pendingZenzLive.validationInput input.context.config adoption.value)
      hkey hmin hsynthetic hne hmozc hvalid hemoji hquiet with hagain | hreason
    · exact Or.inl hagain
    · cases haction : adoption.action with
      | acceptAsIs => exact Or.inl (hshown.eq_validated haction ▸ haccept)
      | acceptWithRepair =>
        exact Or.inr ⟨hreason, validated, adoption, fuel, haccept, hshown.adopts, haction, rfl⟩
      | reject => exact absurd haction hshown.accepts

/-- A name that is too long for its reading. -/
def mailState : LiveState where
  pendingZenzLive :=
    pendingNames "めーる" "ProjectMailService" "" [("めーる", "ProjectMailService")]

theorem mailState_displays :
    mailState.Displays {} { ok := true, value := utf8 "めーるを" } (utf8 "ProjectMailServiceを") :=
  ⟨30, ⟨utf8 "ProjectMailServiceを", utf8 "めーる", utf8 "empty"⟩, by decide +kernel, rfl⟩

theorem mail_is_checked :
    utf8 "ProjectMailServiceを" ≠ [] ∧ isValidUtf8 (utf8 "ProjectMailServiceを") = true ∧
      utf8 "ProjectMailServiceを" ≠ mailState.pendingZenzLive.mozcValue ∧
      looksLikeUrlOrEmail (utf8 "ProjectMailServiceを") = false ∧
      (looksLikeSecret (utf8 "ProjectMailServiceを") = true →
        32 ≤ (utf8 "ProjectMailServiceを").length ∧
          80 ≤ (utf8 "ProjectMailServiceを").countP isSecretChar * 100
            / (utf8 "ProjectMailServiceを").length) ∧
      ((validate (mailState.pendingZenzLive.validationInput {} (utf8 "ProjectMailServiceを"))).accept
          = true ∨
        (validate
            (mailState.pendingZenzLive.validationInput {} (utf8 "ProjectMailServiceを"))).reason
            ∈ kUnrepeatedReasons ∧
          ∃ validated adoption fuel,
            (validate (mailState.pendingZenzLive.validationInput {} validated)).accept = true ∧
            AdoptionPolicy.decide (mailState.pendingZenzLive.adoptionInput validated) fuel
              = some adoption ∧
            adoption.action = .acceptWithRepair ∧
            adoption.value = utf8 "ProjectMailServiceを") :=
  displayed_value_is_checked mailState_displays

/-- The response is shown as `v`, and the validation rejects `v`. -/
def DisplaysRejected (pending : PendingZenzLiveCorrection) (response v reason : String) : Prop :=
  LiveState.Displays { pendingZenzLive := pending } {} { ok := true, value := utf8 response }
      (utf8 v) ∧
    validate (pending.validationInput {} (utf8 v)) = reject reason

/-- A name is put back that is too long, that completes a token, that the left context ends with,
or that makes the value look like a secret. -/
theorem displayed_values_rejected :
    DisplaysRejected
      (pendingNames "めーる" "ProjectMailService" "" [("めーる", "ProjectMailService")])
      "めーるを" "ProjectMailServiceを" "too_long_value" ∧
    DisplaysRejected
      (pendingNames "<あんく>です" "<unk>です" "" [("あんく", "unk")])
      "<あんく>でス" "<unk>でス" "special_token" ∧
    DisplaysRejected
      (pendingNames "ぎっとはぶへ" "GitHubへ" "これはGitHub" [("ぎっとはぶ", "GitHub")])
      "ぎっとはぶへと進むと良いが" "GitHubへと進むと良いが" "left_context_echo" ∧
    DisplaysRejected
      (pendingNames "めーるさーびすとちゃっと" "ProjectMailServiceとProjectChatService" ""
        [("めーるさーびす", "ProjectMailService"), ("ちゃっと", "ProjectChatService")])
      "めーるさーびすとちゃっとを" "ProjectMailServiceとProjectChatServiceを" "secret_like" := by
  refine ⟨⟨mailState_displays, ?_⟩,
    ⟨⟨30, ⟨utf8 "<unk>でス", utf8 "<あんく>です", utf8 "empty"⟩, ?_, rfl⟩, ?_⟩,
    ⟨⟨30, ⟨utf8 "GitHubへと進むと良いが", utf8 "ぎっとはぶへ", utf8 "mixed_japanese_ascii"⟩, ?_, rfl⟩, ?_⟩,
    ⟨⟨30, ⟨utf8 "ProjectMailServiceとProjectChatServiceを", utf8 "めーるさーびすとちゃっと",
      utf8 "empty"⟩, ?_, rfl⟩, ?_⟩⟩ <;> decide +kernel

end Mozkey.Session
