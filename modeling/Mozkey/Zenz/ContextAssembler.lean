import Mozkey.Zenz.ContextSelector
import Mozkey.Zenz.ContextScriptAnalyzer
import Mozkey.Zenz.TextPrivacyAnalyzer

/-!
# Assembling the surrounding text

`session/zenz_context_sanitizer.cc` and `session/zenz_context_assembler.cc`. The text is selected
first, and only what was selected is looked at by the privacy and the script policy. The selection
counts characters, so it can begin in the middle of a token.
-/

namespace Mozkey.Zenz.ContextAssembler

open Infra Base

/-! ## Sanitizing -/

structure ZenzContextSanitizationResult where
  sanitizedContext : Bytes := []
  contextClass : Bytes := []
  allowedForPrompt : Bool := false
  allowedForLearning : Bool := false
  reason : Bytes := []
deriving DecidableEq

def truncateRightByChars (text : Bytes) (maxChars : Nat) : Bytes :=
  if maxChars = 0 || text.isEmpty then []
  else
    let len := charsLen text
    if len ≤ maxChars then text else utf8SubString text (len - maxChars) maxChars

def sanitizeForZenz (rawContext : Bytes) (maxChars : Nat) : ZenzContextSanitizationResult :=
  if rawContext.isEmpty || maxChars = 0 then
    { contextClass := utf8 "empty", reason := utf8 "empty_context" }
  else
    let truncated := truncateRightByChars rawContext maxChars
    if (TextPrivacyAnalyzer.analyze truncated .context).sensitive then
      { contextClass := utf8 "sensitive_like", reason := utf8 "sensitive_context_rejected" }
    else
      let scriptProfile := ContextScriptAnalyzer.analyze truncated
      let contextClass := ContextScriptAnalyzer.classifyForContextClass scriptProfile
      if !ContextScriptAnalyzer.looksUsableAsJapaneseContext truncated scriptProfile then
        { contextClass := contextClass, reason := utf8 "non_japanese_context_rejected" }
      else
        { sanitizedContext := truncated, contextClass := contextClass, allowedForPrompt := true,
          reason := utf8 "context_allowed" }

/-! ## Assembling -/

structure ZenzContextAssemblySide where
  promptContext : Bytes
  contextClass : Bytes
  allowedForPrompt : Bool
  allowedForLearning : Bool
  reason : Bytes
deriving DecidableEq

structure ZenzContextAssemblyInput where
  precedingText : Bytes
  followingText : Bytes
  leftMaxChars : Nat := 0
  rightMaxChars : Nat := 0

structure ZenzContextAssemblyResult where
  left : ZenzContextAssemblySide
  right : ZenzContextAssemblySide

def toAssemblySide (result : ZenzContextSanitizationResult) : ZenzContextAssemblySide :=
  { promptContext := if result.allowedForPrompt then result.sanitizedContext else []
    contextClass := result.contextClass
    allowedForPrompt := result.allowedForPrompt
    allowedForLearning := result.allowedForLearning
    reason := result.reason }

def assemble (input : ZenzContextAssemblyInput) : ZenzContextAssemblyResult :=
  let selectedLeft := ContextSelector.selectLeft input.precedingText input.leftMaxChars
  let selectedRight := ContextSelector.selectRight input.followingText input.rightMaxChars
  { left := toAssemblySide (sanitizeForZenz selectedLeft input.leftMaxChars)
    right := toAssemblySide (sanitizeForZenz selectedRight input.rightMaxChars) }

/-! ## What is allowed -/

theorem allowed_spec {selected : Bytes} {maxChars : Nat}
    (h : (toAssemblySide (sanitizeForZenz selected maxChars)).allowedForPrompt = true) :
    (toAssemblySide (sanitizeForZenz selected maxChars)).promptContext
        = truncateRightByChars selected maxChars ∧
      (TextPrivacyAnalyzer.analyze (truncateRightByChars selected maxChars) .context).sensitive
        = false := by
  unfold sanitizeForZenz at h ⊢
  dsimp only at h ⊢
  split at h
  · cases h
  · next hne =>
    split at h
    · cases h
    · next hprivacy =>
      split at h
      · cases h
      · next husable =>
        rw [if_neg hne, if_neg hprivacy, if_neg husable]
        exact ⟨rfl, Bool.not_eq_true _ ▸ hprivacy⟩

theorem truncateRightByChars_part (text : Bytes) (maxChars : Nat) :
    truncateRightByChars text maxChars <:+: text := by
  unfold truncateRightByChars
  split
  · exact List.nil_infix
  · dsimp only
    split
    · exact List.infix_rfl
    · exact utf8SubString_part _ _ _

theorem selectLeft_part (text : Bytes) (maxChars : Nat) :
    ContextSelector.selectLeft text maxChars <:+: text := by
  unfold ContextSelector.selectLeft
  split
  · exact List.nil_infix
  · dsimp only
    split
    · exact List.nil_infix
    · exact utf8SubString_part _ _ _

/-! ## Where the left context begins -/

/-- What follows `skipped` begins inside the token `head ++ tail`. -/
structure CutsToken (text skipped before head tail after : Bytes) : Prop where
  token : IsRunIn TextPrivacyAnalyzer.isAsciiTokenChar text before (head ++ tail) after
  skipped_eq : skipped = before ++ head
  head_ne_nil : head ≠ []
  tail_ne_nil : tail ≠ []

/-- The left context that is handed on does not begin inside a token that is sensitive alone. -/
def NoPartialSecret (input : ZenzContextAssemblyInput) : Prop :=
  (assemble input).left.allowedForPrompt = true →
    ∀ skipped, input.precedingText = skipped ++ (assemble input).left.promptContext →
      ∀ before head tail after, CutsToken input.precedingText skipped before head tail after →
        (TextPrivacyAnalyzer.analyze (head ++ tail) .context).sensitive = false

/-- Six characters are left of `12345678です`, and nothing in them looks like a number of eight
digits. -/
theorem number_tail_is_handed_on : ¬NoPartialSecret ⟨utf8 "番号は12345678です", [], 6, 0⟩ := by
  intro h
  have htoken : IsRunIn TextPrivacyAnalyzer.isAsciiTokenChar (utf8 "番号は12345678です")
      (utf8 "番号は") (utf8 "1234" ++ utf8 "5678") (utf8 "です") :=
    ⟨by decide +kernel, by decide +kernel, by decide +kernel, by decide +kernel,
      by decide +kernel⟩
  have hquiet := h (by decide +kernel) (utf8 "番号は1234") (by decide +kernel) (utf8 "番号は")
    (utf8 "1234") (utf8 "5678") (utf8 "です")
    ⟨htoken, by decide +kernel, by decide +kernel, by decide +kernel⟩
  revert hquiet
  decide +kernel

theorem lt_of_isAsciiTokenChar : ∀ b : UInt8, TextPrivacyAnalyzer.isAsciiTokenChar b = true →
    b.toNat < 0x80 := by
  refine forall_byte ?_
  decide +kernel

/-- A character that ends with a token byte is that byte. -/
theorem codepoint_of_token_end {u front : Bytes} {b : UInt8} (h : IsChar u) (hu : u = front ++ [b])
    (hb : TextPrivacyAnalyzer.isAsciiTokenChar b = true) : utf8ToCodepoint u = b.toNat := by
  have hsmall := lt_of_isAsciiTokenChar b hb
  obtain ⟨c, tail, hc, -, -, htail⟩ := h.bytes
  cases front with
  | nil => rw [hu, List.nil_append, utf8ToCodepoint, splitFirstChar32, if_pos hsmall]
  | cons d front =>
    -- a byte behind the first one is a trailing byte
    have hmem : b ∈ tail := by
      rw [hc, List.cons_append, List.cons.injEq] at hu
      simp [hu.2]
    have hlarge := htail b hmem
    simp [isUtf8TrailingByte, decide_eq_true_eq] at hlarge
    omega

/-- No token begins behind a blank or a line break that it contains. -/
theorem not_blank_of_token : ∀ b : UInt8, TextPrivacyAnalyzer.isAsciiTokenChar b = true →
    ContextSelector.isHorizontalBlankSpace b.toNat = false ∧
      ContextSelector.isLineBreak b.toNat = false := by
  refine forall_byte ?_
  decide +kernel

/-- A paragraph does not begin inside a token. -/
theorem nil_of_beginsParagraph {chars : List Bytes} {start : Nat} (hchars : ∀ u ∈ chars, IsChar u)
    (hstart : ContextSelector.BeginsParagraph (chars.map utf8ToCodepoint) start)
    {before head : Bytes} (hskip : (chars.take start).flatten = before ++ head)
    (hhead : ∀ c ∈ head, TextPrivacyAnalyzer.isAsciiTokenChar c = true) : head = [] := by
  rcases List.eq_nil_or_concat head with rfl | ⟨head', b, rfl⟩
  · rfl
  · exfalso
    have hb := hhead b (by simp)
    rcases hstart with rfl | ⟨front, c, behind, hcps, rfl, hblank⟩
    · simp at hskip
    · obtain ⟨as, bs, rfl, rfl, hbs⟩ := List.map_eq_append_iff.mp hcps
      obtain ⟨u, us, rfl, hc, -⟩ := List.map_eq_cons_iff.mp hbs
      have hu := hchars u (by simp)
      have htake : (as ++ u :: us).take ((as.map utf8ToCodepoint).length + 1) = as ++ [u] := by
        rw [List.append_cons, List.take_left' (by simp)]
      -- the last byte before the cut is the last byte of the blank
      have hlast : (as.flatten ++ u).getLast? = (before ++ head' ++ [b]).getLast? := by
        rw [List.append_assoc, ← List.concat_eq_append, ← hskip, htake]
        simp
      rcases List.eq_nil_or_concat u with hnil | ⟨u', b', hu'⟩
      · exact hu.ne_nil hnil
      · rw [List.concat_eq_append] at hu'
        rw [hu', ← List.append_assoc, List.getLast?_concat, List.getLast?_concat,
          Option.some.injEq] at hlast
        rw [← hlast] at hb
        have hcode := codepoint_of_token_end hu hu' hb
        have hno := not_blank_of_token b' hb
        rw [← hcode, hc] at hno
        rw [hno.1, hno.2] at hblank
        exact hblank.elim Bool.false_ne_true Bool.false_ne_true

/-- What is selected on the left, in characters. -/
theorem selectLeft_chars {text : Bytes} {maxChars : Nat} {chars : List Bytes}
    (hchars : ∀ u ∈ chars, IsChar u)
    (htext : text = chars.flatten ++ (walk splitFirstChar32 text).2)
    (hcps : utf8ToUtf32 text = chars.map utf8ToCodepoint)
    (hne : ContextSelector.selectLeft text maxChars ≠ []) :
    ContextSelector.selectLeft text maxChars
      = (chars.drop (ContextSelector.selectedStart (utf8ToUtf32 text) maxChars)).flatten := by
  unfold ContextSelector.selectLeft at hne ⊢
  split at hne
  · exact absurd rfl hne
  · next hsome =>
    dsimp only at hne
    split at hne
    · exact absurd rfl hne
    · next hread =>
      have hle := (ContextSelector.selectedStart_spec (utf8ToUtf32 text) maxChars).1
      have hlen : (utf8ToUtf32 text).length = chars.length := by rw [hcps, List.length_map]
      rw [if_neg hsome]
      dsimp only
      rw [if_neg hread]
      generalize ContextSelector.selectedStart (utf8ToUtf32 text) maxChars = start at hle ⊢
      rw [htext, utf8SubString_readable hchars _ (by rw [← htext]; omega), ← htext,
        List.take_of_length_le (by rw [List.length_drop, hlen])]

theorem selected_ne_nil {selected : Bytes} {maxChars : Nat}
    (h : (toAssemblySide (sanitizeForZenz selected maxChars)).allowedForPrompt = true) :
    selected ≠ [] ∧ maxChars ≠ 0 := by
  unfold sanitizeForZenz at h
  split at h
  · cases h
  · next hne =>
    rw [Bool.or_eq_true, List.isEmpty_iff, decide_eq_true_eq] at hne
    exact not_or.mp hne

/-- **The left context begins inside a token only where the budget ends, and it has no token that
is sensitive alone, the rest of a token that was cut included.** -/
theorem left_context_cuts_tokens_at_budget {input : ZenzContextAssemblyInput}
    (h : (assemble input).left.allowedForPrompt = true) :
    ∃ skipped rest,
      input.precedingText = skipped ++ (assemble input).left.promptContext ++ rest ∧
      (∀ before token after,
        IsRunIn TextPrivacyAnalyzer.isAsciiTokenChar (assemble input).left.promptContext
          before token after →
        (TextPrivacyAnalyzer.analyze token .context).sensitive = false) ∧
      ((∀ c ∈ utf8ToUtf32 input.precedingText, c ≤ 0x10FFFF) →
        rest = (walk splitFirstChar32 input.precedingText).2 ∧
        ∀ before head tail after, CutsToken input.precedingText skipped before head tail after →
          input.leftMaxChars < (utf8ToUtf32 input.precedingText).length ∧
          charsLen (assemble input).left.promptContext = input.leftMaxChars) := by
  obtain ⟨hcontext, hprivate⟩ := allowed_spec h
  obtain ⟨hselected, hbudget⟩ := selected_ne_nil h
  have hquiet : ∀ before token after,
      IsRunIn TextPrivacyAnalyzer.isAsciiTokenChar (assemble input).left.promptContext
        before token after →
      (TextPrivacyAnalyzer.analyze token .context).sensitive = false := by
    intro before token after htoken
    rw [← Bool.not_eq_true]
    intro hs
    have ht := TextPrivacyAnalyzer.sensitive_of_token htoken hs
    simp [show (assemble input).left.promptContext = _ from hcontext, hprivate] at ht
  by_cases hcps : ∀ c ∈ utf8ToUtf32 input.precedingText, c ≤ 0x10FFFF
  · obtain ⟨chars, hchars, htext, hmap⟩ := exists_readable_chars (Nat.le_refl _) hcps
    obtain ⟨hle, hfits, hstart⟩ :=
      ContextSelector.selectedStart_spec (utf8ToUtf32 input.precedingText) input.leftMaxChars
    have hsel := selectLeft_chars hchars htext hmap hselected
    have hlen : (utf8ToUtf32 input.precedingText).length = chars.length := by
      simp [hmap]
    set start := ContextSelector.selectedStart (utf8ToUtf32 input.precedingText) input.leftMaxChars
    -- the second truncation finds nothing to cut
    have hcount : charsLen (chars.drop start).flatten = chars.length - start := by
      simp [charsLen_flatten fun u hu => hchars u (List.mem_of_mem_drop hu)]
    have hprompt : (assemble input).left.promptContext = (chars.drop start).flatten := by
      refine hcontext.trans ?_
      rw [hsel, truncateRightByChars, if_neg (by rw [hsel] at hselected; simp [hselected, hbudget])]
      exact if_pos (by omega)
    refine ⟨(chars.take start).flatten, (walk splitFirstChar32 input.precedingText).2, ?_, hquiet,
      fun _ => ⟨rfl, ?_⟩⟩
    · simpa [hprompt, ← List.flatten_append] using htext
    · intro before head tail after hcut
      rcases hstart with hparagraph | ⟨hlong, hat⟩
      · refine absurd (nil_of_beginsParagraph hchars (hmap ▸ hparagraph) hcut.skipped_eq ?_)
          hcut.head_ne_nil
        exact fun c hc => hcut.token.all c (List.mem_append_left _ hc)
      · refine ⟨hlong, ?_⟩
        rw [hprompt, hcount]
        omega
  · obtain ⟨skipped, rest, hparts⟩ :=
      (truncateRightByChars_part _ input.leftMaxChars).trans
        (selectLeft_part input.precedingText input.leftMaxChars)
    refine ⟨skipped, rest, ?_, hquiet, fun hall => absurd hall hcps⟩
    rw [← hparts]
    exact congrArg (skipped ++ · ++ rest) hcontext.symm

/-- The tail of a number of eight digits. -/
theorem left_context_of_number_cut :
    ∃ skipped rest, utf8 "番号は12345678です" = skipped ++
        (assemble ⟨utf8 "番号は12345678です", [], 6, 0⟩).left.promptContext ++ rest ∧
      (∀ before token after,
        IsRunIn TextPrivacyAnalyzer.isAsciiTokenChar
          (assemble ⟨utf8 "番号は12345678です", [], 6, 0⟩).left.promptContext before token after →
        (TextPrivacyAnalyzer.analyze token .context).sensitive = false) ∧
      ((∀ c ∈ utf8ToUtf32 (utf8 "番号は12345678です"), c ≤ 0x10FFFF) →
        rest = (walk splitFirstChar32 (utf8 "番号は12345678です")).2 ∧
        ∀ before head tail after,
          CutsToken (utf8 "番号は12345678です") skipped before head tail after →
          6 < (utf8ToUtf32 (utf8 "番号は12345678です")).length ∧
          charsLen (assemble ⟨utf8 "番号は12345678です", [], 6, 0⟩).left.promptContext = 6) :=
  @left_context_cuts_tokens_at_budget ⟨utf8 "番号は12345678です", [], 6, 0⟩ (by decide +kernel)

end Mozkey.Zenz.ContextAssembler
