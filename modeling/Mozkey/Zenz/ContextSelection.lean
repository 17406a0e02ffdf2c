import Mozkey.Base.Utf8Encode
import Mozkey.Zenz.ContextBoundaries

/-!
# What is selected around the cursor

`SelectLeft` and `SelectRight` select as many characters as the budget allows and the boundaries
of the paragraph and the sentence do. The boundaries are found in the code points, and the
characters are cut out by their lengths in bytes. In a text of Unicode characters both count the
same.
-/

namespace Mozkey.Zenz.ContextSelector

open Infra Base

/-- The longest part at the end of the text that has at most `maxChars` code points and does not
begin before code point `start`. -/
structure LongestSuffix (text result : Bytes) (start maxChars : Nat) : Prop where
  valid : IsUnicode result
  suffix : result <:+ text
  fits : (utf8ToUtf32 result).length ≤ maxChars
  after : start + (utf8ToUtf32 result).length ≤ (utf8ToUtf32 text).length
  longest : ∀ s, IsUnicode s → s <:+ text → (utf8ToUtf32 s).length ≤ maxChars →
    start + (utf8ToUtf32 s).length ≤ (utf8ToUtf32 text).length → s <:+ result

/-- The longest part at the front of the text that has at most `maxChars` code points and does
not reach beyond code point `limit`. -/
structure LongestFront (text result : Bytes) (limit maxChars : Nat) : Prop where
  valid : IsUnicode result
  front : result <+: text
  fits : (utf8ToUtf32 result).length ≤ maxChars
  before : (utf8ToUtf32 result).length ≤ limit
  longest : ∀ s, IsUnicode s → s <+: text → (utf8ToUtf32 s).length ≤ maxChars →
    (utf8ToUtf32 s).length ≤ limit → s <+: result

/-! ## Characters and code points -/

variable {chars : List Bytes}

/-- A text of characters begins with a leading byte. -/
theorem leading_of_flatten (h : ∀ u ∈ chars, IsChar u) {c : UInt8} {rest : Bytes}
    (heq : chars.flatten = c :: rest) : isUtf8TrailingByte c = false := by
  cases chars with
  | nil => cases heq
  | cons u chars =>
    obtain ⟨d, tail, rfl, -, hd, -⟩ := (h u List.mem_cons_self).bytes
    rw [List.flatten_cons, List.cons_append, List.cons.injEq] at heq
    exact heq.1 ▸ hd

/-- Of two parts at the end, the one with more code points is not the shorter one. -/
theorem suffix_of_length {text s result : Bytes} (hs : IsUnicode s) (hresult : IsUnicode result)
    (hst : s <:+ text) (hrt : result <:+ text)
    (hle : (utf8ToUtf32 s).length ≤ (utf8ToUtf32 result).length) : s <:+ result := by
  rcases List.suffix_or_suffix_of_suffix hst hrt with h | ⟨t, rfl⟩
  · exact h
  · cases t with
    | nil => exact List.suffix_refl _
    | cons c t =>
      obtain ⟨chars, hchars, heq, -⟩ := hs.exists_characters
      have hc := leading_of_flatten hchars heq.symm
      rw [length_utf8ToUtf32 hs, length_utf8ToUtf32 hresult, charsLen_append] at hle
      have hpos := charsLen_pos t hc
      omega

/-- Of two parts at the front, the one with more code points is not the shorter one. -/
theorem front_of_length (h : ∀ u ∈ chars, IsChar u) {s : Bytes} {k : Nat} (hs : IsUnicode s)
    (hst : s <+: chars.flatten)
    (hle : (utf8ToUtf32 s).length ≤ (utf8ToUtf32 (chars.take k).flatten).length) :
    s <+: (chars.take k).flatten := by
  have hsplit : (chars.take k).flatten ++ (chars.drop k).flatten = chars.flatten := by
    simp [← List.flatten_append]
  have hfront : (chars.take k).flatten <+: chars.flatten := ⟨_, hsplit⟩
  have htake : IsUnicode (chars.take k).flatten :=
    isUnicode_flatten fun u hu => h u (List.mem_of_mem_take hu)
  rcases List.prefix_or_prefix_of_prefix hst hfront with hp | ⟨t, rfl⟩
  · exact hp
  · cases t with
    | nil => simp
    | cons c t =>
      obtain ⟨rest, hrest⟩ := hst
      rw [← hsplit, List.append_assoc, List.append_cancel_left_eq, List.cons_append] at hrest
      have hc := leading_of_flatten (fun u hu => h u (List.mem_of_mem_drop hu)) hrest.symm
      rw [length_utf8ToUtf32 hs, length_utf8ToUtf32 htake, charsLen_append] at hle
      have hpos := charsLen_pos t hc
      omega

/-! ## The cut -/

theorem flatten_drop_suffix (chars : List Bytes) (n : Nat) :
    (chars.drop n).flatten <:+ chars.flatten :=
  ⟨(chars.take n).flatten, by rw [← List.flatten_append, List.take_append_drop]⟩

theorem flatten_take_front (chars : List Bytes) (n : Nat) :
    (chars.take n).flatten <+: chars.flatten :=
  ⟨(chars.drop n).flatten, by rw [← List.flatten_append, List.take_append_drop]⟩

theorem findCurrentParagraphStart_le (codepoints : List Nat) :
    findCurrentParagraphStart codepoints ≤ codepoints.length :=
  (findCurrentParagraphStart_begins codepoints).le_length

/-- The left context begins where the paragraph does, or where the budget does. -/
theorem selectLeft_flatten (h : ∀ u ∈ chars, IsChar u) (maxChars : Nat) :
    selectLeft chars.flatten maxChars = (chars.drop
      (max (findCurrentParagraphStart (chars.map utf8ToCodepoint))
        (chars.length - maxChars))).flatten := by
  have hstart := findCurrentParagraphStart_le (chars.map utf8ToCodepoint)
  rw [List.length_map] at hstart
  rw [selectLeft, utf8ToUtf32_chars h]
  split
  · next hnone =>
    rw [Bool.or_eq_true, List.isEmpty_iff, decide_eq_true_eq] at hnone
    rcases hnone with hnil | rfl
    · have hdrop := flatten_drop_suffix chars
        (max (findCurrentParagraphStart (chars.map utf8ToCodepoint)) (chars.length - maxChars))
      rw [hnil, List.suffix_nil] at hdrop
      exact hdrop.symm
    · rw [List.drop_of_length_le (by omega)]
      rfl
  · dsimp only
    split
    · next hnil =>
      rw [List.isEmpty_iff, List.map_eq_nil_iff] at hnil
      subst hnil
      simp
    · have hsub : selectedStart (chars.map utf8ToCodepoint) maxChars
          = max (findCurrentParagraphStart (chars.map utf8ToCodepoint))
            (chars.length - maxChars) := by
        rw [selectedStart, List.length_map]
        split <;> omega
      rw [hsub, List.length_map, utf8SubString, splitStringToUtf8Chars_flatten h,
        List.take_of_length_le (by rw [List.length_drop])]

/-- The right context ends where the sentence does, or where the budget does. -/
theorem selectRight_flatten (h : ∀ u ∈ chars, IsChar u) (maxChars : Nat) :
    selectRight chars.flatten maxChars = (chars.take
      (min maxChars (selectedEnd (chars.map utf8ToCodepoint)))).flatten := by
  rw [selectRight, utf8ToUtf32_chars h]
  split
  · next hnone =>
    rw [Bool.or_eq_true, List.isEmpty_iff, decide_eq_true_eq] at hnone
    rcases hnone with hnil | rfl
    · have htake := flatten_take_front chars
        (min maxChars (selectedEnd (chars.map utf8ToCodepoint)))
      rw [hnil, List.prefix_nil] at htake
      exact htake.symm
    · simp
  · dsimp only
    split
    · next hnil =>
      rw [List.isEmpty_iff, List.map_eq_nil_iff] at hnil
      subst hnil
      simp
    · rw [selectedEnd]
      split
      · simp
      · split
        · next hzero =>
          simp [hzero]
        · simp [utf8SubString, splitStringToUtf8Chars_flatten h]

/-! ## A blank line is never spanned -/

/-- Without its first code point a text has no blank line it did not have. -/
theorem blankLine_of_tail {c : Nat} {l : List Nat} {i k : Nat} (h : BlankLine l i k) :
    ∃ i' k', BlankLine (c :: l) i' k' := by
  by_cases hlen : logicalLineBreakLength (c :: l) ≤ 1
  · have hunits : logicalChars (c :: l) = [c] :: logicalChars l := by
      by_cases hzero : logicalLineBreakLength (c :: l) = 0
      · exact (logicalChars_other hzero).2
      · obtain ⟨-, hunits⟩ := logicalChars_break hzero
        simpa [show logicalLineBreakLength (c :: l) = 1 by omega] using hunits
    have hbehind := HasBlankLine.behind h [[c]]
    rw [List.singleton_append, ← hunits] at hbehind
    exact ⟨_, _, hbehind⟩
  · -- CRLF, of which the line feed is left
    cases l with
    | nil =>
      obtain ⟨before, first, blanks, second, behind, heq, -⟩ := h
      exact absurd (congrArg List.length heq) (by simp [logicalChars])
    | cons d l =>
      have hcrlf : c = codepoint '\r' ∧ d = codepoint '\n' := by
        rw [logicalLineBreakLength] at hlen
        split at hlen
        · next hc =>
          split at hlen
          · next hd =>
            rw [List.head?_cons, Option.some.injEq] at hd
            exact ⟨hc, hd⟩
          · exact absurd (Nat.le_refl _) hlen
        · split at hlen
          · exact absurd (Nat.le_refl _) hlen
          · exact absurd (Nat.zero_le _) hlen
      obtain ⟨rfl, rfl⟩ := hcrlf
      have hunits : logicalChars (codepoint '\r' :: codepoint '\n' :: l)
          = [codepoint '\r', codepoint '\n'] :: logicalChars l := by
        rw [logicalChars, if_pos ⟨rfl, rfl⟩]
      have htail : logicalChars (codepoint '\n' :: l) = [codepoint '\n'] :: logicalChars l :=
        (logicalChars_break (l := codepoint '\n' :: l) (by
          rw [logicalLineBreakLength, if_neg (by decide), if_pos rfl]
          decide)).2
      rw [BlankLine, htail] at h
      rcases h.cases_cons with ⟨-, -, blanks, second, behind, hl, hblanks, hsecond⟩ | h'
      · exact ⟨_, _, [], _, blanks, second, behind, by rw [hunits, hl]; rfl, Or.inr (Or.inr rfl),
          hblanks, hsecond, rfl, rfl⟩
      · obtain ⟨i', k', h', -⟩ := h'
        have hbehind := h'.behind [[codepoint '\r', codepoint '\n']]
        rw [List.singleton_append, ← hunits] at hbehind
        exact ⟨_, _, hbehind⟩

theorem blankLine_of_drop : ∀ (n : Nat) {l : List Nat} {i k : Nat}, BlankLine (l.drop n) i k →
    ∃ i' k', BlankLine l i' k'
  | 0, _, i, k, h => ⟨i, k, h⟩
  | n + 1, [], i, k, h => by
    rw [List.drop_nil] at h
    exact ⟨i, k, h⟩
  | n + 1, c :: l, i, k, h => by
    rw [List.drop_succ_cons] at h
    obtain ⟨i', k', h'⟩ := blankLine_of_drop n h
    exact blankLine_of_tail h'

/-- The last paragraph has no blank line. -/
theorem ParagraphStart.no_blankLine {l : List Nat} {start : Nat} (h : ParagraphStart l start) :
    ∀ i k, ¬ BlankLine (l.drop start) i k := by
  cases h with
  | text hno =>
    intro i k h
    exact hno i k h
  | @blankLine i k hblank hlast =>
    intro i' k' h
    obtain ⟨before, first, blanks, second, behind, heq, hfirst, hblanks, hsecond, rfl, rfl⟩ :=
      hblank
    rw [← List.drop_drop] at h
    have hl : l = (before ++ first :: (blanks ++ [second])).flatten ++ behind.flatten := by
      rw [← flatten_logicalChars l, heq]
      simp
    have hdrop : l.drop (before ++ first :: (blanks ++ [second])).flatten.length
        = behind.flatten := by
      rw [hl, List.drop_left]
    rw [hdrop] at h
    obtain ⟨i'', k'', h''⟩ := blankLine_of_drop _ h
    have hunits : logicalChars behind.flatten = behind :=
      logicalChars_append (before ++ first :: (blanks ++ [second])) (heq.trans (by simp))
    have hwhole : logicalChars l = (before ++ first :: (blanks ++ [second])) ++ behind := by
      simp [heq]
    rw [BlankLine, hunits] at h''
    have hbehind := HasBlankLine.behind h'' (before ++ first :: (blanks ++ [second]))
    rw [← hwhole] at hbehind
    have hle := hlast _ _ hbehind
    have hlt := h''.lt
    omega

/-! ## The selection -/

/-- **The context selected to the left is the longest that fits the budget and the paragraph, and
to the right the longest that fits the budget and the sentence.** Neither loses anything when the
budget grows. -/
theorem context_selection_exact {text : Bytes} (h : IsUnicode text) :
    (∀ maxChars, ∃ start, ParagraphStart (utf8ToUtf32 text) start ∧
      LongestSuffix text (selectLeft text maxChars) start maxChars ∧
      ∀ i k, ¬ BlankLine (utf8ToUtf32 (selectLeft text maxChars)) i k) ∧
    (∀ maxChars, ∃ limit, ContextEnd (utf8ToUtf32 text) limit ∧
      LongestFront text (selectRight text maxChars) limit maxChars) ∧
    ∀ smaller larger, smaller ≤ larger →
      selectLeft text smaller <:+ selectLeft text larger ∧
      selectRight text smaller <+: selectRight text larger := by
  obtain ⟨chars, hchars, rfl, hpoints⟩ := h.exists_characters
  have hdropped : ∀ n, ∀ u ∈ chars.drop n, IsChar u := fun n u hu =>
    hchars u (List.mem_of_mem_drop hu)
  have htaken : ∀ n, ∀ u ∈ chars.take n, IsChar u := fun n u hu =>
    hchars u (List.mem_of_mem_take hu)
  have hstart := findCurrentParagraphStart_spec (chars.map utf8ToCodepoint)
  have hstartLe := findCurrentParagraphStart_le (chars.map utf8ToCodepoint)
  obtain ⟨hend, hendLe⟩ := selectedEnd_spec (chars.map utf8ToCodepoint)
  rw [List.length_map] at hstartLe hendLe
  rw [hpoints]
  refine ⟨fun maxChars => ⟨_, hstart, ?_, ?_⟩, fun maxChars => ⟨_, hend, ?_⟩,
    fun smaller larger hle => ⟨?_, ?_⟩⟩
  · rw [selectLeft_flatten hchars]
    set begin := max (findCurrentParagraphStart (chars.map utf8ToCodepoint))
      (chars.length - maxChars)
    have hvalid := isUnicode_flatten (hdropped begin)
    have hcount : (utf8ToUtf32 (chars.drop begin).flatten).length = chars.length - begin := by
      simp [utf8ToUtf32_chars (hdropped _)]
    refine ⟨hvalid, flatten_drop_suffix chars begin, ?_, ?_, ?_⟩
    · rw [hcount]
      omega
    · simp [hcount, hpoints]
      omega
    · intro s hs hst hfits hafter
      refine suffix_of_length hs hvalid hst (flatten_drop_suffix chars begin) ?_
      rw [hpoints, List.length_map] at hafter
      rw [hcount]
      omega
  · intro i k hblank
    rw [selectLeft_flatten hchars, utf8ToUtf32_chars (hdropped _), List.map_drop,
      ← Nat.add_sub_cancel' (Nat.le_max_left _ _), ← List.drop_drop] at hblank
    obtain ⟨i', k', hblank'⟩ := blankLine_of_drop _ hblank
    exact hstart.no_blankLine i' k' hblank'
  · rw [selectRight_flatten hchars]
    set n := min maxChars (selectedEnd (chars.map utf8ToCodepoint))
    have hcount : (utf8ToUtf32 (chars.take n).flatten).length = n := by
      simp [utf8ToUtf32_chars (htaken _)]
      omega
    refine ⟨isUnicode_flatten (htaken _), flatten_take_front chars n, ?_, ?_, ?_⟩
    · rw [hcount]
      omega
    · rw [hcount]
      omega
    · intro s hs hst hfits hbefore
      refine front_of_length hchars hs hst ?_
      rw [hcount]
      omega
  · rw [selectLeft_flatten hchars, selectLeft_flatten hchars]
    have hstep : max (findCurrentParagraphStart (chars.map utf8ToCodepoint))
        (chars.length - larger) ≤ max (findCurrentParagraphStart (chars.map utf8ToCodepoint))
          (chars.length - smaller) := by omega
    rw [← Nat.add_sub_cancel' hstep, ← List.drop_drop]
    exact flatten_drop_suffix _ _
  · rw [selectRight_flatten hchars, selectRight_flatten hchars]
    have hstep : min smaller (selectedEnd (chars.map utf8ToCodepoint))
        = min (min smaller (selectedEnd (chars.map utf8ToCodepoint)))
          (min larger (selectedEnd (chars.map utf8ToCodepoint))) := by omega
    rw [hstep, ← List.take_take]
    exact flatten_take_front _ _

/-- A paragraph before a blank line, and one sentence with a closer behind it. -/
theorem context_selection_exact_lines :
    IsUnicode (utf8 "あ。\r\n \nい！」う") ∧
      (∃ limit, ContextEnd (utf8ToUtf32 (utf8 "あ。\r\n \nい！」う")) limit ∧
        LongestFront (utf8 "あ。\r\n \nい！」う")
          (selectRight (utf8 "あ。\r\n \nい！」う") 9) limit 9) ∧
      selectLeft (utf8 "あ。\r\n \nい！」う") 2 <:+
        selectLeft (utf8 "あ。\r\n \nい！」う") 9 :=
  have h : IsUnicode (utf8 "あ。\r\n \nい！」う") := by decide +kernel
  ⟨h, (context_selection_exact h).2.1 9, ((context_selection_exact h).2.2 2 9 (by decide)).1⟩

end Mozkey.Zenz.ContextSelector
