import Mozkey.Base.Utf8Text
import Mathlib.Data.List.TakeWhile

/-!
# Selecting the surrounding text

`session/zenz_context_selector.cc`. The left context goes back to the last blank line, as far as
the character budget reaches. The right context goes on to the first blank line or to the end of
the first sentence.

Positions are counted in code points by the strict decoder, and the characters at these
positions are cut out with the table of lengths.
-/

namespace Mozkey.Zenz.ContextSelector

open Infra Base

/-- The code point of a character of the source. -/
def codepoint (c : Char) : Nat := c.toNat

def isHorizontalBlankSpace (c : Nat) : Bool :=
  c == codepoint ' ' || c == codepoint '\t' || c == codepoint '　'

def isLineBreak (c : Nat) : Bool := c == codepoint '\r' || c == codepoint '\n'

/-- The length of the line break at the front, 0 when there is none. CRLF is one line break. -/
def logicalLineBreakLength : List Nat → Nat
  | [] => 0
  | c :: rest =>
    if c = codepoint '\r' then if rest.head? = some (codepoint '\n') then 2 else 1
    else if c = codepoint '\n' then 1
    else 0

/-- What is behind a blank line at the front, without more empty lines and without indentation. -/
def behindBlankLine (codepoints : List Nat) : Option (List Nat) :=
  let firstBreakLen := logicalLineBreakLength codepoints
  if firstBreakLen = 0 then none
  else
    let nextLine := (codepoints.drop firstBreakLen).dropWhile isHorizontalBlankSpace
    let secondBreakLen := logicalLineBreakLength nextLine
    if secondBreakLen = 0 then none
    else some ((nextLine.drop secondBreakLen).dropWhile fun c =>
      isHorizontalBlankSpace c || isLineBreak c)

/-! ## To the left -/

/-- The loop of `FindCurrentParagraphStart`, at position `i`. `skip` code points are still part
of what was consumed. -/
def paragraphStartFrom : Nat → Nat → Nat → List Nat → Nat
  | _, _, paragraphStart, [] => paragraphStart
  | skip + 1, i, paragraphStart, _ :: rest => paragraphStartFrom skip (i + 1) paragraphStart rest
  | 0, i, paragraphStart, c :: rest =>
    match behindBlankLine (c :: rest) with
    | none =>
      paragraphStartFrom (logicalLineBreakLength (c :: rest) - 1) (i + 1) paragraphStart rest
    | some behind =>
      let consumed := (c :: rest).length - behind.length
      paragraphStartFrom (consumed - 1) (i + 1) (i + consumed) rest

def findCurrentParagraphStart (codepoints : List Nat) : Nat := paragraphStartFrom 0 0 0 codepoints

/-- `selected_start` of `SelectLeft` -/
def selectedStart (codepoints : List Nat) (maxChars : Nat) : Nat :=
  let paragraphStart := findCurrentParagraphStart codepoints
  let availableChars := codepoints.length - paragraphStart
  if availableChars ≤ maxChars then paragraphStart else codepoints.length - maxChars

def selectLeft (text : Bytes) (maxChars : Nat) : Bytes :=
  if text.isEmpty || maxChars = 0 then []
  else
    let codepoints := utf8ToUtf32 text
    if codepoints.isEmpty then []
    else
      let start := selectedStart codepoints maxChars
      utf8SubString text start (codepoints.length - start)

/-! ## To the right -/

/-- The loop of `FindFirstParagraphBoundary`, at position `i`. -/
def paragraphBoundaryFrom : Nat → Nat → List Nat → Nat
  | _, i, [] => i
  | skip + 1, i, _ :: rest => paragraphBoundaryFrom skip (i + 1) rest
  | 0, i, c :: rest =>
    match behindBlankLine (c :: rest) with
    | none => paragraphBoundaryFrom (logicalLineBreakLength (c :: rest) - 1) (i + 1) rest
    | some _ => i

def findFirstParagraphBoundary (codepoints : List Nat) : Nat := paragraphBoundaryFrom 0 0 codepoints

def isSentenceTerminator (c : Nat) : Bool := ['。', '！', '？', '!', '?'].any (codepoint · == c)

def isSentenceTrailingCloser (c : Nat) : Bool :=
  ['」', '』', '）', '］', '】', '〉', '》', '”', '’', ')', ']', '"'].any (codepoint · == c)

/-- Behind the first sentence, its repeated terminators and what closes it. -/
def findFirstSentenceEnd (codepoints : List Nat) (limit : Nat) : Nat :=
  let before := (codepoints.take limit).takeWhile fun c => !isSentenceTerminator c
  if before.length = (codepoints.take limit).length then limit
  else
    let ending := ((codepoints.take limit).drop before.length).takeWhile fun c =>
      isSentenceTerminator c || isSentenceTrailingCloser c
    before.length + ending.length

def selectRight (text : Bytes) (maxChars : Nat) : Bytes :=
  if text.isEmpty || maxChars = 0 then []
  else
    let codepoints := utf8ToUtf32 text
    if codepoints.isEmpty then []
    -- a line break right behind the cursor ends the context
    else if logicalLineBreakLength (codepoints.dropWhile isHorizontalBlankSpace) ≠ 0 then []
    else
      let paragraphLimit := findFirstParagraphBoundary codepoints
      let sentenceLimit := findFirstSentenceEnd codepoints paragraphLimit
      let selectedChars := min maxChars sentenceLimit
      if selectedChars = 0 then [] else utf8SubString text 0 selectedChars

/-! ## Where a paragraph begins -/

/-- The paragraph begins with the text, or behind a blank or a line break. -/
def BeginsParagraph (codepoints : List Nat) (start : Nat) : Prop :=
  start = 0 ∨ ∃ front c behind, codepoints = front ++ c :: behind ∧ start = front.length + 1 ∧
    (isHorizontalBlankSpace c = true ∨ isLineBreak c = true)

theorem logicalLineBreakLength_take (l : List Nat) :
    ∀ c ∈ l.take (logicalLineBreakLength l), isLineBreak c = true := by
  cases l with
  | nil => simp
  | cons a rest =>
    rw [logicalLineBreakLength]
    split
    · next ha =>
      have hr : isLineBreak (codepoint '\r') = true := by decide
      split
      · next hn =>
        cases rest with
        | nil => cases hn
        | cons b rest =>
          rw [List.head?_cons, Option.some.injEq] at hn
          simp only [List.take_succ_cons, List.take_zero, List.mem_cons, List.not_mem_nil, or_false]
          rintro c (rfl | rfl)
          · exact ha ▸ hr
          · exact hn ▸ (by decide)
      · simp [ha, hr]
    · split
      · next ha =>
        have hn : isLineBreak (codepoint '\n') = true := by decide
        simp [ha, hn]
      · simp

theorem logicalLineBreakLength_le (l : List Nat) : logicalLineBreakLength l ≤ l.length := by
  cases l with
  | nil => exact Nat.le_refl 0
  | cons a rest =>
    rw [logicalLineBreakLength]
    split
    · split
      · next hn =>
        cases rest with
        | nil => cases hn
        | cons b rest => simp
      · simp
    · split <;> simp

/-- A blank line ends with blanks or line breaks. -/
theorem behindBlankLine_some {l behind : List Nat} (h : behindBlankLine l = some behind) :
    ∃ front blank, l = front ++ blank ++ behind ∧ blank ≠ [] ∧
      ∀ c ∈ blank, isHorizontalBlankSpace c = true ∨ isLineBreak c = true := by
  rw [behindBlankLine] at h
  split at h
  · cases h
  · dsimp only at h
    split at h
    · cases h
    · next hsecond =>
      rw [Option.some.injEq] at h
      set firstBreakLen := logicalLineBreakLength l
      set nextLine := (l.drop firstBreakLen).dropWhile isHorizontalBlankSpace with hnext
      set secondBreakLen := logicalLineBreakLength nextLine
      refine ⟨l.take firstBreakLen ++ (l.drop firstBreakLen).takeWhile isHorizontalBlankSpace,
        nextLine.take secondBreakLen ++ (nextLine.drop secondBreakLen).takeWhile fun c =>
          isHorizontalBlankSpace c || isLineBreak c, ?_, ?_, ?_⟩
      · simp [← h, hnext]
      · intro he
        have hlen := congrArg List.length (List.append_eq_nil_iff.mp he).1
        have hle := logicalLineBreakLength_le nextLine
        rw [List.length_take, List.length_nil] at hlen
        omega
      · intro c hc
        rcases List.mem_append.mp hc with hc | hc
        · exact Or.inr (logicalLineBreakLength_take _ c hc)
        · have hp := List.mem_takeWhile_imp hc
          exact Bool.or_eq_true_iff.mp hp

/-- The start that the loop goes on with keeps being one. -/
theorem beginsParagraph_from : ∀ (rest before : List Nat) (skip start : Nat),
    BeginsParagraph (before ++ rest) start →
    BeginsParagraph (before ++ rest) (paragraphStartFrom skip before.length start rest)
  | [], before, skip, start, h => by
    cases skip <;> exact h
  | c :: rest, before, skip, start, h => by
    have hmove : before ++ c :: rest = (before ++ [c]) ++ rest := by simp
    have hlen : (before ++ [c]).length = before.length + 1 := by simp
    cases skip with
    | succ skip =>
      rw [paragraphStartFrom, hmove, ← hlen]
      exact beginsParagraph_from rest _ skip start (hmove ▸ h)
    | zero =>
      rw [paragraphStartFrom]
      split
      · rw [hmove, ← hlen]
        exact beginsParagraph_from rest _ _ start (hmove ▸ h)
      · next behind hb =>
        rw [hmove, ← hlen]
        refine beginsParagraph_from rest _ _ _ (hmove ▸ Or.inr ?_)
        obtain ⟨front, blank, hl, hne, hblank⟩ := behindBlankLine_some hb
        rcases List.eq_nil_or_concat blank with rfl | ⟨blank', last, rfl⟩
        · exact absurd rfl hne
        · refine ⟨before ++ front ++ blank', last, behind, ?_, ?_, hblank last (by simp)⟩
          · simp [hl]
          · rw [hl]
            simp
            omega

theorem findCurrentParagraphStart_begins (codepoints : List Nat) :
    BeginsParagraph codepoints (findCurrentParagraphStart codepoints) :=
  beginsParagraph_from codepoints [] 0 0 (Or.inl rfl)

theorem BeginsParagraph.le_length {codepoints : List Nat} {start : Nat}
    (h : BeginsParagraph codepoints start) : start ≤ codepoints.length := by
  rcases h with rfl | ⟨front, c, behind, rfl, rfl, -⟩
  · exact Nat.zero_le _
  · simp

/-- What is selected ends with the text, and fits the budget. -/
theorem selectedStart_spec (codepoints : List Nat) (maxChars : Nat) :
    selectedStart codepoints maxChars ≤ codepoints.length ∧
      codepoints.length - selectedStart codepoints maxChars ≤ maxChars ∧
      (BeginsParagraph codepoints (selectedStart codepoints maxChars) ∨
        maxChars < codepoints.length ∧
          selectedStart codepoints maxChars = codepoints.length - maxChars) := by
  have hp := findCurrentParagraphStart_begins codepoints
  have hle := hp.le_length
  rw [selectedStart]
  split
  · next hfits => exact ⟨hle, hfits, Or.inl hp⟩
  · next hbudget => exact ⟨by omega, by omega, Or.inr ⟨by omega, rfl⟩⟩

end Mozkey.Zenz.ContextSelector
