import Mozkey.Zenz.BlankLines

/-!
# Where the selected context begins and ends

The loops of `session/zenz_context_selector.cc` against what they are for. They are followed
logical character by logical character.
-/

namespace Mozkey.Zenz.ContextSelector

open Infra Base

/-! ## The paragraph at the end -/

/-- Where the last paragraph begins: with the text, or with the first character that is no
horizontal blank behind the last blank line. -/
inductive ParagraphStart (codepoints : List Nat) : Nat → Prop where
  | text : (∀ i k, ¬ BlankLine codepoints i k) → ParagraphStart codepoints 0
  | blankLine {i k : Nat} : BlankLine codepoints i k →
      (∀ i' k', BlankLine codepoints i' k' → k' ≤ k) →
      ParagraphStart codepoints
        (k + ((codepoints.drop k).takeWhile isHorizontalBlankSpace).length)

/-- The start behind the last blank line of a text that has one. -/
def BehindLast (codepoints : List Nat) (start : Nat) : Prop :=
  ∃ i k, BlankLine codepoints i k ∧ (∀ i' k', BlankLine codepoints i' k' → k' ≤ k) ∧
    start = k + ((codepoints.drop k).takeWhile isHorizontalBlankSpace).length

theorem paragraphStartFrom_skip : ∀ (skip i start : Nat) (l : List Nat),
    paragraphStartFrom skip i start l = paragraphStartFrom 0 (i + skip) start (l.drop skip)
  | 0, _, _, _ => rfl
  | skip + 1, i, start, [] => by rw [List.drop_nil, paragraphStartFrom, paragraphStartFrom]
  | skip + 1, i, start, _ :: rest => by
    rw [paragraphStartFrom, paragraphStartFrom_skip skip, List.drop_succ_cons]
    congr 1
    omega

/-- Behind a logical character at which no blank line begins are all blank lines. -/
theorem BlankLine.of_cons {u : List Nat} {l : List Nat} {i k : Nat}
    (hunits : logicalChars (u ++ l) = u :: logicalChars l)
    (hnone : IsBreak u → ∀ blanks second behind, logicalChars l = blanks ++ second :: behind →
      (∀ b ∈ blanks, IsBlank b) → ¬ IsBreak second)
    (h : BlankLine (u ++ l) i k) :
    ∃ i' k', BlankLine l i' k' ∧ i = u.length + i' ∧ k = u.length + k' := by
  rw [BlankLine, hunits] at h
  rcases h.cases_cons with ⟨-, hu, blanks, second, behind, hl, hblanks, hsecond⟩ | h
  · exact absurd hsecond (hnone hu blanks second behind hl hblanks)
  · exact h

theorem BlankLine.behind_append (front : List (List Nat)) {l : List Nat} {i k : Nat}
    (hunits : logicalChars (front.flatten ++ l) = front ++ logicalChars l) (h : BlankLine l i k) :
    BlankLine (front.flatten ++ l) (front.flatten.length + i) (front.flatten.length + k) := by
  rw [BlankLine, hunits]
  exact HasBlankLine.behind h front

/-- The last blank line stays the last one behind what has none that ends later. -/
theorem BehindLast.behind_append (front : List (List Nat)) {l : List Nat} {start : Nat}
    (hunits : logicalChars (front.flatten ++ l) = front ++ logicalChars l)
    (hall : ∀ i k, BlankLine (front.flatten ++ l) i k → k ≤ front.flatten.length ∨
      ∃ i' k', BlankLine l i' k' ∧ k = front.flatten.length + k')
    (h : BehindLast l start) : BehindLast (front.flatten ++ l) (front.flatten.length + start) := by
  obtain ⟨i, k, hblank, hlast, rfl⟩ := h
  refine ⟨_, _, hblank.behind_append front hunits, ?_, ?_⟩
  · intro i' k' h'
    rcases hall i' k' h' with hle | ⟨i'', k'', hl, rfl⟩
    · omega
    · have hk := hlast i'' k'' hl
      omega
  · have hdrop : (front.flatten ++ l).drop (front.flatten.length + k) = l.drop k := by
      simp [← List.drop_drop]
    rw [hdrop]
    omega

namespace Consumed

variable {l behind first second : List Nat} {blanks gap : List (List Nat)}

/-- The paragraph goes on behind the blank lines that are consumed. -/
theorem behindLast_of_none (h : Consumed l behind first second blanks gap)
    (hnone : ∀ i k, ¬ BlankLine behind i k) :
    BehindLast l (first :: (blanks ++ second :: gap)).flatten.length := by
  obtain ⟨before, first', blanks', second', rest, heq, hfirst, hblanks, hsecond, hrest⟩ :=
    exists_last_blankLine h.first h.blanks h.second gap h.gap
  have hunits : logicalChars l = before ++ first' :: (blanks' ++ second' ::
      (rest ++ logicalChars behind)) := by
    rw [h.units, heq]
    simp
  refine ⟨_, _, ⟨before, first', blanks', second', _, hunits, hfirst, hblanks, hsecond, rfl, rfl⟩,
    ?_, ?_⟩
  · intro i k hik
    obtain ⟨before', first'', blanks'', second'', rest', heq', hfirst'', hblanks'', hsecond', -,
      rfl⟩ := hik
    have hreach := h.blankLine_cases ⟨before', first'', blanks'', second'', rest', heq', hfirst'',
      hblanks'', hsecond', rfl, rfl⟩
    have hsplit : (before ++ first' :: blanks') ++ second' :: (rest ++ logicalChars behind)
        = (before' ++ first'' :: blanks'') ++ second'' :: rest' := by
      rw [hunits] at heq'
      simpa using heq'
    have hpart : before' ++ first'' :: (blanks'' ++ [second''])
        = (before' ++ first'' :: blanks'') ++ [second''] := by simp
    have hwhole : before ++ first' :: (blanks' ++ [second'])
        = (before ++ first' :: blanks') ++ [second'] := by simp
    rw [hpart] at hreach ⊢
    rw [hwhole]
    rcases List.append_eq_append_iff.mp hsplit with ⟨a, ha, hb⟩ | ⟨a, ha, hb⟩
    · cases a with
      | nil =>
        rw [List.nil_append, List.cons.injEq] at hb
        simp [ha, hb.1]
      | cons u a =>
        rw [List.cons_append, List.cons.injEq] at hb
        obtain ⟨rfl, hb⟩ := hb
        rcases List.append_eq_append_iff.mp hb with ⟨c, hc, hd⟩ | ⟨c, hc, hd⟩
        · -- a line break in what is not consumed
          rcases hreach with hle | ⟨i', k', hbehind, -⟩
          · have hpos : 0 < second''.length := List.length_pos_of_ne_nil hsecond'.ne_nil
            rw [heq, ha, hc] at hle
            simp only [List.flatten_append, List.flatten_cons, List.length_append] at hle
            omega
          · exact absurd hbehind (hnone i' k')
        · cases c with
          | nil => exact absurd hsecond' (h.head_behind hd.symm).1
          | cons v c =>
            rw [List.cons_append, List.cons.injEq] at hd
            have hv : v ∈ rest := by
              simp [hc]
            exact absurd (hrest v hv) (hd.1 ▸ hsecond'.not_blank)
    · cases a with
      | nil =>
        rw [List.nil_append, List.cons.injEq] at hb
        simp [ha, hb.1]
      | cons u a =>
        rw [List.cons_append, List.cons.injEq] at hb
        obtain ⟨rfl, -⟩ := hb
        simp [ha]
  · have hdrop : l.drop (before ++ first' :: (blanks' ++ [second'])).flatten.length
        = rest.flatten ++ behind := by
      have hl : l = (before ++ first' :: (blanks' ++ [second'])).flatten ++
          (rest.flatten ++ behind) := by
        simp [h.length_eq, heq]
      conv_lhs => rw [hl]
      rw [List.drop_left]
    rw [hdrop, (takeWhile_blanks behind hrest fun c tail hc => (h.behind c tail hc).1).1, heq]
    simp
    omega

end Consumed

/-- The three ways the loops go on: a code point that is no line break, a line break at which no
blank line begins, and a blank line. -/
theorem behindBlankLine_none {c : Nat} {rest : List Nat} (h : behindBlankLine (c :: rest) = none) :
    ∃ u l, c :: rest = u ++ l ∧ u.length = logicalLineBreakLength (c :: rest) - 1 + 1 ∧
      logicalChars (c :: rest) = u :: logicalChars l ∧
      (IsBreak u → ∀ blanks second behind, logicalChars l = blanks ++ second :: behind →
        (∀ b ∈ blanks, IsBlank b) → ¬ IsBreak second) := by
  by_cases hlen : logicalLineBreakLength (c :: rest) = 0
  · obtain ⟨hc, hunits⟩ := logicalChars_other hlen
    refine ⟨[c], rest, rfl, by rw [hlen]; rfl, hunits, ?_⟩
    intro hu
    obtain ⟨d, tail, hd, -, hbreak⟩ := hu.head
    rw [List.cons.injEq] at hd
    simp [← hd.1, hc] at hbreak
  · obtain ⟨hu, hunits⟩ := logicalChars_break hlen
    have hle := logicalLineBreakLength_le (c :: rest)
    refine ⟨_, _, (List.take_append_drop _ _).symm, ?_, hunits, ?_⟩
    · rw [List.length_take]
      omega
    · intro _ blanks second behind hl hblanks hsecond
      rw [hl] at hunits
      exact behindBlankLine_of_break hunits hu hblanks hsecond h

/-- **The loop ends behind the last blank line, or where it began when there is none.** -/
theorem paragraphStartFrom_spec (i start : Nat) : ∀ l : List Nat,
    ((∀ a k, ¬ BlankLine l a k) ∧ paragraphStartFrom 0 i start l = start) ∨
      ∃ s, BehindLast l s ∧ paragraphStartFrom 0 i start l = i + s
  | [] => by
    refine Or.inl ⟨fun a k h => ?_, rfl⟩
    obtain ⟨before, first, blanks, second, behind, heq, -⟩ := h
    exact absurd (congrArg List.length heq) (by simp [logicalChars])
  | c :: rest => by
    rw [paragraphStartFrom]
    split
    · next hnone =>
      obtain ⟨u, l, hul, hlen, hunits, hfirst⟩ := behindBlankLine_none hnone
      have hl : rest.drop (logicalLineBreakLength (c :: rest) - 1) = l := by
        have hdrop : (c :: rest).drop u.length = l := by rw [hul, List.drop_left]
        simp [← hdrop, hlen]
      rw [hul] at hunits
      rw [paragraphStartFrom_skip, hl, hul]
      have hshort : l.length < (c :: rest).length := by
        simp [hul]
        omega
      rcases paragraphStartFrom_spec (i + 1 + (logicalLineBreakLength (u ++ l) - 1)) start l with
        ⟨hno, heq⟩ | ⟨s, hs, heq⟩
      · refine Or.inl ⟨fun a k h => ?_, heq⟩
        obtain ⟨a', k', h', -⟩ := h.of_cons hunits hfirst
        exact hno a' k' h'
      · refine Or.inr ⟨u.length + s, ?_, ?_⟩
        · have hbehind := BehindLast.behind_append [u] (by simpa using hunits) ?_ hs
          · simpa using hbehind
          · intro a k h
            rw [List.flatten_singleton] at h ⊢
            obtain ⟨a', k', h', -, hk⟩ := h.of_cons hunits hfirst
            exact Or.inr ⟨a', k', h', hk⟩
        · rw [heq, hlen, hul]
          omega
    · next behind hsome =>
      obtain ⟨first, second, blanks, gap, hconsumed⟩ := behindBlankLine_consumed hsome
      have hl := hconsumed.length_eq
      have hunits := hconsumed.units
      have hblank := fun a k => hconsumed.blankLine_cases (i := a) (k := k)
      have hnone := hconsumed.behindLast_of_none
      set consumed := first :: (blanks ++ second :: gap)
      have hpos : 0 < consumed.flatten.length := by
        have hfirst : 0 < first.length := List.length_pos_of_ne_nil hconsumed.first.ne_nil
        simp [consumed]
        omega
      have hlen : (c :: rest).length - behind.length = consumed.flatten.length := by
        rw [hl, List.length_append]
        omega
      have hdrop : rest.drop (consumed.flatten.length - 1) = behind := by
        have h : (c :: rest).drop consumed.flatten.length = behind := by rw [hl, List.drop_left]
        rw [← h, show consumed.flatten.length = consumed.flatten.length - 1 + 1 by omega,
          List.drop_succ_cons]
        rfl
      have hshort : behind.length < (c :: rest).length := by
        rw [hl, List.length_append]
        omega
      dsimp only
      rw [paragraphStartFrom_skip, hlen, hdrop]
      rcases paragraphStartFrom_spec (i + 1 + (consumed.flatten.length - 1))
        (i + consumed.flatten.length) behind with ⟨hno, heq⟩ | ⟨s, hs, heq⟩
      · exact Or.inr ⟨consumed.flatten.length, hnone hno, heq⟩
      · refine Or.inr ⟨consumed.flatten.length + s, ?_, ?_⟩
        · rw [hl]
          refine BehindLast.behind_append consumed (hl ▸ hunits) ?_ hs
          intro a k h
          rcases hblank a k (hl ▸ h) with h | ⟨a', k', h', -, hk⟩
          · exact Or.inl h
          · exact Or.inr ⟨a', k', h', hk⟩
        · rw [heq]
          omega
termination_by l => l.length

theorem findCurrentParagraphStart_spec (codepoints : List Nat) :
    ParagraphStart codepoints (findCurrentParagraphStart codepoints) := by
  rw [findCurrentParagraphStart]
  rcases paragraphStartFrom_spec 0 0 codepoints with ⟨hno, heq⟩ | ⟨s, ⟨i, k, hik, hlast, rfl⟩, heq⟩
  · rw [heq]
    exact ParagraphStart.text hno
  · simpa [heq] using ParagraphStart.blankLine hik hlast

/-! ## The paragraph at the front -/

/-- Where the first paragraph ends: at the first blank line, or with the text. -/
inductive ParagraphEnd (codepoints : List Nat) : Nat → Prop where
  | text : (∀ i k, ¬ BlankLine codepoints i k) → ParagraphEnd codepoints codepoints.length
  | blankLine {i k : Nat} : BlankLine codepoints i k →
      (∀ i' k', BlankLine codepoints i' k' → i ≤ i') → ParagraphEnd codepoints i

theorem paragraphBoundaryFrom_skip : ∀ (skip i : Nat) (l : List Nat), skip ≤ l.length →
    paragraphBoundaryFrom skip i l = paragraphBoundaryFrom 0 (i + skip) (l.drop skip)
  | 0, _, _, _ => rfl
  | skip + 1, i, [], h => absurd h (by simp)
  | skip + 1, i, _ :: rest, h => by
    rw [paragraphBoundaryFrom,
      paragraphBoundaryFrom_skip skip _ _ (Nat.le_of_succ_le_succ h), List.drop_succ_cons]
    congr 1
    omega

/-- **The loop ends at the first blank line, or with the text.** -/
theorem paragraphBoundaryFrom_spec (i : Nat) : ∀ l : List Nat,
    ∃ e, ParagraphEnd l e ∧ paragraphBoundaryFrom 0 i l = i + e
  | [] => by
    refine ⟨0, ParagraphEnd.text fun a k h => ?_, rfl⟩
    obtain ⟨before, first, blanks, second, behind, heq, -⟩ := h
    exact absurd (congrArg List.length heq) (by simp [logicalChars])
  | c :: rest => by
    rw [paragraphBoundaryFrom]
    split
    · next hnone =>
      obtain ⟨u, l, hul, hlen, hunits, hfirst⟩ := behindBlankLine_none hnone
      have hl : rest.drop (logicalLineBreakLength (c :: rest) - 1) = l := by
        have hdrop : (c :: rest).drop u.length = l := by rw [hul, List.drop_left]
        simp [← hdrop, hlen]
      have hle := logicalLineBreakLength_le (c :: rest)
      rw [hul] at hunits
      rw [List.length_cons] at hle
      rw [paragraphBoundaryFrom_skip _ _ _ (by omega), hl, hul]
      have hshort : l.length < (c :: rest).length := by
        simp [hul]
        omega
      obtain ⟨e, he, heq⟩ :=
        paragraphBoundaryFrom_spec (i + 1 + (logicalLineBreakLength (u ++ l) - 1)) l
      refine ⟨u.length + e, ?_, ?_⟩
      · cases he with
        | text hno =>
          rw [← List.length_append]
          refine ParagraphEnd.text fun a k h => ?_
          obtain ⟨a', k', h', -⟩ := h.of_cons hunits hfirst
          exact hno a' k' h'
        | blankLine hblank hmin =>
          have hshift := BlankLine.behind_append [u] (by simpa using hunits) hblank
          rw [List.flatten_singleton] at hshift
          refine ParagraphEnd.blankLine hshift fun a k h => ?_
          obtain ⟨a', k', h', rfl, -⟩ := h.of_cons hunits hfirst
          have hle := hmin a' k' h'
          omega
      · rw [heq, hlen, hul]
        omega
    · next behind hsome =>
      obtain ⟨first, second, blanks, gap, hconsumed⟩ := behindBlankLine_consumed hsome
      refine ⟨0, ParagraphEnd.blankLine ⟨[], first, blanks, second, gap ++ logicalChars behind,
        ?_, hconsumed.first, hconsumed.blanks, hconsumed.second, rfl, rfl⟩
        fun a k _ => Nat.zero_le a, rfl⟩
      simp [hconsumed.units]
termination_by l => l.length

theorem findFirstParagraphBoundary_spec (codepoints : List Nat) :
    ParagraphEnd codepoints (findFirstParagraphBoundary codepoints) := by
  obtain ⟨e, he, heq⟩ := paragraphBoundaryFrom_spec 0 codepoints
  simpa [findFirstParagraphBoundary, heq] using he

variable {codepoints : List Nat}

theorem ParagraphEnd.le_length {e : Nat} (h : ParagraphEnd codepoints e) :
    e ≤ codepoints.length := by
  cases h with
  | text => exact Nat.le_refl _
  | blankLine hblank =>
    have hlt := hblank.lt
    rw [flatten_logicalChars] at hlt
    omega

/-! ## The first sentence -/

/-- Where the first sentence ends: behind its terminator and the terminators and closers that
follow directly, or with the text. -/
inductive SentenceEnd (codepoints : List Nat) : Nat → Prop where
  | text : (∀ c ∈ codepoints, isSentenceTerminator c = false) →
      SentenceEnd codepoints codepoints.length
  | terminated {body ending rest : List Nat} {c : Nat} :
      codepoints = body ++ c :: (ending ++ rest) →
      (∀ d ∈ body, isSentenceTerminator d = false) → isSentenceTerminator c = true →
      (∀ d ∈ ending, isSentenceTerminator d = true ∨ isSentenceTrailingCloser d = true) →
      (∀ d tail, rest = d :: tail →
        isSentenceTerminator d = false ∧ isSentenceTrailingCloser d = false) →
      SentenceEnd codepoints (body.length + 1 + ending.length)

theorem SentenceEnd.le_length {e : Nat} (h : SentenceEnd codepoints e) :
    e ≤ codepoints.length := by
  cases h with
  | text => exact Nat.le_refl _
  | terminated heq =>
    rw [heq]
    simp
    omega

theorem findFirstSentenceEnd_spec {limit : Nat} (hlimit : limit ≤ codepoints.length) :
    SentenceEnd (codepoints.take limit) (findFirstSentenceEnd codepoints limit) := by
  have hlen : (codepoints.take limit).length = limit := by rw [List.length_take]; omega
  unfold findFirstSentenceEnd
  dsimp only
  rw [hlen]
  set front := codepoints.take limit
  set before := front.takeWhile fun c => !isSentenceTerminator c with hbefore
  have hfront : before ++ front.dropWhile (fun c => !isSentenceTerminator c) = front :=
    List.takeWhile_append_dropWhile
  have hdrop : front.drop before.length = front.dropWhile fun c => !isSentenceTerminator c := by
    conv_lhs => rw [← hfront]
    simp
  have hbody : ∀ d ∈ before, isSentenceTerminator d = false := by
    intro d hd
    have h := List.mem_takeWhile_imp hd
    simpa using h
  split
  · next hall =>
    have hnil : front.dropWhile (fun c => !isSentenceTerminator c) = [] := by
      have h := congrArg List.length hfront
      rw [List.length_append] at h
      exact List.length_eq_zero_iff.mp (by omega)
    rw [hnil, List.append_nil] at hfront
    rw [← hlen]
    exact SentenceEnd.text fun c hc => hbody c (hfront ▸ hc)
  · next hsome =>
    rw [hdrop]
    cases hrest : front.dropWhile (fun c => !isSentenceTerminator c) with
    | nil =>
      rw [hrest, List.append_nil] at hfront
      rw [hfront] at hsome
      exact absurd hlen hsome
    | cons c tail =>
      have hc : isSentenceTerminator c = true := by
        have h := List.head?_dropWhile_not (fun c => !isSentenceTerminator c) front
        rw [hrest] at h
        simpa using h
      rw [List.takeWhile_cons_of_pos (by simp [hc]), List.length_cons]
      have hstop := List.head?_dropWhile_not
        (fun c => isSentenceTerminator c || isSentenceTrailingCloser c) tail
      have hsplit := List.takeWhile_append_dropWhile
        (p := fun c => isSentenceTerminator c || isSentenceTrailingCloser c) (l := tail)
      set ending := tail.takeWhile fun c => isSentenceTerminator c || isSentenceTrailingCloser c
        with hending
      rw [Nat.add_comm ending.length 1, ← Nat.add_assoc]
      have heq : front = before ++ c :: (ending ++ tail.dropWhile fun c =>
          isSentenceTerminator c || isSentenceTrailingCloser c) := by
        rw [hsplit, ← hrest, hfront]
      refine SentenceEnd.terminated heq hbody hc ?_ ?_
      · intro d hd
        have h := List.mem_takeWhile_imp hd
        simpa using h
      · intro d t hd
        rw [hd] at hstop
        simpa using hstop

/-- Where the context to the right ends: at once when only blanks come before a line break, else
with the first sentence of the first paragraph. -/
inductive ContextEnd (codepoints : List Nat) : Nat → Prop where
  | lineBreak {blanks behind : List (List Nat)} {u : List Nat} :
      logicalChars codepoints = blanks ++ u :: behind → (∀ b ∈ blanks, IsBlank b) → IsBreak u →
      ContextEnd codepoints 0
  | sentence {paragraph e : Nat} :
      (∀ blanks u behind, logicalChars codepoints = blanks ++ u :: behind →
        (∀ b ∈ blanks, IsBlank b) → ¬ IsBreak u) →
      ParagraphEnd codepoints paragraph → SentenceEnd (codepoints.take paragraph) e →
      ContextEnd codepoints e

/-- The length that `SelectRight` takes, before the budget. -/
def selectedEnd (codepoints : List Nat) : Nat :=
  if logicalLineBreakLength (codepoints.dropWhile isHorizontalBlankSpace) ≠ 0 then 0
  else findFirstSentenceEnd codepoints (findFirstParagraphBoundary codepoints)

theorem selectedEnd_spec (codepoints : List Nat) :
    ContextEnd codepoints (selectedEnd codepoints) ∧
      selectedEnd codepoints ≤ codepoints.length := by
  obtain ⟨blanks, hblanks, -, hunits⟩ := logicalChars_blanks codepoints
  rw [selectedEnd]
  split
  · next hbreak =>
    obtain ⟨hu, hrest⟩ := logicalChars_break hbreak
    exact ⟨ContextEnd.lineBreak (hunits.trans (by rw [hrest])) hblanks hu, Nat.zero_le _⟩
  · next hbreak =>
    have hparagraph := findFirstParagraphBoundary_spec codepoints
    have hend := findFirstSentenceEnd_spec hparagraph.le_length
    refine ⟨ContextEnd.sentence ?_ hparagraph hend, ?_⟩
    · intro blanks' u behind hl hblanks' hu
      refine hbreak ?_
      have hsplit : codepoints = blanks'.flatten ++ (u :: behind).flatten := by
        rw [← flatten_logicalChars codepoints, hl, List.flatten_append]
      have htail : ∀ c rest, (u :: behind).flatten = c :: rest →
          isHorizontalBlankSpace c = false := by
        intro c rest hc
        obtain ⟨d, tail, rfl, hd, -⟩ := hu.head
        rw [List.flatten_cons, List.cons_append, List.cons.injEq] at hc
        exact hc.1 ▸ hd
      rw [hsplit, (takeWhile_blanks _ hblanks' htail).2,
        logicalLineBreakLength_of_break (logicalChars_append blanks' hl) hu]
      exact fun h0 => hu.ne_nil (List.length_eq_zero_iff.mp h0)
    · have hle := hend.le_length
      simp at hle
      omega

end Mozkey.Zenz.ContextSelector
