import Mozkey.Zenz.ContextSelector
import Mathlib.Data.List.Induction

/-!
# Blank lines

What `session/zenz_context_selector.cc` takes for a blank line. The text is taken in logical
characters, of which CRLF is one. A blank line is two line breaks with nothing but horizontal
blanks between them.
-/

namespace Mozkey.Zenz.ContextSelector

open Infra Base

/-! ## Logical characters -/

/-- CRLF is one logical character, every other code point is one by itself. -/
def logicalChars : List Nat → List (List Nat)
  | [] => []
  | [c] => [[c]]
  | c :: d :: rest =>
    if c = codepoint '\r' ∧ d = codepoint '\n' then [c, d] :: logicalChars rest
    else [c] :: logicalChars (d :: rest)

/-- A logical line break. -/
def IsBreak (u : List Nat) : Prop :=
  u = [codepoint '\r'] ∨ u = [codepoint '\n'] ∨ u = [codepoint '\r', codepoint '\n']

/-- A space, a tab or an ideographic space. -/
def IsBlank (u : List Nat) : Prop := ∃ c, u = [c] ∧ isHorizontalBlankSpace c = true

variable {u : List Nat} {units : List (List Nat)}

theorem IsBreak.not_blank (h : IsBreak u) : ¬ IsBlank u := by
  rintro ⟨c, rfl, hc⟩
  rcases h with h | h | h
  · rw [List.singleton_inj.mp h] at hc
    exact absurd hc (by decide)
  · rw [List.singleton_inj.mp h] at hc
    exact absurd hc (by decide)
  · simp at h

theorem IsBreak.ne_nil (h : IsBreak u) : u ≠ [] := by
  rcases h with rfl | rfl | rfl <;> simp

/-- A line break does not begin with a horizontal blank. -/
theorem IsBreak.head (h : IsBreak u) :
    ∃ c tail, u = c :: tail ∧ isHorizontalBlankSpace c = false ∧ isLineBreak c = true := by
  rcases h with rfl | rfl | rfl
  · exact ⟨_, [], rfl, by decide, by decide⟩
  · exact ⟨_, [], rfl, by decide, by decide⟩
  · exact ⟨_, _, rfl, by decide, by decide⟩

/-- At the front is a line break, or a code point that is none. -/
theorem logicalChars_break {l : List Nat} (h : logicalLineBreakLength l ≠ 0) :
    IsBreak (l.take (logicalLineBreakLength l)) ∧
      logicalChars l =
        l.take (logicalLineBreakLength l) :: logicalChars (l.drop (logicalLineBreakLength l)) := by
  cases l with
  | nil => exact absurd rfl h
  | cons c rest =>
    rw [logicalLineBreakLength] at h ⊢
    split at h
    · next hr =>
      subst hr
      cases rest with
      | nil => exact ⟨Or.inl rfl, rfl⟩
      | cons d rest =>
        simp only [if_true, List.head?_cons, Option.some.injEq]
        split
        · next hn =>
          subst hn
          exact ⟨Or.inr (Or.inr rfl), by rw [logicalChars, if_pos ⟨rfl, rfl⟩]; rfl⟩
        · next hn =>
          refine ⟨Or.inl rfl, ?_⟩
          rw [logicalChars, if_neg fun hcd => hn hcd.2]
          rfl
    · next hr =>
      split at h
      · next hn =>
        subst hn
        rw [if_neg hr, if_pos rfl]
        refine ⟨Or.inr (Or.inl rfl), ?_⟩
        cases rest with
        | nil => rfl
        | cons d rest =>
          rw [logicalChars, if_neg fun hcd => hr hcd.1]
          rfl
      · exact absurd rfl h

theorem logicalChars_other {c : Nat} {rest : List Nat}
    (h : logicalLineBreakLength (c :: rest) = 0) :
    isLineBreak c = false ∧ logicalChars (c :: rest) = [c] :: logicalChars rest := by
  rw [logicalLineBreakLength] at h
  split at h
  · split at h <;> simp at h
  · next hr =>
    split at h
    · simp at h
    · next hn =>
      refine ⟨by simp [isLineBreak, hr, hn], ?_⟩
      cases rest with
      | nil => rfl
      | cons d rest => rw [logicalChars, if_neg fun hcd => hr hcd.1]

theorem flatten_logicalChars : ∀ l : List Nat, (logicalChars l).flatten = l
  | [] => rfl
  | [_] => rfl
  | c :: d :: rest => by
    rw [logicalChars]
    split
    · simp [flatten_logicalChars rest]
    · simp [flatten_logicalChars (d :: rest)]

/-- Behind a logical character the text is read anew. -/
theorem logicalChars_tail {l : List Nat} {us : List (List Nat)} (h : logicalChars l = u :: us) :
    logicalChars us.flatten = us := by
  cases l with
  | nil => cases h
  | cons c rest =>
    cases rest with
    | nil =>
      rw [logicalChars, List.cons.injEq] at h
      rw [← h.2]
      rfl
    | cons d rest =>
      rw [logicalChars] at h
      split at h <;>
        · rw [List.cons.injEq] at h
          rw [← h.2, flatten_logicalChars]

theorem logicalChars_append : ∀ (front : List (List Nat)) {behind : List (List Nat)} {l : List Nat},
    logicalChars l = front ++ behind → logicalChars behind.flatten = behind
  | [], behind, l, h => by
    rw [List.nil_append] at h
    rw [← h, flatten_logicalChars]
  | _ :: front, _, _, h => logicalChars_append front (logicalChars_tail h)

/-- Horizontal blanks at the front are logical characters. -/
theorem logicalChars_blanks : ∀ (l : List Nat), ∃ blanks : List (List Nat),
    (∀ u ∈ blanks, IsBlank u) ∧ blanks.flatten = l.takeWhile isHorizontalBlankSpace ∧
      logicalChars l = blanks ++ logicalChars (l.dropWhile isHorizontalBlankSpace)
  | [] => ⟨[], by simp, rfl, rfl⟩
  | c :: rest => by
    by_cases hc : isHorizontalBlankSpace c = true
    · obtain ⟨blanks, hblanks, hflat, hrest⟩ := logicalChars_blanks rest
      have hlen : logicalLineBreakLength (c :: rest) = 0 := by
        rw [logicalLineBreakLength, if_neg, if_neg]
        · rintro rfl
          exact absurd hc (by decide)
        · rintro rfl
          exact absurd hc (by decide)
      refine ⟨[c] :: blanks, ?_, ?_, ?_⟩
      · intro u hu
        rcases List.mem_cons.mp hu with rfl | hu
        · exact ⟨c, rfl, hc⟩
        · exact hblanks u hu
      · simp [hflat, List.takeWhile_cons_of_pos hc]
      · simp [(logicalChars_other hlen).2, hrest, List.dropWhile_cons_of_pos hc]
    · refine ⟨[], by simp, ?_, ?_⟩
      · simp [List.takeWhile_cons_of_neg hc]
      · simp [List.dropWhile_cons_of_neg hc]

/-- Blanks and line breaks at the front are logical characters. -/
theorem logicalChars_gap : ∀ l : List Nat, ∃ gap : List (List Nat),
    (∀ u ∈ gap, IsBlank u ∨ IsBreak u) ∧ logicalChars l = gap ++
      logicalChars (l.dropWhile fun c => isHorizontalBlankSpace c || isLineBreak c)
  | [] => ⟨[], by simp, rfl⟩
  | c :: rest => by
    by_cases hlen : logicalLineBreakLength (c :: rest) = 0
    · obtain ⟨hbreak, hunits⟩ := logicalChars_other hlen
      by_cases hc : isHorizontalBlankSpace c = true
      · obtain ⟨gap, hgap, hrest⟩ := logicalChars_gap rest
        refine ⟨[c] :: gap, ?_, ?_⟩
        · intro u hu
          rcases List.mem_cons.mp hu with rfl | hu
          · exact Or.inl ⟨c, rfl, hc⟩
          · exact hgap u hu
        · rw [hunits, hrest, List.dropWhile_cons_of_pos (by simp [hc])]
          rfl
      · exact ⟨[], by simp, by rw [List.dropWhile_cons_of_neg (by simp [hc, hbreak])]; rfl⟩
    · obtain ⟨hbreak, hunits⟩ := logicalChars_break hlen
      set n := logicalLineBreakLength (c :: rest)
      obtain ⟨gap, hgap, hrest⟩ := logicalChars_gap ((c :: rest).drop n)
      refine ⟨(c :: rest).take n :: gap, ?_, ?_⟩
      · intro u hu
        rcases List.mem_cons.mp hu with rfl | hu
        · exact Or.inr hbreak
        · exact hgap u hu
      · have htake : ∀ d ∈ (c :: rest).take n, (isHorizontalBlankSpace d || isLineBreak d) = true :=
          fun d hd => by simp [logicalLineBreakLength_take _ d hd]
        rw [hunits, hrest, List.cons_append]
        congr 3
        conv_rhs => rw [← List.take_append_drop n (c :: rest)]
        rw [List.dropWhile_append_of_pos htake]
termination_by l => l.length
decreasing_by
  · simp
  · simp
    omega

/-! ## Blank lines -/

/-- From position `start` to position `stop` are two line breaks and nothing but horizontal blanks
between them. -/
def HasBlankLine (units : List (List Nat)) (start stop : Nat) : Prop :=
  ∃ before first blanks second behind, units = before ++ first :: (blanks ++ second :: behind) ∧
    IsBreak first ∧ (∀ u ∈ blanks, IsBlank u) ∧ IsBreak second ∧ start = before.flatten.length ∧
    stop = (before ++ first :: (blanks ++ [second])).flatten.length

/-- A blank line of a text. -/
def BlankLine (codepoints : List Nat) (start stop : Nat) : Prop :=
  HasBlankLine (logicalChars codepoints) start stop

theorem HasBlankLine.behind {i k : Nat} (h : HasBlankLine units i k) (front : List (List Nat)) :
    HasBlankLine (front ++ units) (front.flatten.length + i) (front.flatten.length + k) := by
  obtain ⟨before, first, blanks, second, behind, rfl, hfirst, hblanks, hsecond, rfl, rfl⟩ := h
  refine ⟨front ++ before, first, blanks, second, behind, by simp, hfirst, hblanks, hsecond, ?_, ?_⟩
  · simp
  · simp

/-- A blank line begins with the first logical character, or is one of the rest. -/
theorem HasBlankLine.cases_cons {i k : Nat} (h : HasBlankLine (u :: units) i k) :
    (i = 0 ∧ IsBreak u ∧ ∃ blanks second behind, units = blanks ++ second :: behind ∧
      (∀ b ∈ blanks, IsBlank b) ∧ IsBreak second) ∨
    ∃ i' k', HasBlankLine units i' k' ∧ i = u.length + i' ∧ k = u.length + k' := by
  obtain ⟨before, first, blanks, second, behind, heq, hfirst, hblanks, hsecond, rfl, rfl⟩ := h
  cases before with
  | nil =>
    rw [List.nil_append, List.cons.injEq] at heq
    obtain ⟨rfl, rfl⟩ := heq
    exact Or.inl ⟨rfl, hfirst, blanks, second, behind, rfl, hblanks, hsecond⟩
  | cons b before =>
    rw [List.cons_append, List.cons.injEq] at heq
    obtain ⟨rfl, rfl⟩ := heq
    exact Or.inr ⟨_, _, ⟨before, first, blanks, second, behind, rfl, hfirst, hblanks, hsecond,
      rfl, rfl⟩, by simp, by simp⟩

theorem HasBlankLine.lt {i k : Nat} (h : HasBlankLine units i k) :
    i < k ∧ k ≤ units.flatten.length := by
  obtain ⟨before, first, blanks, second, behind, rfl, hfirst, -, -, rfl, rfl⟩ := h
  have hpos : 0 < first.length := List.length_pos_of_ne_nil hfirst.ne_nil
  simp
  omega

/-- Blanks up to a line break are the blanks the loops skip. -/
theorem takeWhile_blanks : ∀ {blanks : List (List Nat)} (tail : List Nat),
    (∀ b ∈ blanks, IsBlank b) → (∀ c rest, tail = c :: rest → isHorizontalBlankSpace c = false) →
    (blanks.flatten ++ tail).takeWhile isHorizontalBlankSpace = blanks.flatten ∧
      (blanks.flatten ++ tail).dropWhile isHorizontalBlankSpace = tail
  | [], tail, _, htail => by
    cases tail with
    | nil => exact ⟨rfl, rfl⟩
    | cons c rest =>
      have hc := htail c rest rfl
      simp [hc]
  | b :: blanks, tail, hblanks, htail => by
    obtain ⟨c, rfl, hc⟩ := hblanks b List.mem_cons_self
    obtain ⟨htake, hdrop⟩ :=
      takeWhile_blanks tail (List.forall_mem_cons.mp hblanks).2 htail
    rw [List.flatten_cons, List.append_assoc, List.singleton_append]
    rw [List.takeWhile_cons_of_pos hc, List.dropWhile_cons_of_pos hc, htake, hdrop]
    exact ⟨rfl, rfl⟩

theorem logicalLineBreakLength_of_break {us : List (List Nat)} {l : List Nat}
    (h : logicalChars l = u :: us) (hu : IsBreak u) : logicalLineBreakLength l = u.length := by
  cases l with
  | nil => cases h
  | cons c rest =>
    by_cases hlen : logicalLineBreakLength (c :: rest) = 0
    · obtain ⟨hc, hunits⟩ := logicalChars_other hlen
      rw [hunits, List.cons.injEq] at h
      obtain ⟨d, tail, hd, -, hbreak⟩ := hu.head
      rw [← h.1, List.cons.injEq] at hd
      simp [← hd.1, hc] at hbreak
    · obtain ⟨-, hunits⟩ := logicalChars_break hlen
      rw [hunits, List.cons.injEq] at h
      rw [← h.1, List.length_take, Nat.min_eq_left (logicalLineBreakLength_le _)]

/-- The search for a second line break finds the one there is. -/
theorem behindBlankLine_of_break {first second : List Nat} {blanks behind : List (List Nat)}
    {l : List Nat} (h : logicalChars l = first :: (blanks ++ second :: behind))
    (hfirst : IsBreak first) (hblanks : ∀ b ∈ blanks, IsBlank b) (hsecond : IsBreak second) :
    behindBlankLine l ≠ none := by
  have hlen := logicalLineBreakLength_of_break h hfirst
  have hl : l = first ++ (blanks.flatten ++ (second :: behind).flatten) := by
    rw [← flatten_logicalChars l, h]
    simp
  have htail : ∀ c rest, (second :: behind).flatten = c :: rest →
      isHorizontalBlankSpace c = false := by
    intro c rest hc
    obtain ⟨d, tail, rfl, hd, -⟩ := hsecond.head
    rw [List.flatten_cons, List.cons_append, List.cons.injEq] at hc
    exact hc.1 ▸ hd
  have hunits : logicalChars (second :: behind).flatten = second :: behind :=
    logicalChars_append (first :: blanks) (h.trans rfl)
  have hfirstPos : first.length ≠ 0 := fun h0 => hfirst.ne_nil (List.length_eq_zero_iff.mp h0)
  have hsecondPos : second.length ≠ 0 := fun h0 => hsecond.ne_nil (List.length_eq_zero_iff.mp h0)
  rw [behindBlankLine, hlen, if_neg hfirstPos]
  dsimp only
  have hnext : (l.drop first.length).dropWhile isHorizontalBlankSpace
      = (second :: behind).flatten := by
    rw [hl, List.drop_left, (takeWhile_blanks _ hblanks htail).2]
  rw [hnext, logicalLineBreakLength_of_break hunits hsecond, if_neg hsecondPos]
  exact Option.some_ne_none _

/-- What the loop consumes at a blank line, and what it goes on with. -/
structure Consumed (l behind : List Nat) (first second : List Nat) (blanks gap : List (List Nat)) :
    Prop where
  units : logicalChars l = first :: (blanks ++ second :: gap) ++ logicalChars behind
  first : IsBreak first
  blanks : ∀ b ∈ blanks, IsBlank b
  second : IsBreak second
  gap : ∀ u ∈ gap, IsBlank u ∨ IsBreak u
  behind : ∀ c rest, behind = c :: rest → isHorizontalBlankSpace c = false ∧ isLineBreak c = false

theorem behindBlankLine_consumed {l behind : List Nat} (h : behindBlankLine l = some behind) :
    ∃ first second blanks gap, Consumed l behind first second blanks gap := by
  rw [behindBlankLine] at h
  split at h
  · cases h
  · next hn =>
    dsimp only at h
    split at h
    · cases h
    · next hm =>
      rw [Option.some.injEq] at h
      obtain ⟨hfirst, hunits⟩ := logicalChars_break hn
      obtain ⟨blanks, hblanks, -, hrest⟩ :=
        logicalChars_blanks (l.drop (logicalLineBreakLength l))
      obtain ⟨hsecond, hnext⟩ := logicalChars_break hm
      obtain ⟨gap, hgap, htail⟩ := logicalChars_gap
        (((l.drop (logicalLineBreakLength l)).dropWhile isHorizontalBlankSpace).drop
          (logicalLineBreakLength
            ((l.drop (logicalLineBreakLength l)).dropWhile isHorizontalBlankSpace)))
      rw [h] at htail
      refine ⟨_, _, blanks, gap, ?_, hfirst, hblanks, hsecond, hgap, ?_⟩
      · simp [hunits, hrest, hnext, htail]
      · intro c rest hc
        have hstop := List.head?_dropWhile_not
          (fun c => isHorizontalBlankSpace c || isLineBreak c)
          (((l.drop (logicalLineBreakLength l)).dropWhile isHorizontalBlankSpace).drop
            (logicalLineBreakLength
              ((l.drop (logicalLineBreakLength l)).dropWhile isHorizontalBlankSpace)))
        rw [h, hc] at hstop
        simpa using hstop

theorem Consumed.length_eq {l behind first second : List Nat} {blanks gap : List (List Nat)}
    (h : Consumed l behind first second blanks gap) :
    l = (first :: (blanks ++ second :: gap)).flatten ++ behind := by
  rw [← flatten_logicalChars l, h.units, List.flatten_append, flatten_logicalChars]

/-- Among blanks and line breaks, of which there are two, a last blank line is followed by blanks
only. -/
theorem exists_last_blankLine {first second : List Nat} {blanks : List (List Nat)}
    (hfirst : IsBreak first) (hblanks : ∀ b ∈ blanks, IsBlank b) (hsecond : IsBreak second)
    (gap : List (List Nat)) : (∀ u ∈ gap, IsBlank u ∨ IsBreak u) →
    ∃ before first' blanks' second' behind, first :: (blanks ++ second :: gap) =
      before ++ first' :: (blanks' ++ second' :: behind) ∧ IsBreak first' ∧
      (∀ b ∈ blanks', IsBlank b) ∧ IsBreak second' ∧ ∀ b ∈ behind, IsBlank b := by
  induction gap using List.reverseRecOn with
  | nil =>
    intro _
    exact ⟨[], first, blanks, second, [], rfl, hfirst, hblanks, hsecond, by simp⟩
  | append_singleton gap u ih =>
    intro hgap
    obtain ⟨before, first', blanks', second', behind, heq, hfirst', hblanks', hsecond', hbehind⟩ :=
      ih fun v hv => hgap v (List.mem_append_left _ hv)
    have hmore : first :: (blanks ++ second :: (gap ++ [u]))
        = before ++ first' :: (blanks' ++ second' :: (behind ++ [u])) := by
      have h := congrArg (· ++ [u]) heq
      simpa using h
    rcases hgap u (by simp) with hu | hu
    · refine ⟨before, first', blanks', second', behind ++ [u], hmore, hfirst', hblanks', hsecond',
        ?_⟩
      intro b hb
      rcases List.mem_append.mp hb with hb | hb
      · exact hbehind b hb
      · exact List.mem_singleton.mp hb ▸ hu
    · refine ⟨before ++ first' :: blanks', second', behind, u, [], ?_, hsecond', hbehind, hu,
        by simp⟩
      simp [hmore]

namespace Consumed

variable {l behind first second : List Nat} {blanks gap : List (List Nat)}

/-- The text goes on with a character that is neither blank nor a line break. -/
theorem head_behind (h : Consumed l behind first second blanks gap) {u : List Nat}
    {us : List (List Nat)} (hu : logicalChars behind = u :: us) : ¬ IsBreak u ∧ ¬ IsBlank u := by
  have hflat : behind = u ++ us.flatten := by
    rw [← flatten_logicalChars behind, hu, List.flatten_cons]
  constructor
  · intro hb
    obtain ⟨c, tail, rfl, -, hc⟩ := hb.head
    simp [(h.behind c _ hflat).2] at hc
  · rintro ⟨c, rfl, hc⟩
    simp [(h.behind c _ hflat).1] at hc

/-- No blank line reaches beyond what is consumed. -/
theorem blankLine_cases (h : Consumed l behind first second blanks gap) {i k : Nat}
    (hblank : BlankLine l i k) :
    k ≤ (first :: (blanks ++ second :: gap)).flatten.length ∨ ∃ i' k', BlankLine behind i' k' ∧
      i = (first :: (blanks ++ second :: gap)).flatten.length + i' ∧
      k = (first :: (blanks ++ second :: gap)).flatten.length + k' := by
  obtain ⟨before, first', blanks', second', rest, heq, hfirst, hblanks, hsecond, rfl, rfl⟩ := hblank
  have hsplit : (first :: (blanks ++ second :: gap)) ++ logicalChars behind
      = (before ++ first' :: blanks') ++ second' :: rest := by
    rw [← h.units, heq]
    simp
  set consumed := first :: (blanks ++ second :: gap)
  rcases List.append_eq_append_iff.mp hsplit with ⟨a, ha, hb⟩ | ⟨a, ha, hb⟩
  · -- the second line break is behind what is consumed
    cases a with
    | nil => exact absurd hsecond (h.head_behind (hb.trans (List.nil_append _))).1
    | cons u a =>
      have hu := h.head_behind hb
      rcases List.append_eq_append_iff.mp ha with ⟨b, hbefore, hmid⟩ | ⟨b, hbefore, hmid⟩
      · cases b with
        | nil =>
          rw [List.nil_append, List.cons.injEq] at hmid
          exact absurd (hmid.1 ▸ hfirst) hu.1
        | cons v b =>
          rw [List.cons_append, List.cons.injEq] at hmid
          have hmem : u ∈ blanks' := by
            simp [hmid.2]
          exact absurd (hblanks u hmem) hu.2
      · -- the blank line begins behind it as well
        refine Or.inr ⟨b.flatten.length, (b ++ first' :: (blanks' ++ [second'])).flatten.length,
          ⟨b, first', blanks', second', rest, ?_, hfirst, hblanks, hsecond, rfl, rfl⟩, ?_, ?_⟩
        · simp [hb, hmid]
        · simp [hbefore]
        · simp [hbefore]
  · cases a with
    | nil =>
      exact absurd hsecond (h.head_behind hb.symm).1
    | cons u a =>
      rw [List.cons_append, List.cons.injEq] at hb
      obtain ⟨rfl, -⟩ := hb
      refine Or.inl ?_
      simp [ha]

end Consumed

end Mozkey.Zenz.ContextSelector
