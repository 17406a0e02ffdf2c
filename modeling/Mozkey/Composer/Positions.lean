import Mozkey.Composer.TypingTotal

/-!
# Positions in other character forms

`composer/composition.cc`, and the substrings of `composer/composer.cc`. A position in the
displayed text is converted to one in another form by way of the chunk in which it is. The text
that is cut there is built from the chunks with the last one fixed.

* `transliterated_as_a_whole_iff` — positions are converted in their order, and the whole text is
  cut out as a whole if and only if it is not longer than the visible chunks are displayed
-/

namespace Mozkey.Composer

open Infra Base

namespace CharChunk

/-- What `AppendFixedResult` appends. -/
def fixedResult (forms : CharacterForms) (c : CharChunk) (t12r : Transliterator) : Bytes :=
  let converted :=
    if !c.ambiguous.isEmpty then c.conversion ++ c.ambiguous else c.conversion ++ c.pending
  c.transliterate forms t12r (deleteSpecialKeys c.raw) (deleteSpecialKeys converted)

/-- What `AppendTrimedResult` appends. -/
def trimedResult (forms : CharacterForms) (c : CharChunk) (t12r : Transliterator) : Bytes :=
  let converted :=
    if c.pending.isEmpty then c.conversion
    else
      match (c.table.table.lookUpPrefix c.pending).entry with
      | some entry =>
        if entry.input = entry.result then c.conversion ++ entry.result else c.conversion
      | none => c.conversion
  c.transliterate forms t12r (deleteSpecialKeys c.raw) (deleteSpecialKeys converted)

end CharChunk

inductive TrimMode where
  | trim
  | asis
  | fix
  deriving DecidableEq, Repr

namespace Composition

/-- The position inside of a chunk. -/
def convertInner (inner lengthFrom lengthTo : Nat) : Nat :=
  if inner = 0 then 0
  else if inner = lengthFrom then lengthTo
  else if lengthTo < inner then lengthTo
  else inner

/-- None when the `CHECK` fails. -/
def convertPosition (forms : CharacterForms) (comp : Composition) (positionFrom : Nat)
    (t12rFrom t12rTo : Transliterator) : Option Nat :=
  if t12rFrom = t12rTo then some positionFrom
  else
    match getChunkAt forms comp.chunks positionFrom t12rFrom with
    | none => some 0
    | some found =>
      let lengthFrom := found.chunk.getLength forms t12rFrom
      if lengthFrom < found.innerPosition then none
      else
        some (lengthOf forms t12rTo found.left
          + convertInner found.innerPosition lengthFrom (found.chunk.getLength forms t12rTo))

def getStringWithModes (forms : CharacterForms) (comp : Composition) (t12r : Transliterator)
    (trimMode : TrimMode) : Bytes :=
  match comp.chunks.getLast? with
  | none => []
  | some last =>
    (comp.chunks.dropLast.flatMap fun c => c.result forms t12r) ++
      match trimMode with
      | .trim => last.trimedResult forms t12r
      | .asis => last.result forms t12r
      | .fix => last.fixedResult forms t12r

def getStringWithTransliterator (forms : CharacterForms) (comp : Composition)
    (t12r : Transliterator) : Bytes := comp.getStringWithModes forms t12r .fix

/-- The difference of the positions is a `size_t`. -/
def getTransliteratedText (forms : CharacterForms) (comp : Composition) (t12r : Transliterator)
    (position size : Nat) : Option Bytes := do
  let fullBase := comp.getStringWithTransliterator forms t12r
  let t13nStart ← comp.convertPosition forms position .localT12r t12r
  let t13nEnd ← comp.convertPosition forms (position + size) .localT12r t12r
  let t13nSize := if t13nEnd < t13nStart then t13nEnd + 2 ^ 64 - t13nStart else t13nEnd - t13nStart
  return utf8SubString fullBase t13nStart t13nSize

def getRawString (forms : CharacterForms) (comp : Composition) : Option Bytes :=
  comp.getTransliteratedText forms .rawString 0 (comp.getLength forms)

/-! ## Chunk by chunk -/

section

variable (forms : CharacterForms) (t12rFrom t12rTo : Transliterator)

/-- The conversion by going through the chunks. -/
def convertAlong : List CharChunk → Nat → Nat
  | [], _ => 0
  | [c], position =>
    convertInner (min position (c.getLength forms t12rFrom)) (c.getLength forms t12rFrom)
      (c.getLength forms t12rTo)
  | c :: next :: rest, position =>
    if c.getLength forms t12rFrom < position then
      c.getLength forms t12rTo
        + convertAlong (next :: rest) (position - c.getLength forms t12rFrom)
    else
      convertInner position (c.getLength forms t12rFrom) (c.getLength forms t12rTo)

end

/-- The chunks up to the last one that is displayed. -/
def visiblePart (forms : CharacterForms) : List CharChunk → List CharChunk
  | [] => []
  | c :: rest =>
    if lengthOf forms .localT12r (c :: rest) = 0 then [] else c :: visiblePart forms rest

variable {forms : CharacterForms} {t12rFrom t12rTo t12r : Transliterator}

theorem convertAlong_singleton (c : CharChunk) (position : Nat) :
    convertAlong forms t12rFrom t12rTo [c] position =
      convertInner (min position (c.getLength forms t12rFrom)) (c.getLength forms t12rFrom)
        (c.getLength forms t12rTo) := rfl

theorem convertAlong_cons_cons (c next : CharChunk) (rest : List CharChunk) (position : Nat) :
    convertAlong forms t12rFrom t12rTo (c :: next :: rest) position =
      if c.getLength forms t12rFrom < position then
        c.getLength forms t12rTo + convertAlong forms t12rFrom t12rTo (next :: rest)
          (position - c.getLength forms t12rFrom)
      else convertInner position (c.getLength forms t12rFrom) (c.getLength forms t12rTo) := rfl

theorem visiblePart_cons (c : CharChunk) (rest : List CharChunk) :
    visiblePart forms (c :: rest) =
      if lengthOf forms .localT12r (c :: rest) = 0 then [] else c :: visiblePart forms rest := rfl

theorem lengthOf_snoc (left : List CharChunk) (c : CharChunk) :
    lengthOf forms t12r (left ++ [c]) = lengthOf forms t12r left + c.getLength forms t12r := by
  simp [lengthOf]

theorem convertInner_le {inner lengthFrom lengthTo : Nat} :
    convertInner inner lengthFrom lengthTo ≤ lengthTo := by
  unfold convertInner
  split
  · exact Nat.zero_le _
  · split
    · exact Nat.le_refl _
    · split <;> omega

theorem convertInner_mono {i j lengthFrom lengthTo : Nat} (h : i ≤ j) (hj : j ≤ lengthFrom) :
    convertInner i lengthFrom lengthTo ≤ convertInner j lengthFrom lengthTo := by
  by_cases hend : j = lengthFrom
  · by_cases hzero : j = 0
    · rw [show i = j by omega]
    · rw [convertInner, convertInner, if_neg hzero, if_pos hend]
      exact convertInner_le
  · by_cases hzero : i = 0
    · simp [convertInner, hzero]
    · rw [convertInner, convertInner, if_neg hzero, if_neg (show ¬ i = lengthFrom by omega),
        if_neg (show ¬ j = 0 by omega), if_neg hend]
      split <;> split <;> omega

/-- The position of a chunk, and then the position in it. -/
theorem getChunkFrom_convert (t12rTo : Transliterator) :
    ∀ (chunks left : List CharChunk) (position : Nat), chunks ≠ [] →
    ∃ found, getChunkFrom forms t12rFrom left chunks position = some found ∧
      found.innerPosition ≤ found.chunk.getLength forms t12rFrom ∧
      lengthOf forms t12rTo found.left
          + convertInner found.innerPosition (found.chunk.getLength forms t12rFrom)
            (found.chunk.getLength forms t12rTo)
        = lengthOf forms t12rTo left + convertAlong forms t12rFrom t12rTo chunks position
  | [], _, _, h => absurd rfl h
  | [c], left, position, _ => ⟨_, by rw [getChunkFrom], Nat.min_le_right _ _, rfl⟩
  | c :: next :: rest, left, position, _ => by
    rw [getChunkFrom, convertAlong_cons_cons]
    · split
      · obtain ⟨found, hfound, hinner, hposition⟩ := getChunkFrom_convert t12rTo (next :: rest)
          (left ++ [c]) (position - c.getLength forms t12rFrom) (List.cons_ne_nil _ _)
        exact ⟨found, hfound, hinner, by rw [hposition, lengthOf_snoc, Nat.add_assoc]⟩
      · next hle => exact ⟨_, rfl, Nat.not_lt.mp hle, rfl⟩
    · intro h
      cases h

/-- **A position is always converted.** -/
theorem convertPosition_eq (comp : Composition) {position : Nat} (h : t12rFrom ≠ t12rTo) :
    comp.convertPosition forms position t12rFrom t12rTo
      = some (convertAlong forms t12rFrom t12rTo comp.chunks position) := by
  rw [convertPosition, if_neg h]
  cases hchunks : comp.chunks with
  | nil => rfl
  | cons c rest =>
    obtain ⟨found, hfound, hinner, hposition⟩ :=
      getChunkFrom_convert t12rTo (c :: rest) [] position (List.cons_ne_nil _ _)
    rw [getChunkAt, hfound]
    dsimp only
    simp [if_neg (Nat.not_lt.mpr hinner), hposition, show lengthOf forms t12rTo [] = 0 from rfl]

/-! ## The order of positions -/

theorem lengthOf_cons_eq (c : CharChunk) (chunks : List CharChunk) :
    lengthOf forms t12r (c :: chunks) = c.getLength forms t12r + lengthOf forms t12r chunks :=
  rfl

/-- **Positions keep their order.** -/
theorem convertAlong_mono : ∀ (chunks : List CharChunk) {p q : Nat}, p ≤ q →
    convertAlong forms t12rFrom t12rTo chunks p ≤ convertAlong forms t12rFrom t12rTo chunks q
  | [], _, _, _ => Nat.le_refl 0
  | [c], p, q, h => convertInner_mono (by omega) (Nat.min_le_right _ _)
  | c :: next :: rest, p, q, h => by
    rw [convertAlong_cons_cons, convertAlong_cons_cons]
    by_cases hq : c.getLength forms t12rFrom < q
    · rw [if_pos hq]
      split
      · exact Nat.add_le_add_left (convertAlong_mono (next :: rest) (by omega)) _
      · exact Nat.le_trans convertInner_le (Nat.le_add_right _ _)
    · rw [if_neg hq, if_neg (by omega)]
      exact convertInner_mono h (by omega)

theorem convertAlong_zero : ∀ chunks : List CharChunk,
    convertAlong forms t12rFrom t12rTo chunks 0 = 0
  | [] => rfl
  | [c] => by rw [convertAlong_singleton, Nat.zero_min, convertInner, if_pos rfl]
  | c :: next :: rest => by
    simp [convertAlong_cons_cons, convertInner]

/-- The end of the displayed text is the end of what is visible. -/
theorem convertAlong_length : ∀ chunks : List CharChunk,
    convertAlong forms .localT12r t12rTo chunks (lengthOf forms .localT12r chunks)
      = lengthOf forms t12rTo (visiblePart forms chunks)
  | [] => rfl
  | [c] => by
    have hlength : lengthOf forms .localT12r [c] = c.getLength forms .localT12r := rfl
    rw [convertAlong_singleton, visiblePart_cons, hlength, Nat.min_self, convertInner]
    split
    · rfl
    · rw [if_pos rfl]
      rfl
  | c :: next :: rest => by
    have ih := convertAlong_length (next :: rest)
    rw [convertAlong_cons_cons, lengthOf_cons_eq c, visiblePart_cons, lengthOf_cons_eq c]
    by_cases hrest : lengthOf forms .localT12r (next :: rest) = 0
    · have hvisible : visiblePart forms (next :: rest) = [] := by
        rw [visiblePart_cons, if_pos hrest]
      rw [hrest, Nat.add_zero, if_neg (Nat.lt_irrefl _), convertInner, hvisible]
      split
      · rfl
      · rw [if_pos rfl]
        rfl
    · rw [if_pos (by omega), if_neg (by omega), Nat.add_sub_cancel_left, ih, lengthOf_cons_eq]

theorem lengthOf_visiblePart : ∀ chunks : List CharChunk,
    lengthOf forms .localT12r (visiblePart forms chunks) = lengthOf forms .localT12r chunks
  | [] => rfl
  | c :: rest => by
    rw [visiblePart_cons]
    split
    · next hzero => exact hzero.symm
    · simp [lengthOf_cons_eq, lengthOf_visiblePart rest]

/-- The length is converted to the length of what is visible, in any form. -/
theorem convertPosition_length (comp : Composition) :
    comp.convertPosition forms (comp.getLength forms) .localT12r t12r
      = some (lengthOf forms t12r (visiblePart forms comp.chunks)) := by
  by_cases h : Transliterator.localT12r = t12r
  · rw [convertPosition, if_pos h, ← h, lengthOf_visiblePart]
    rfl
  · rw [convertPosition_eq comp h, getLength, convertAlong_length]

/-! ## The whole text -/

/-- What a substring relies on: positions in the text are converted in their order, and the whole
text is cut out as a whole. -/
structure PositionsConsistent (forms : CharacterForms) (comp : Composition)
    (t12r : Transliterator) : Prop where
  mono : ∀ p q, p ≤ q → q ≤ comp.getLength forms → ∃ p' q',
    comp.convertPosition forms p .localT12r t12r = some p' ∧
    comp.convertPosition forms q .localT12r t12r = some q' ∧ p' ≤ q'
  zero : comp.convertPosition forms 0 .localT12r t12r = some 0
  whole : comp.getTransliteratedText forms t12r 0 (comp.getLength forms)
    = some (comp.getStringWithTransliterator forms t12r)

/-- **Positions keep their order in every form, and the whole text is cut out as a whole if and only
if it has no more characters than the visible chunks are displayed with.** -/
theorem transliterated_as_a_whole_iff (forms : CharacterForms) (comp : Composition)
    (t12r : Transliterator) :
    PositionsConsistent forms comp t12r ↔
      (splitStringToUtf8Chars (comp.getStringWithTransliterator forms t12r)).length
        ≤ lengthOf forms t12r (visiblePart forms comp.chunks) := by
  have hzero : comp.convertPosition forms 0 .localT12r t12r = some 0 := by
    by_cases h : Transliterator.localT12r = t12r
    · rw [convertPosition, if_pos h]
    · rw [convertPosition_eq comp h, convertAlong_zero]
  have htext : comp.getTransliteratedText forms t12r 0 (comp.getLength forms)
      = some (utf8SubString (comp.getStringWithTransliterator forms t12r) 0
        (lengthOf forms t12r (visiblePart forms comp.chunks))) := by
    simp [getTransliteratedText, hzero, convertPosition_length]
  constructor
  · intro h
    have hwhole := h.whole
    rw [htext, Option.some.injEq] at hwhole
    exact utf8SubString_eq_iff.mp hwhole
  · intro h
    refine ⟨fun p q hpq _ => ?_, hzero, by rw [htext, utf8SubString_eq_iff.mpr h]⟩
    by_cases heq : Transliterator.localT12r = t12r
    · exact ⟨p, q, by rw [convertPosition, if_pos heq], by rw [convertPosition, if_pos heq], hpq⟩
    · exact ⟨_, _, convertPosition_eq comp heq, convertPosition_eq comp heq,
        convertAlong_mono _ hpq⟩

/-! ## Texts that are cut off -/

/-- A rule without a result, of which nothing is displayed. -/
def invisibleRules : List Rule := [⟨utf8 "a", [], [], {}⟩]

def invisibleTable : SharedTable := ⟨0, (Table.new.addRules 2 invisibleRules).getD Table.new⟩

/-- A result that is longer than what was typed for it, which a longer input may replace. -/
def longResultRules : List Rule :=
  [⟨utf8 "n", utf8 "んん", [], {}⟩, ⟨utf8 "na", utf8 "な", [], {}⟩]

def longResultTable : SharedTable := ⟨0, (Table.new.addRules 2 longResultRules).getD Table.new⟩

/-- **What was typed behind the last visible chunk is cut off, and what the fixed last chunk is
longer by.** -/
theorem whole_text_cut_off :
    (∃ comp, pressAll sameForms 2 ⟨invisibleTable, .conversionString, []⟩
        [typedAt 0 (utf8 "k"), typedAt 1 (utf8 "a")] = .ok comp ∧
      comp.getStringWithTransliterator sameForms .rawString = utf8 "ka" ∧
      comp.getRawString sameForms = some (utf8 "k")) ∧
    ∃ comp, pressAll sameForms 2 ⟨longResultTable, .conversionString, []⟩ [typedAt 0 (utf8 "n")]
        = .ok comp ∧
      comp.getStringWithTransliterator sameForms .hiragana = utf8 "んん" ∧
      comp.getTransliteratedText sameForms .hiragana 0 (comp.getLength sameForms)
        = some (utf8 "ん") :=
  ⟨⟨_, rfl, by decide, by decide⟩, _, rfl, by decide, by decide⟩

end Composition

end Mozkey.Composer
