import Mozkey.Composer.Composition
import Mozkey.Composer.VisibleText

/-!
# Splitting a chunk

A chunk is split at a position of the text it shows, but the parts are made of its conversion and
its pending text, or of what was typed.

* `splitChunk_parts_iff` — when the conversion and the pending text are handed on as they were cut
* `splitChunk_result` — the parts show the text up to the position and the text behind it
-/

namespace Mozkey.Composer

open Infra Base

/-! ## Characters of a text -/

variable {s : Bytes}

theorem chars_of_isUnicode (h : IsUnicode s) :
    (∀ u ∈ splitStringToUtf8Chars s, IsChar u) ∧ (splitStringToUtf8Chars s).flatten = s ∧
      charsLen s = (splitStringToUtf8Chars s).length := by
  obtain ⟨chars, hchars, rfl⟩ := (isUnicode_iff s).mp h
  rw [splitStringToUtf8Chars_flatten hchars, charsLen_flatten hchars]
  exact ⟨hchars, rfl, rfl⟩

theorem chars_append {t : Bytes} (hs : IsUnicode s) (ht : IsUnicode t) :
    splitStringToUtf8Chars (s ++ t) = splitStringToUtf8Chars s ++ splitStringToUtf8Chars t := by
  obtain ⟨as, has, rfl⟩ := (isUnicode_iff s).mp hs
  obtain ⟨bs, hbs, rfl⟩ := (isUnicode_iff t).mp ht
  rw [← List.flatten_append, splitStringToUtf8Chars_flatten has, splitStringToUtf8Chars_flatten hbs,
    splitStringToUtf8Chars_flatten]
  intro u hu
  exact (List.mem_append.mp hu).elim (has u) (hbs u)

theorem utf8SubString_zero (s : Bytes) (n : Nat) :
    utf8SubString s 0 n = ((splitStringToUtf8Chars s).take n).flatten := by
  simp [utf8SubString]

theorem isUnicode_utf8SubString (h : IsUnicode s) (n : Nat) :
    IsUnicode (utf8SubString s 0 n) := by
  rw [utf8SubString_zero]
  exact isUnicode_flatten fun u hu => (chars_of_isUnicode h).1 u (List.mem_of_mem_take hu)

theorem isUnicode_utf8Rest (h : IsUnicode s) (n : Nat) : IsUnicode (utf8Rest s n) :=
  isUnicode_flatten fun u hu => (chars_of_isUnicode h).1 u (List.mem_of_mem_drop hu)

theorem utf8SubString_append_utf8Rest (h : IsUnicode s) (n : Nat) :
    utf8SubString s 0 n ++ utf8Rest s n = s := by
  simpa [utf8SubString_zero, utf8Rest, ← List.flatten_append] using (chars_of_isUnicode h).2.1

/-- The text is cut into the texts of its first and of its last characters. -/
theorem cut_append {t : Bytes} (hs : IsUnicode s) (ht : IsUnicode t) :
    utf8SubString (s ++ t) 0 (charsLen s) = s ∧ utf8Rest (s ++ t) (charsLen s) = t := by
  simpa [utf8SubString_zero, utf8Rest, chars_append hs ht, (chars_of_isUnicode hs).2.2] using
    ⟨(chars_of_isUnicode hs).2.1, (chars_of_isUnicode ht).2.1⟩

/-! ## What a transliterator shows -/

/-- What was typed is shown, in some form. -/
def Transliterator.showsRaw : Transliterator → Bool
  | .rawString | .fullAscii | .halfAscii => true
  | _ => false

/-- The form in which a text is shown. -/
def Transliterator.form (forms : CharacterForms) : Transliterator → Bytes → Bytes
  | .conversionString, text | .localT12r, text | .rawString, text => text
  | .hiragana, text => forms.convertPreeditString (forms.halfWidthToFullWidth text)
  | .fullKatakana, text =>
    forms.convertPreeditString (forms.halfWidthToFullWidth (forms.hiraganaToKatakana text))
  | .halfKatakana, text => Composer.halfKatakana forms text
  | .fullAscii, text => forms.halfWidthAsciiToFullWidthAscii text
  | .halfAscii, text => forms.fullWidthAsciiToHalfWidthAscii text

/-- The form keeps the characters on either side of the position. A text of half-width katakana is
cut in its form, so the parts have to come back to it. -/
def Transliterator.KeepsCut (forms : CharacterForms) (t12r : Transliterator) (text : Bytes)
    (position : Nat) : Prop :=
  match t12r with
  | .conversionString | .localT12r | .rawString => True
  | .halfKatakana =>
    let comesBack := fun part =>
      Composer.halfKatakana forms (deleteSpecialKeys (halfKatakanaToHiragana forms part)) = part
    comesBack (utf8SubString (Composer.halfKatakana forms text) 0 position) ∧
      comesBack (utf8Rest (Composer.halfKatakana forms text) position)
  | .hiragana | .fullKatakana | .fullAscii | .halfAscii =>
    IsUnicode text ∧ charsLen (t12r.form forms text) = charsLen text ∧
      t12r.form forms (utf8SubString text 0 position)
        = utf8SubString (t12r.form forms text) 0 position ∧
      t12r.form forms (utf8Rest text position) = utf8Rest (t12r.form forms text) position

theorem transliterate_of_converted {forms : CharacterForms} {t12r : Transliterator}
    (h : t12r.showsRaw = false) (raw converted : Bytes) :
    t12r.transliterate forms raw converted = t12r.form forms converted := by
  cases t12r <;> first | rfl | cases h

theorem transliterate_of_raw {forms : CharacterForms} {t12r : Transliterator}
    (h : t12r.showsRaw = true) {raw : Bytes} (hraw : raw ≠ []) (converted : Bytes) :
    t12r.transliterate forms raw converted = t12r.form forms raw := by
  have hempty : raw.isEmpty = false := List.isEmpty_eq_false_iff.mpr hraw
  cases t12r with
  | rawString => rfl
  | fullAscii => simp [Transliterator.transliterate, Transliterator.form, hempty]
  | halfAscii => simp [Transliterator.transliterate, Transliterator.form, hempty]
  | _ => cases h

namespace CharChunk

/-! ## When a chunk splits well -/

/-- What the transliterator makes of the visible texts. -/
def splitTexts (forms : CharacterForms) (c : CharChunk) (t12r : Transliterator)
    (position : Nat) : SplitResult :=
  (c.getTransliterator t12r).split forms position (deleteSpecialKeys c.raw)
    (deleteSpecialKeys (c.conversion ++ c.pending))

/-- The text on the left begins with the conversion as it is, or the text on the right ends with the
pending text as it is. -/
def Fits (forms : CharacterForms) (c : CharChunk) (t12r : Transliterator) (position : Nat) :
    Prop :=
  let texts := c.splitTexts forms t12r position
  if c.conversion.length < texts.convertedLhs.length then c.conversion <+: texts.convertedLhs
  else c.pending <:+ texts.convertedRhs

/-- The visible text that is cut. -/
def cutText (c : CharChunk) : Bytes :=
  if (c.getTransliterator .localT12r).showsRaw then deleteSpecialKeys c.raw
  else deleteSpecialKeys (c.conversion ++ c.pending)

structure SplitsWell (forms : CharacterForms) (c : CharChunk) (position : Nat) : Prop where
  /-- The left part does not get the attributes. -/
  attributes : c.attributes.noTransliteration = false ∨ c.transliterator = .conversionString
  fits : c.Fits forms .localT12r position
  keeps : (c.getTransliterator .localT12r).KeepsCut forms c.cutText position
  /-- No ambiguous result is shown in place of the pending text. -/
  pending : (c.getTransliterator .localT12r).showsRaw = false →
    c.getDisplayConverted = c.conversion ++ c.pending
  /-- Something was typed that can be shown. -/
  typed : (c.getTransliterator .localT12r).showsRaw = true → deleteSpecialKeys c.raw ≠ []

variable {forms : CharacterForms} {position : Nat} {c : CharChunk} {t12r : Transliterator}

theorem splitChunk_eq (hpos : 0 < position) (hlen : position < c.getLength forms t12r) :
    c.splitChunk forms t12r position = some
      (if c.conversion.length < (c.splitTexts forms t12r position).convertedLhs.length then
        (⟨c.transliterator, c.table, (c.splitTexts forms t12r position).rawLhs, c.conversion,
            (c.splitTexts forms t12r position).convertedLhs.drop c.conversion.length, [], false, [],
            [], [], {}, {}⟩,
          { c with
            raw := (c.splitTexts forms t12r position).rawRhs
            conversion := []
            pending := (c.splitTexts forms t12r position).convertedRhs
            ambiguous := [] })
      else
        (⟨c.transliterator, c.table, (c.splitTexts forms t12r position).rawLhs,
            (c.splitTexts forms t12r position).convertedLhs, [], [], false, [], [], [], {}, {}⟩,
          { c with
            raw := (c.splitTexts forms t12r position).rawRhs
            conversion := (c.splitTexts forms t12r position).convertedRhs.take
              (if (c.splitTexts forms t12r position).convertedRhs.length < c.pending.length then
                (c.splitTexts forms t12r position).convertedRhs.length
              else
                (c.splitTexts forms t12r position).convertedRhs.length - c.pending.length) })) := by
  unfold splitChunk
  rw [if_neg (by simp; omega)]
  dsimp only
  unfold splitTexts
  split <;> rfl

theorem getTransliterator_localT12r (c : CharChunk) : c.getTransliterator .localT12r =
    if c.attributes.noTransliteration then .conversionString else c.transliterator := rfl

theorem splitChunk_some {left right : CharChunk}
    (h : c.splitChunk forms t12r position = some (left, right)) :
    0 < position ∧ position < c.getLength forms t12r := by
  unfold splitChunk at h
  split at h
  · cases h
  · next hin =>
    simp [decide_eq_true_eq, not_or] at hin
    omega

/-- What is the same in both parts, and what is shown of them. -/
theorem splitChunk_parts {left right : CharChunk}
    (h : c.splitChunk forms t12r position = some (left, right)) :
    (left.transliterator = c.transliterator ∧ left.attributes = {} ∧
        left.raw = (c.splitTexts forms t12r position).rawLhs ∧
        left.getDisplayConverted = left.conversion ++ left.pending) ∧
      (right.transliterator = c.transliterator ∧ right.attributes = c.attributes ∧
        right.raw = (c.splitTexts forms t12r position).rawRhs ∧
        (c.getDisplayConverted = c.conversion ++ c.pending →
          right.getDisplayConverted = right.conversion ++ right.pending)) := by
  obtain ⟨hpos, hlen⟩ := splitChunk_some h
  rw [splitChunk_eq hpos hlen, Option.some.injEq] at h
  split at h
  · cases h
    refine ⟨⟨rfl, rfl, rfl, rfl⟩, rfl, rfl, rfl, fun _ => ?_⟩
    unfold getDisplayConverted
    simp
  · cases h
    refine ⟨⟨rfl, rfl, rfl, rfl⟩, rfl, rfl, rfl, fun hshown => ?_⟩
    unfold getDisplayConverted at hshown ⊢
    dsimp only
    split
    · next hambiguous =>
      rw [if_pos hambiguous, List.append_cancel_left_eq] at hshown
      rw [hshown]
    · rfl

/-- The texts on either side are made of the conversion and the pending text. -/
theorem splitChunk_of_fits {left right : CharChunk}
    (h : c.splitChunk forms t12r position = some (left, right))
    (hfits : c.Fits forms t12r position) :
    left.conversion ++ left.pending = (c.splitTexts forms t12r position).convertedLhs ∧
      right.conversion ++ right.pending = (c.splitTexts forms t12r position).convertedRhs := by
  obtain ⟨hpos, hlen⟩ := splitChunk_some h
  rw [splitChunk_eq hpos hlen, Option.some.injEq] at h
  unfold Fits at hfits
  dsimp only at hfits
  split at h
  · next hlt =>
    cases h
    rw [if_pos hlt] at hfits
    exact ⟨List.prefix_iff_eq_append.mp hfits, rfl⟩
  · next hlt =>
    cases h
    rw [if_neg hlt] at hfits
    obtain ⟨front, hfront⟩ := hfits
    refine ⟨List.append_nil _, ?_⟩
    dsimp only
    simp [← hfront]

/-- **The conversion and the pending text are handed on as they were cut if and only if they
fit.** -/
theorem splitChunk_parts_iff {left right : CharChunk}
    (h : c.splitChunk forms t12r position = some (left, right)) :
    left.conversion ++ left.pending ++ (right.conversion ++ right.pending) =
        (c.splitTexts forms t12r position).convertedLhs ++
          (c.splitTexts forms t12r position).convertedRhs ↔
      c.Fits forms t12r position := by
  constructor
  · obtain ⟨hpos, hlen⟩ := splitChunk_some h
    rw [splitChunk_eq hpos hlen, Option.some.injEq] at h
    unfold Fits
    dsimp only
    intro heq
    split at h
    · next hlt =>
      cases h
      rw [List.nil_append, List.append_left_inj] at heq
      simpa [hlt] using ⟨_, heq⟩
    · next hlt =>
      cases h
      rw [List.append_nil, List.append_right_inj] at heq
      simpa [hlt] using ⟨_, heq⟩
  · intro hfits
    obtain ⟨hlhs, hrhs⟩ := splitChunk_of_fits h hfits
    rw [hlhs, hrhs]

/-! ## What the parts show -/

theorem splitTexts_raw (h : (c.getTransliterator t12r).showsRaw = true) (position : Nat) :
    (c.splitTexts forms t12r position).rawLhs = utf8SubString (deleteSpecialKeys c.raw) 0 position ∧
      (c.splitTexts forms t12r position).rawRhs
        = utf8Rest (deleteSpecialKeys c.raw) position := by
  have hraw :
      ∀ raw converted, (splitRaw position raw converted).rawLhs = utf8SubString raw 0 position ∧
      (splitRaw position raw converted).rawRhs = utf8Rest raw position := by
    intro raw converted
    unfold splitRaw splitPrimaryString
    dsimp only
    split <;> exact ⟨rfl, rfl⟩
  unfold splitTexts
  generalize c.getTransliterator t12r = t at h ⊢
  cases t with
  | rawString => exact hraw _ _
  | fullAscii => exact hraw _ _
  | halfAscii => exact hraw _ _
  | _ => cases h

theorem splitConverted_converted (position : Nat) (raw converted : Bytes) :
    (splitConverted position raw converted).convertedLhs = utf8SubString converted 0 position ∧
      (splitConverted position raw converted).convertedRhs = utf8Rest converted position := by
  unfold splitConverted splitPrimaryString
  dsimp only
  split <;> exact ⟨rfl, rfl⟩

theorem splitHalfKatakana_converted (forms : CharacterForms) (position : Nat)
    (raw converted : Bytes) :
    (splitHalfKatakana forms position raw converted).convertedLhs = halfKatakanaToHiragana forms
        (utf8SubString (Composer.halfKatakana forms converted) 0 position) ∧
      (splitHalfKatakana forms position raw converted).convertedRhs = halfKatakanaToHiragana forms
        (utf8Rest (Composer.halfKatakana forms converted) position) := by
  unfold splitHalfKatakana splitPrimaryString
  dsimp only
  split <;> split <;> exact ⟨rfl, rfl⟩

/-- Nothing is deleted from the parts of a text from which everything was deleted. -/
theorem deleteSpecialKeys_cut {s : Bytes} (h : IsUnicode (deleteSpecialKeys s)) (position : Nat) :
    deleteSpecialKeys (utf8SubString (deleteSpecialKeys s) 0 position)
        = utf8SubString (deleteSpecialKeys s) 0 position ∧
      deleteSpecialKeys (utf8Rest (deleteSpecialKeys s) position)
        = utf8Rest (deleteSpecialKeys s) position := by
  have hbare := bare_deleteSpecialKeys h.1
  have happ := utf8SubString_append_utf8Rest h position
  exact ⟨deleteSpecialKeys_of_bare (hbare.of_infix ⟨[], _, by rw [List.nil_append, happ]⟩),
    deleteSpecialKeys_of_bare (hbare.of_infix ⟨_, [], by rw [List.append_nil, happ]⟩)⟩

/-- **The parts of the visible text are shown as the parts of what is shown.** -/
theorem form_converted (hraw : (c.getTransliterator .localT12r).showsRaw = false)
    (hkeeps : (c.getTransliterator .localT12r).KeepsCut forms c.cutText position)
    (hvalid : IsUnicode ((c.getTransliterator .localT12r).form forms
      (deleteSpecialKeys (c.conversion ++ c.pending)))) :
    (c.getTransliterator .localT12r).form forms
        (deleteSpecialKeys (c.splitTexts forms .localT12r position).convertedLhs)
        = utf8SubString ((c.getTransliterator .localT12r).form forms
            (deleteSpecialKeys (c.conversion ++ c.pending))) 0 position ∧
      (c.getTransliterator .localT12r).form forms
        (deleteSpecialKeys (c.splitTexts forms .localT12r position).convertedRhs)
        = utf8Rest ((c.getTransliterator .localT12r).form forms
            (deleteSpecialKeys (c.conversion ++ c.pending))) position := by
  rw [show c.cutText = deleteSpecialKeys (c.conversion ++ c.pending) by rw [cutText, hraw]; rfl]
    at hkeeps
  unfold splitTexts
  generalize c.getTransliterator .localT12r = t at hraw hkeeps hvalid ⊢
  have hsame : IsUnicode (deleteSpecialKeys (c.conversion ++ c.pending)) →
      t.split forms position (deleteSpecialKeys c.raw)
        (deleteSpecialKeys (c.conversion ++ c.pending))
        = splitConverted position (deleteSpecialKeys c.raw)
          (deleteSpecialKeys (c.conversion ++ c.pending)) →
      deleteSpecialKeys (t.split forms position (deleteSpecialKeys c.raw)
          (deleteSpecialKeys (c.conversion ++ c.pending))).convertedLhs
        = utf8SubString (deleteSpecialKeys (c.conversion ++ c.pending)) 0 position ∧
      deleteSpecialKeys (t.split forms position (deleteSpecialKeys c.raw)
          (deleteSpecialKeys (c.conversion ++ c.pending))).convertedRhs
        = utf8Rest (deleteSpecialKeys (c.conversion ++ c.pending)) position := by
    intro hunicode hsplit
    obtain ⟨hlhs, hrhs⟩ := splitConverted_converted position (deleteSpecialKeys c.raw)
      (deleteSpecialKeys (c.conversion ++ c.pending))
    rw [hsplit, hlhs, hrhs]
    exact deleteSpecialKeys_cut hunicode position
  cases t with
  | conversionString =>
    obtain ⟨hlhs, hrhs⟩ := hsame hvalid rfl
    exact ⟨hlhs, hrhs⟩
  | localT12r =>
    obtain ⟨hlhs, hrhs⟩ := hsame hvalid rfl
    exact ⟨hlhs, hrhs⟩
  | hiragana =>
    obtain ⟨hunicode, -, hfirst, hlast⟩ := hkeeps
    obtain ⟨hlhs, hrhs⟩ := hsame hunicode rfl
    rw [hlhs, hrhs]
    exact ⟨hfirst, hlast⟩
  | fullKatakana =>
    obtain ⟨hunicode, -, hfirst, hlast⟩ := hkeeps
    obtain ⟨hlhs, hrhs⟩ := hsame hunicode rfl
    rw [hlhs, hrhs]
    exact ⟨hfirst, hlast⟩
  | halfKatakana =>
    obtain ⟨hlhs, hrhs⟩ := splitHalfKatakana_converted forms position (deleteSpecialKeys c.raw)
      (deleteSpecialKeys (c.conversion ++ c.pending))
    rw [Transliterator.split, hlhs, hrhs]
    exact hkeeps
  | _ => cases hraw

theorem isUnicode_ne_nil_of_lt {s : Bytes} (h : IsUnicode s) (hpos : 0 < position)
    (hlen : position < charsLen s) :
    utf8SubString s 0 position ≠ [] ∧ utf8Rest s position ≠ [] := by
  have hchars := (chars_of_isUnicode h).1
  rw [(chars_of_isUnicode h).2.2] at hlen
  have hne : ∀ l : List Bytes, l ≠ [] → (∀ u ∈ l, u ∈ splitStringToUtf8Chars s) →
      l.flatten ≠ [] := by
    intro l hl hmem hflat
    obtain ⟨u, l, rfl⟩ := List.exists_cons_of_ne_nil hl
    rw [List.flatten_cons, List.append_eq_nil_iff] at hflat
    exact (hchars u (hmem u List.mem_cons_self)).ne_nil hflat.1
  rw [utf8SubString_zero, utf8Rest]
  refine ⟨hne _ ?_ fun u hu => List.mem_of_mem_take hu, hne _ ?_ fun u hu =>
    List.mem_of_mem_drop hu⟩
  · rw [Ne, List.take_eq_nil_iff]
    rintro (h | h)
    · omega
    · rw [h, List.length_nil] at hlen
      omega
  · simp [Ne]
    omega

theorem result_of_raw (h : (c.getTransliterator .localT12r).showsRaw = true)
    (hraw : deleteSpecialKeys c.raw ≠ []) :
    c.result forms .localT12r
      = (c.getTransliterator .localT12r).form forms (deleteSpecialKeys c.raw) :=
  transliterate_of_raw h hraw _

theorem result_of_converted (h : (c.getTransliterator .localT12r).showsRaw = false) :
    c.result forms .localT12r
      = (c.getTransliterator .localT12r).form forms (deleteSpecialKeys c.getDisplayConverted) :=
  transliterate_of_converted h _ _

/-- The parts of what was typed are shown as the parts of what is shown. -/
theorem form_raw (hraw : (c.getTransliterator .localT12r).showsRaw = true)
    (hkeeps : (c.getTransliterator .localT12r).KeepsCut forms c.cutText position)
    (hvalid : IsUnicode ((c.getTransliterator .localT12r).form forms (deleteSpecialKeys c.raw)))
    (hlen : position < charsLen ((c.getTransliterator .localT12r).form forms
      (deleteSpecialKeys c.raw))) :
    IsUnicode (deleteSpecialKeys c.raw) ∧ position < charsLen (deleteSpecialKeys c.raw) ∧
      (c.getTransliterator .localT12r).form forms
          (utf8SubString (deleteSpecialKeys c.raw) 0 position)
        = utf8SubString ((c.getTransliterator .localT12r).form forms (deleteSpecialKeys c.raw)) 0
            position ∧
      (c.getTransliterator .localT12r).form forms (utf8Rest (deleteSpecialKeys c.raw) position)
        = utf8Rest ((c.getTransliterator .localT12r).form forms (deleteSpecialKeys c.raw))
            position := by
  rw [show c.cutText = deleteSpecialKeys c.raw by rw [cutText, hraw]; rfl] at hkeeps
  generalize c.getTransliterator .localT12r = t at hraw hkeeps hvalid hlen ⊢
  cases t with
  | rawString => exact ⟨hvalid, hlen, rfl, rfl⟩
  | fullAscii =>
    obtain ⟨hunicode, hcount, hparts⟩ := hkeeps
    exact ⟨hunicode, hcount ▸ hlen, hparts⟩
  | halfAscii =>
    obtain ⟨hunicode, hcount, hparts⟩ := hkeeps
    exact ⟨hunicode, hcount ▸ hlen, hparts⟩
  | _ => cases hraw

/-- **A chunk that splits well is split into what it shows in front of the position and behind
it.** -/
theorem splitChunk_result (hwell : c.SplitsWell forms position) (hpos : 0 < position)
    (hlen : position < c.getLength forms .localT12r)
    (hvalid : IsUnicode (c.result forms .localT12r)) :
    ∃ left right, c.splitChunk forms .localT12r position = some (left, right) ∧
      left.result forms .localT12r = utf8SubString (c.result forms .localT12r) 0 position ∧
      right.result forms .localT12r = utf8Rest (c.result forms .localT12r) position := by
  obtain ⟨⟨left, right⟩, hsplit⟩ : ∃ parts, c.splitChunk forms .localT12r position = some parts :=
    ⟨_, splitChunk_eq hpos hlen⟩
  refine ⟨left, right, hsplit, ?_⟩
  obtain ⟨⟨hl, hla, hlraw, hlshown⟩, hr, hra, hrraw, hrshown⟩ := splitChunk_parts hsplit
  -- both parts are shown by the same transliterator
  have hleft : left.getTransliterator .localT12r = c.getTransliterator .localT12r := by
    rw [getTransliterator_localT12r, getTransliterator_localT12r, hl, hla]
    rcases hwell.attributes with hno | hconversion
    · rw [hno]
    · simp [hconversion, ite_self]
  have hright : right.getTransliterator .localT12r = c.getTransliterator .localT12r := by
    simp [getTransliterator_localT12r, hr, hra]
  cases hraw : (c.getTransliterator .localT12r).showsRaw with
  | true =>
    have htyped := hwell.typed hraw
    rw [result_of_raw hraw htyped] at hvalid ⊢
    rw [getLength, result_of_raw hraw htyped] at hlen
    obtain ⟨hunicode, hcount, hfirst, hlast⟩ := form_raw hraw hwell.keeps hvalid hlen
    obtain ⟨hlhs, hrhs⟩ := @splitTexts_raw forms c .localT12r hraw position
    obtain ⟨hldel, hrdel⟩ := deleteSpecialKeys_cut hunicode position
    obtain ⟨hlne, hrne⟩ := isUnicode_ne_nil_of_lt hunicode hpos hcount
    rw [hlhs] at hlraw
    rw [hrhs] at hrraw
    rw [result_of_raw (by rw [hleft, hraw]) (by rwa [hlraw, hldel]),
      result_of_raw (by rw [hright, hraw]) (by rwa [hrraw, hrdel]), hleft, hright, hlraw, hrraw,
      hldel, hrdel]
    exact ⟨hfirst, hlast⟩
  | false =>
    have hshown := hwell.pending hraw
    obtain ⟨hlhs, hrhs⟩ := splitChunk_of_fits hsplit hwell.fits
    rw [result_of_converted hraw, hshown] at hvalid ⊢
    rw [result_of_converted (by rw [hleft, hraw]), result_of_converted (by rw [hright, hraw]),
      hleft, hright, hlshown, hrshown hshown, hlhs, hrhs]
    exact form_converted hraw hwell.keeps hvalid

end CharChunk

end Mozkey.Composer
