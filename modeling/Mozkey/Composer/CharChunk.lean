import Mozkey.Composer.Table

/-!
# Chunks

`composer/char_chunk.cc`. A chunk takes what is typed as far as the rules go. Its length is not
cached here, every change of a chunk resets the cache.

A loop of the source that may not end is run with fuel, and an offset of `substr` behind the end of
its string is a failure.
-/

/-!
## Transliterators

`composer/transliterators.cc`. A chunk is displayed by what was typed or by what it was converted
to, in one of several character forms. The tables of `base/strings/japanese.cc` and the character
form manager are not part of the model, they are functions on texts.
-/

namespace Mozkey.Composer

open Infra Base

inductive Transliterator where
  | conversionString
  | rawString
  | hiragana
  | fullKatakana
  | halfKatakana
  | fullAscii
  | halfAscii
  /-- `LOCAL`, the one that the chunk was given. -/
  | localT12r
  deriving DecidableEq, Repr

/-- The conversions between character forms. -/
structure CharacterForms where
  halfWidthToFullWidth : Bytes → Bytes
  fullWidthToHalfWidth : Bytes → Bytes
  hiraganaToKatakana : Bytes → Bytes
  katakanaToHiragana : Bytes → Bytes
  halfWidthKatakanaToFullWidthKatakana : Bytes → Bytes
  fullWidthAsciiToHalfWidthAscii : Bytes → Bytes
  halfWidthAsciiToFullWidthAscii : Bytes → Bytes
  convertPreeditString : Bytes → Bytes

/-- What both `Split` functions hand out. `ok` says that both texts were cut on their own. -/
structure SplitTexts where
  ok : Bool
  primaryLhs : Bytes
  primaryRhs : Bytes
  secondaryLhs : Bytes
  secondaryRhs : Bytes

/-- `Util::Utf8SubString(src, start)` -/
def utf8Rest (src : Bytes) (start : Nat) :
    Bytes := ((splitStringToUtf8Chars src).drop start).flatten

/-- When the two have the same suffix, like "ttk" and "っtk", the secondary one is cut in front of
it. -/
def splitPrimaryString (position : Nat) (primary secondary : Bytes) : SplitTexts :=
  let primaryLhs := utf8SubString primary 0 position
  let primaryRhs := utf8Rest primary position
  if secondary.length < primaryRhs.length || !primaryRhs.isSuffixOf secondary then
    ⟨false, primaryLhs, primaryRhs, primaryLhs, primaryRhs⟩
  else
    ⟨true, primaryLhs, primaryRhs, secondary.take (secondary.length - primaryRhs.length),
      primaryRhs⟩

structure SplitResult where
  rawLhs : Bytes
  rawRhs : Bytes
  convertedLhs : Bytes
  convertedRhs : Bytes

def splitRaw (position : Nat) (raw converted : Bytes) : SplitResult :=
  let texts := splitPrimaryString position raw converted
  ⟨texts.primaryLhs, texts.primaryRhs, texts.secondaryLhs, texts.secondaryRhs⟩

def splitConverted (position : Nat) (raw converted : Bytes) : SplitResult :=
  let texts := splitPrimaryString position converted raw
  ⟨texts.secondaryLhs, texts.secondaryRhs, texts.primaryLhs, texts.primaryRhs⟩

section

variable (forms : CharacterForms)

def halfKatakana (converted : Bytes) : Bytes :=
  forms.fullWidthToHalfWidth (forms.hiraganaToKatakana converted)

def halfKatakanaToHiragana (halfKatakana : Bytes) : Bytes :=
  forms.katakanaToHiragana (forms.halfWidthKatakanaToFullWidthKatakana halfKatakana)

/-- The text is cut in its half-width form, and the parts are turned back. -/
def splitHalfKatakana (position : Nat) (raw converted : Bytes) : SplitResult :=
  let texts := splitPrimaryString position (halfKatakana forms converted) raw
  let back := halfKatakanaToHiragana forms
  if texts.ok then
    ⟨texts.secondaryLhs, texts.secondaryRhs, back texts.primaryLhs, back texts.primaryRhs⟩
  else
    ⟨back texts.secondaryLhs, back texts.secondaryRhs, back texts.primaryLhs, back texts.primaryRhs⟩

namespace Transliterator

/-- The conversion string serves where no transliterator was to be expected. -/
def transliterate (t12r : Transliterator) (raw converted : Bytes) : Bytes :=
  match t12r with
  | .conversionString | .localT12r => converted
  | .rawString => raw
  | .hiragana => forms.convertPreeditString (forms.halfWidthToFullWidth converted)
  | .fullKatakana =>
    forms.convertPreeditString (forms.halfWidthToFullWidth (forms.hiraganaToKatakana converted))
  | .halfKatakana => Composer.halfKatakana forms converted
  | .fullAscii => forms.halfWidthAsciiToFullWidthAscii (if raw.isEmpty then converted else raw)
  | .halfAscii => forms.fullWidthAsciiToHalfWidthAscii (if raw.isEmpty then converted else raw)

def split (t12r : Transliterator) (position : Nat) (raw converted : Bytes) : SplitResult :=
  match t12r with
  | .conversionString | .localT12r | .hiragana | .fullKatakana =>
    splitConverted position raw converted
  | .halfKatakana => splitHalfKatakana forms position raw converted
  | .rawString | .fullAscii | .halfAscii => splitRaw position raw converted

end Transliterator

end

/-- `std::shared_ptr<const Table>`. Pointers are compared by `id`. -/
structure SharedTable where
  id : Nat
  table : Table

inductive Failure where
  /-- The fuel was not enough. -/
  | fuel
  /-- `std::out_of_range` -/
  | outOfRange
  deriving DecidableEq, Repr

/-- `composer/composition_input.cc`, without the probable keys. -/
structure CompositionInput where
  raw : Bytes := []
  conversion : Bytes := []
  isNewInput : Bool := false
  isAsis : Bool := false

def CompositionInput.isEmpty (input : CompositionInput) : Bool :=
  input.raw.isEmpty && input.conversion.isEmpty

structure CharChunk where
  transliterator : Transliterator
  table : SharedTable
  raw : Bytes := []
  conversion : Bytes := []
  pending : Bytes := []
  ambiguous : Bytes := []
  displayAmbiguousAsResult : Bool := false
  displayAmbiguousResultRaw : Bytes := []
  displayAmbiguousResultConversion : Bytes := []
  displayAmbiguousResultAmbiguous : Bytes := []
  displayAmbiguousResultAttributes : TableAttributes := {}
  attributes : TableAttributes := {}

namespace CharChunk

/-! ## Display -/

def getDisplayConverted (c : CharChunk) : Bytes :=
  if c.displayAmbiguousAsResult && !c.ambiguous.isEmpty then c.conversion ++ c.ambiguous
  else c.conversion ++ c.pending

def getTransliterator (c : CharChunk) (t12r : Transliterator) : Transliterator :=
  if c.attributes.noTransliteration then
    if t12r = .localT12r || t12r = .halfAscii || t12r = .fullAscii then .conversionString else t12r
  else if t12r = .localT12r then c.transliterator
  else t12r

def transliterate (forms : CharacterForms) (c : CharChunk) (t12r : Transliterator)
    (raw converted : Bytes) : Bytes :=
  (c.getTransliterator t12r).transliterate forms raw converted

/-- What `AppendResult` appends. -/
def result (forms : CharacterForms) (c : CharChunk) (t12r : Transliterator) : Bytes :=
  c.transliterate forms t12r (deleteSpecialKeys c.raw) (deleteSpecialKeys c.getDisplayConverted)

def getLength (forms : CharacterForms) (c : CharChunk) (t12r : Transliterator) : Nat :=
  charsLen (c.result forms t12r)

/-! ## Chunks and their neighbours -/

def isEmpty (c : CharChunk) : Bool := c.raw.isEmpty && c.conversion.isEmpty && c.pending.isEmpty

def isAppendable (c : CharChunk) (t12r : Transliterator) (table : SharedTable) : Bool :=
  !c.pending.isEmpty && (t12r = .localT12r || t12r = c.transliterator) && table.id = c.table.id

def isConvertible (c : CharChunk) (t12r : Transliterator) (table : SharedTable) (input : Bytes) :
    Bool :=
  if !c.isAppendable t12r table then false
  else
    let key := c.pending ++ input
    let found := table.table.lookUpPrefix key
    found.entry.isSome && key.length = found.keyLength && found.fixed

def combine (c leftChunk : CharChunk) : CharChunk :=
  { c with
    conversion := leftChunk.conversion ++ c.conversion
    raw := leftChunk.raw ++ c.raw
    ambiguous :=
      if leftChunk.ambiguous.isEmpty then []
      else if c.ambiguous.isEmpty then leftChunk.ambiguous ++ c.pending
      else leftChunk.ambiguous ++ c.ambiguous
    pending := leftChunk.pending ++ c.pending }

/-! ## The displayed ambiguous result -/

def clearDisplayAmbiguousResultFallback (c : CharChunk) : CharChunk :=
  { c with
    displayAmbiguousResultRaw := []
    displayAmbiguousResultConversion := []
    displayAmbiguousResultAmbiguous := []
    displayAmbiguousResultAttributes := {} }

def saveDisplayAmbiguousResultFallback (c : CharChunk) : CharChunk :=
  { c with
    displayAmbiguousResultRaw := c.raw
    displayAmbiguousResultConversion := c.conversion
    displayAmbiguousResultAmbiguous := c.ambiguous
    displayAmbiguousResultAttributes := c.attributes }

def hasDisplayAmbiguousResultFallback (c : CharChunk) : Bool :=
  !c.displayAmbiguousResultRaw.isEmpty &&
    c.displayAmbiguousResultRaw.length < c.raw.length &&
    c.displayAmbiguousResultRaw.isPrefixOf c.raw

/-- The chunk goes back to the displayed result. What was typed since is typed again. -/
def restoreDisplayAmbiguousResultFallback (c : CharChunk) (input : Bytes) : CharChunk × Bytes :=
  let replayInput := c.raw.drop c.displayAmbiguousResultRaw.length ++ input
  let restored := { c with
    raw := c.displayAmbiguousResultRaw
    conversion := c.displayAmbiguousResultConversion ++ c.displayAmbiguousResultAmbiguous
    pending := []
    ambiguous := []
    displayAmbiguousAsResult := false
    attributes := c.displayAmbiguousResultAttributes }
  (restored.clearDisplayAmbiguousResultFallback, replayInput)

/-! ## Typing -/

/-- The first character and the rest. -/
def frontChar : Bytes → Bytes × Bytes
  | [] => ([], [])
  | c :: rest => ((c :: rest).take (oneCharLen c), (c :: rest).drop (oneCharLen c))

/-- No rule is found. -/
def addUnmatchedInput (c : CharChunk) (input : Bytes) (keyLength : Nat) :
    (CharChunk × Bytes) ⊕ Option (CharChunk × Bytes) :=
  if keyLength ≤ c.pending.length && c.hasDisplayAmbiguousResultFallback then
    .inr (some (c.restoreDisplayAmbiguousResultFallback input))
  else if keyLength = 0 then
    let trimmed := trimLeadingSpecialKey input
    if trimmed.length < input.length then .inl (c, trimmed)
    else if c.pending.isEmpty then
      let (front, rest) := frontChar input
      .inr (some ({ c with raw := c.raw ++ front, conversion := c.conversion ++ front }, rest))
    else .inr (some (c, input))
  else if keyLength = c.pending.length then
    let next := c.table.table.lookUpPrefix input
    let noEntry := next.entry.isNone && next.keyLength = 0
    let trimmed := trimLeadingSpecialKey input
    if noEntry && trimmed.length < input.length then .inl (c, trimmed) else .inr (some (c, input))
  else if keyLength < c.pending.length then .inr (some (c, input))
  else
    let usedInputChars := input.take (keyLength - c.pending.length)
    .inr (some
      ({ c with
          raw := c.raw ++ usedInputChars
          pending := c.pending ++ usedInputChars
          ambiguous := []
          displayAmbiguousAsResult := false },
        input.drop (keyLength - c.pending.length)))

/-- The chunk after a rule was found whose input is as long as the pending text or longer. -/
def takeEntry (c : CharChunk) (input : Bytes) (found : PrefixMatch) (entry : Entry) : CharChunk :=
  let key := c.pending ++ input
  let isFirstEntry :=
    c.conversion.isEmpty && (c.raw.isEmpty || c.pending.isEmpty || c.raw = c.pending)
  let c := if isFirstEntry then { c with attributes := entry.attributes } else c
  let c := { c with raw := c.raw ++ input.take (found.keyLength - c.pending.length) }
  if found.fixed || found.keyLength < key.length then
    clearDisplayAmbiguousResultFallback { c with
      conversion := c.conversion ++ entry.result
      pending := entry.pending
      ambiguous := []
      displayAmbiguousAsResult := false }
  else
    -- a longer input may still be typed
    let c := { c with
      pending := key
      ambiguous := entry.result
      displayAmbiguousAsResult := entry.attributes.displayAmbiguousResult }
    if c.displayAmbiguousAsResult then c.saveDisplayAmbiguousResultFallback
    else c.clearDisplayAmbiguousResultFallback

/-- One round of the loop of `AddInput`. `substr` throws when the rule is shorter than the pending
text. -/
def addInputInternal (state : CharChunk × Bytes) :
    (CharChunk × Bytes) ⊕ Option (CharChunk × Bytes) :=
  let (c, input) := state
  let found := c.table.table.lookUpPrefix (c.pending ++ input)
  match found.entry with
  | none => c.addUnmatchedInput input found.keyLength
  | some entry =>
    if found.keyLength < c.pending.length then .inr none
    else
      let rest := input.drop (found.keyLength - c.pending.length)
      let taken := c.takeEntry input found entry
      if found.fixed && rest.isEmpty && taken.conversion.isEmpty && taken.pending.isEmpty &&
          taken.attributes.noTransliteration then
        .inr (some ({ taken with raw := [] }, rest))
      else if rest.isEmpty || taken.pending.isEmpty then .inr (some (taken, rest))
      else .inl (taken, rest)

def addInput (fuel : Nat) (c : CharChunk) (input : Bytes) : Except Failure (CharChunk × Bytes) :=
  match run addInputInternal fuel (c, input) with
  | none => .error .fuel
  | some none => .error .outOfRange
  | some (some added) => .ok added

/-- The input comes with its conversion, as a kana key does. -/
def addInputAndConvertedChar (c : CharChunk) (input : CompositionInput) :
    CharChunk × CompositionInput :=
  if input.isAsis then
    if c.isEmpty then ({ c with raw := input.raw, conversion := input.conversion }, {})
    else (c, input)
  else if c.isEmpty then
    let c := { c with
      raw := input.raw
      pending := input.conversion
      ambiguous := input.conversion }
    let c :=
      match c.table.table.lookUp c.pending with
      | some entry => { c with attributes := entry.attributes }
      | none => c
    (c, { input with raw := [], conversion := [] })
  else
    let keyInput := c.pending ++ input.conversion
    let found := c.table.table.lookUpPrefix keyInput
    match found.entry with
    | none => (c, input)
    | some entry =>
      if found.keyLength = keyInput.length then
        let c := { c with raw := c.raw ++ input.raw }
        let c :=
          if found.fixed then
            { c with
              conversion := c.conversion ++ entry.result
              pending := entry.pending
              ambiguous := [] }
          else { c with pending := entry.result, ambiguous := entry.result }
        (c, { input with raw := [], conversion := [] })
      else if found.keyLength = c.pending.length then (c, input)
      else
        ({ c with
            raw := c.raw ++ input.raw
            conversion := c.conversion ++ entry.result
            pending := entry.pending },
          { input with raw := [], conversion := keyInput.drop found.keyLength })

def shouldInsertNewChunk (c : CharChunk) (input : CompositionInput) : Bool :=
  if c.isEmpty then false
  else
    let isNewInput := input.isNewInput || (c.attributes.endChunk && c.pending.isEmpty)
    isNewInput &&
      (c.table.table.hasNewChunkEntry input.raw || !c.table.table.hasSubRules input.raw)

def addCompositionInput (fuel : Nat) (c : CharChunk) (input : CompositionInput) :
    Except Failure (CharChunk × CompositionInput) :=
  if !input.conversion.isEmpty then .ok (c.addInputAndConvertedChar input)
  else if c.shouldInsertNewChunk input then .ok (c, input)
  else
    match c.addInput fuel input.raw with
    | .error failure => .error failure
    | .ok (c, raw) => .ok (c, { input with raw := raw })

/-! ## Splitting -/

/-- The chunk on the left and what is left of this one. There is nothing to split at the ends.

The subtraction of sizes wraps around when the pending text is longer than what is on the right, and
then all of that is assigned. -/
def splitChunk (forms : CharacterForms) (c : CharChunk) (t12r : Transliterator) (position : Nat) :
    Option (CharChunk × CharChunk) :=
  if position = 0 || c.getLength forms t12r ≤ position then none
  else
    let texts := (c.getTransliterator t12r).split forms position (deleteSpecialKeys c.raw)
      (deleteSpecialKeys (c.conversion ++ c.pending))
    let left : CharChunk := ⟨c.transliterator, c.table, texts.rawLhs, [], [], [], false, [], [], [],
      {}, {}⟩
    let c := { c with raw := texts.rawRhs }
    if c.conversion.length < texts.convertedLhs.length then
      some
        ({ left with
            conversion := c.conversion
            pending := texts.convertedLhs.drop c.conversion.length },
          { c with conversion := [], pending := texts.convertedRhs, ambiguous := [] })
    else
      let pendingPos :=
        if texts.convertedRhs.length < c.pending.length then texts.convertedRhs.length
        else texts.convertedRhs.length - c.pending.length
      some
        ({ left with conversion := texts.convertedLhs },
          { c with conversion := texts.convertedRhs.take pendingPos })

end CharChunk

end Mozkey.Composer
