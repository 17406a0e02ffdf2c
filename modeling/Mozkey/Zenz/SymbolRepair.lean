import Mozkey.Zenz.OutputValidator

/-!
# Keeping symbols under the user's control

`session/zenz_output_validator.cc`, what is repaired before an output is validated. The width of
a symbol is taken from the text the user sees, and punctuation that nobody asked for is taken off
the end. A left context that the output repeats is taken off the front, if Mozc's value remains.
-/

namespace Mozkey.Zenz.OutputValidator

open Infra Base

/-- A code point and its bytes, `Utf8CharForSymbolRestore`. -/
abbrev SymbolChar := Nat × Bytes

def charBytes (chars : List SymbolChar) : Bytes := (chars.map Prod.snd).flatten

/-! ## Restoring a style -/

def findSymbolStyleVariantIndex (cp : Nat) (variants : List Char) : Option Nat :=
  variants.findIdx? fun v => v.toNat == cp

def isAsciiTokenCharForSymbolRestore (cp : Nat) : Bool :=
  if 0x7F < cp then false
  else
    ('0'.toNat ≤ cp && cp ≤ '9'.toNat) || ('A'.toNat ≤ cp && cp ≤ 'Z'.toNat) ||
      ('a'.toNat ≤ cp && cp ≤ 'z'.toNat) ||
      ['_', '-', '.', '+', '#', '/', '\\'].any fun c => c.toNat == cp

def hasAsciiTokenNeighborForSymbolRestore (chars : List SymbolChar) (index : Nat) : Bool :=
  let isToken (c : SymbolChar) := isAsciiTokenCharForSymbolRestore c.1
  (0 < index && (chars[index - 1]?).any isToken) || (chars[index + 1]?).any isToken

def firstSymbolVariantBytes (chars : List SymbolChar) (target : Nat) : Bytes :=
  ((chars.find? fun c => c.1 == target).map Prod.snd).getD []

/-- The scan stops at the first variant, or at bytes that cannot be decoded. -/
def containsAnySymbolStyleVariant (text : Bytes) (variants : List Char) : Bool :=
  (walk decodeOneUtf8 text).1.any fun cp => (findSymbolStyleVariantIndex cp variants).isSome

/-- How often each variant occurs. -/
def countVariants (chars : List SymbolChar) (variants : List Char) : List Nat :=
  (List.range variants.length).map fun i =>
    chars.countP fun c => findSymbolStyleVariantIndex c.1 variants == some i

def decrementAt (index : Nat) (counts : List Nat) : List Nat := counts.modify index (· - 1)

/-- What does not change in the loop of `RestoreSymbolGroupStyle`. -/
structure StyleRestore where
  variants : List Char
  sourceChars : List SymbolChar
  zenzChars : List SymbolChar
  activeSourceVariantCount : Nat
  avoidAsciiTokenFallbackWhenWidening : Bool

/-- The variant at the same position of the source, when it is missing. -/
def positionalTarget (r : StyleRestore) (missing : List Nat) (i currentIndex : Nat) : Option Nat :=
  match r.sourceChars[i]? with
  | none => none
  | some sourceChar =>
    match findSymbolStyleVariantIndex sourceChar.1 r.variants with
    | none => none
    | some sourceIndex =>
      if sourceIndex ≠ currentIndex ∧ 0 < missing.getD sourceIndex 0 then some sourceIndex else none

/-- The first variant that is missing and may be used here. -/
def fallbackTarget (r : StyleRestore) (missing excess : List Nat) (i currentIndex cp : Nat) :
    Option Nat :=
  if 0 < excess.getD currentIndex 0 ∧ r.activeSourceVariantCount = 1 then
    (List.range r.variants.length).find? fun j =>
      let wideningFromAscii := decide (cp ≤ 0x7F) && (r.variants[j]?).any fun v => 0x7F < v.toNat
      0 < missing.getD j 0 &&
        !(r.avoidAsciiTokenFallbackWhenWidening && wideningFromAscii &&
          hasAsciiTokenNeighborForSymbolRestore r.zenzChars i)
  else none

/-- The loop over the output's characters, from position `i` on. -/
def restoreFrom (r : StyleRestore) : Nat → List Nat → List Nat → List SymbolChar → Bytes
  | _, _, _, [] => []
  | i, missing, excess, (cp, bytes) :: rest =>
    match findSymbolStyleVariantIndex cp r.variants with
    | none => bytes ++ restoreFrom r (i + 1) missing excess rest
    | some currentIndex =>
      match positionalTarget r missing i currentIndex with
      | some target =>
        ((r.sourceChars[i]?).map Prod.snd).getD [] ++
          restoreFrom r (i + 1) (decrementAt target missing) (decrementAt currentIndex excess) rest
      | none =>
        match fallbackTarget r missing excess i currentIndex cp with
        | some target =>
          firstSymbolVariantBytes r.sourceChars (((r.variants[target]?).map Char.toNat).getD 0) ++
            restoreFrom r (i + 1) (decrementAt target missing) (decrementAt currentIndex excess)
              rest
        | none => bytes ++ restoreFrom r (i + 1) missing excess rest

def restoreSymbolGroupStyle (styleSource zenzValue : Bytes) (variants : List Char)
    (avoidAsciiTokenFallbackWhenWidening : Bool) : Bytes :=
  let sourceChars := splitUtf8ForSymbolRestore styleSource
  let zenzChars := splitUtf8ForSymbolRestore zenzValue
  if sourceChars.isEmpty || zenzChars.isEmpty then zenzValue
  else
    let sourceCounts := countVariants sourceChars variants
    let zenzCounts := countVariants zenzChars variants
    let activeSourceVariantCount := sourceCounts.countP (0 < ·)
    if activeSourceVariantCount = 0 then zenzValue
    else
      let missing := List.zipWith (· - ·) sourceCounts zenzCounts
      let excess := List.zipWith (· - ·) zenzCounts sourceCounts
      if missing.all (· == 0) then zenzValue
      else
        restoreFrom ⟨variants, sourceChars, zenzChars, activeSourceVariantCount,
          avoidAsciiTokenFallbackWhenWidening⟩ 0 missing excess zenzChars

def restoreSymbolGroupStyleFromKeyOrMozc (key mozcValue zenzValue : Bytes) (variants : List Char)
    (avoidAsciiTokenFallbackWhenWidening : Bool) : Bytes :=
  if containsAnySymbolStyleVariant key variants then
    restoreSymbolGroupStyle key zenzValue variants avoidAsciiTokenFallbackWhenWidening
  else if containsAnySymbolStyleVariant mozcValue variants then
    restoreSymbolGroupStyle mozcValue zenzValue variants avoidAsciiTokenFallbackWhenWidening
  else zenzValue

/-- The groups of variants in the order they are restored in, each with
`avoid_ascii_token_fallback_when_widening`. -/
def kSymbolStyleGroups : List (List Char × Bool) :=
  [(['~', '～', '〜'], false), (['(', '（'], true), ([')', '）'], true), (['[', '［'], true),
    ([']', '］'], true), (['{', '｛'], true), (['}', '｝'], true), (['!', '！'], false),
    (['?', '？'], false), ([':', '：'], true), ([';', '；'], true), ([',', '，'], true),
    (['.', '．'], true)]

def restoreUserVisibleSymbolStyle (key mozcValue zenzValue : Bytes) : Bytes :=
  kSymbolStyleGroups.foldl
    (fun restored group =>
      restoreSymbolGroupStyleFromKeyOrMozc key mozcValue restored group.1 group.2)
    zenzValue

/-! ## Trailing symbols -/

def userControlledTrailingSymbolGroups : List (List Char) :=
  [['!', '！'], ['?', '？'], ['.', '．', '。'], ['~', '～', '〜'], ['…', '‥']]

def findUserControlledTrailingSymbolGroup (cp : Nat) : Option Nat :=
  userControlledTrailingSymbolGroups.findIdx? fun group =>
    (findSymbolStyleVariantIndex cp group).isSome

/-- The groups of the symbols at the end, from the last one. -/
def trailingGroups (chars : List SymbolChar) : List Nat :=
  (chars.reverse.map fun c => findUserControlledTrailingSymbolGroup c.1).takeWhile Option.isSome
    |>.reduceOption

/-- How often each group occurs among the symbols at the end, none for an ill-formed text. -/
def countUserControlledTrailingSymbols (text : Bytes) : Option (List Nat) :=
  let chars := splitUtf8ForSymbolRestore text
  if !text.isEmpty && chars.isEmpty then none
  else
    some ((List.range userControlledTrailingSymbolGroups.length).map fun g =>
      (trailingGroups chars).count g)

/-- The characters from the last one, without the symbols at the end that are too many. -/
def removeUnrequested (allowed : List Nat) : List Nat → List SymbolChar → List SymbolChar
  | _, [] => []
  | counts, c :: rest =>
    match findUserControlledTrailingSymbolGroup c.1 with
    | none => c :: rest
    | some group =>
      if allowed.getD group 0 < counts.getD group 0 then
        removeUnrequested allowed (decrementAt group counts) rest
      else c :: removeUnrequested allowed counts rest

def suppressUnrequestedTrailingSymbols (key mozcValue zenzValue : Bytes) : Bytes :=
  match countUserControlledTrailingSymbols key, countUserControlledTrailingSymbols mozcValue,
    countUserControlledTrailingSymbols zenzValue with
  | some keyCounts, some mozcCounts, some zenzCounts =>
    let allowed := List.zipWith max keyCounts mozcCounts
    let zenzChars := splitUtf8ForSymbolRestore zenzValue
    charBytes (removeUnrequested allowed zenzCounts zenzChars.reverse).reverse
  | _, _, _ => zenzValue

def repairUserControlledSymbols (key mozcValue zenzValue : Bytes) : Bytes :=
  suppressUnrequestedTrailingSymbols key mozcValue
    (restoreUserVisibleSymbolStyle key mozcValue zenzValue)

/-! ## A repeated left context -/

structure ZenzContextPrefixDecision where
  safe : Bool := true
  stripped : Bool := false
  value : Bytes
deriving DecidableEq

def resolveLeftContextPrefix (rawValue leftContext mozcValue : Bytes) : ZenzContextPrefixDecision :=
  if leftContext.isEmpty || !leftContext.isPrefixOf rawValue || rawValue == mozcValue then
    { value := rawValue }
  else
    let stripped := rawValue.drop leftContext.length
    if !stripped.isEmpty && stripped == mozcValue then { stripped := true, value := stripped }
    else { safe := false, value := rawValue }

/-! ## Readings -/

def validateReadingPreservation (key normalizedKeyReading zenzReading : Bytes) :
    ZenzValidationResult :=
  if key.isEmpty || zenzReading.isEmpty then reject "reading_unavailable"
  else if zenzReading == key ||
      (!normalizedKeyReading.isEmpty && zenzReading == normalizedKeyReading) then
    accept false "reading_preserved"
  else if normalizedKeyReading.isEmpty then reject "reading_unavailable"
  else reject "reading_mismatch"

end Mozkey.Zenz.OutputValidator
