import Mozkey.Base.ScriptType
import Mozkey.Infra.Runs

/-!
# The scripts of the surrounding text

`session/zenz_context_script_analyzer.cc`. A context is used when its Japanese outweighs the
rest, or when every ASCII token of it is attached to Japanese.
-/

namespace Mozkey.Zenz.ContextScriptAnalyzer

open Infra Base

/-- The code point is one of the characters. -/
def isOneOf (characters : List Char) (codepoint : Nat) : Bool :=
  characters.any fun c => c.toNat == codepoint

def isJapaneseScriptType (type : ScriptType) : Bool :=
  type == .hiragana || type == .katakana || type == .kanji

def isJapanese (codepoint : Nat) : Bool := isJapaneseScriptType (getScriptType codepoint)

def isAsciiDigit (codepoint : Nat) : Bool := inRange codepoint '0'.toNat '9'.toNat

def isAsciiUpper (codepoint : Nat) : Bool := inRange codepoint 'A'.toNat 'Z'.toNat

def isAsciiLower (codepoint : Nat) : Bool := inRange codepoint 'a'.toNat 'z'.toNat

def isAsciiAlphaNum (codepoint : Nat) : Bool :=
  isAsciiDigit codepoint || isAsciiUpper codepoint || isAsciiLower codepoint

def isAsciiVisible (codepoint : Nat) : Bool := inRange codepoint 0x21 0x7E

/-! ## Profile -/

structure ZenzContextScriptProfile where
  totalChars : Nat := 0
  japaneseScriptChars : Nat := 0
  nonJapaneseAlnumChars : Nat := 0
  asciiVisibleChars : Nat := 0
  asciiSymbolChars : Nat := 0
  emojiChars : Nat := 0
  otherChars : Nat := 0
deriving DecidableEq

/-- One code point is counted. -/
def ZenzContextScriptProfile.count (profile : ZenzContextScriptProfile) (codepoint : Nat) :
    ZenzContextScriptProfile :=
  let type := getScriptType codepoint
  let alnum := type == .number || type == .alphabet
  let one (counted : Bool) : Nat := if counted then 1 else 0
  { totalChars := profile.totalChars + 1
    japaneseScriptChars := profile.japaneseScriptChars + one (isJapaneseScriptType type)
    nonJapaneseAlnumChars :=
      profile.nonJapaneseAlnumChars + one (!isJapaneseScriptType type && alnum)
    emojiChars := profile.emojiChars + one (!isJapaneseScriptType type && type == .emoji)
    otherChars :=
      profile.otherChars + one (!isJapaneseScriptType type && !alnum && type != .emoji)
    asciiVisibleChars := profile.asciiVisibleChars + one (isAsciiVisible codepoint)
    asciiSymbolChars :=
      profile.asciiSymbolChars + one (isAsciiVisible codepoint && !isAsciiAlphaNum codepoint) }

def analyze (text : Bytes) : ZenzContextScriptProfile :=
  (utf8ToUtf32 text).foldl ZenzContextScriptProfile.count {}

/-- `std::numeric_limits<size_t>::max()` -/
def kMax : Nat := 2 ^ 64 - 1

def saturatingMultiply (value multiplier : Nat) : Nat :=
  if value = 0 ∨ multiplier = 0 then 0
  else if kMax / multiplier < value then kMax
  else value * multiplier

def saturatingAdd (lhs rhs : Nat) : Nat := if kMax - rhs < lhs then kMax else lhs + rhs

def looksMostlyJapanese (profile : ZenzContextScriptProfile) : Bool :=
  if profile.japaneseScriptChars = 0 then false
  else
    let japaneseSignal := saturatingMultiply profile.japaneseScriptChars 3
    let competingSignal := saturatingAdd
      (saturatingAdd (saturatingMultiply profile.nonJapaneseAlnumChars 2) profile.emojiChars)
      profile.otherChars
    competingSignal ≤ japaneseSignal && profile.nonJapaneseAlnumChars ≤ 4 &&
      profile.asciiVisibleChars ≤ japaneseSignal

def classifyForContextClass (profile : ZenzContextScriptProfile) : Bytes :=
  if profile.totalChars = 0 then utf8 "empty"
  else if 0 < profile.japaneseScriptChars then
    if 0 < profile.nonJapaneseAlnumChars then utf8 "mixed_japanese_ascii"
    else if 0 < profile.asciiSymbolChars then utf8 "japanese_with_punctuation"
    else utf8 "japanese_only"
  else if 0 < profile.nonJapaneseAlnumChars then utf8 "ascii_or_digit"
  else utf8 "symbol_or_other"

/-! ## Technical tokens -/

def isAsciiTechnicalConnector (codepoint : Nat) : Bool :=
  isOneOf ['-', '.', '/', '+', '#', '_'] codepoint

def isAsciiTechnicalTokenChar (codepoint : Nat) : Bool :=
  isAsciiAlphaNum codepoint || isAsciiTechnicalConnector codepoint

def isJapaneseNumericUnit (codepoint : Nat) : Bool :=
  isOneOf ['年', '月', '日', '時', '分', '秒', '円', '歳', '人', '個', '回', '件', '台', '号', '階']
    codepoint

def isJapaneseTechnicalNominalSuffix (codepoint : Nat) : Bool :=
  isOneOf ['版', '型', '系', '用'] codepoint

/-- The last one is the apostrophe. -/
def isJapaneseBoundaryPunctuation (codepoint : Nat) : Bool :=
  isOneOf ['「', '」', '『', '』', '（', '）', '［', '］', '【', '】', '〈', '〉', '《', '》', '“', '”',
    '‘', '’', '(', ')', '[', ']', '"'] codepoint || codepoint == 0x27

/-- The first Japanese code point, behind nothing but boundary punctuation. -/
def japaneseNeighbor : List Nat → Option Nat
  | [] => none
  | c :: rest =>
    if isJapanese c then some c
    else if !isJapaneseBoundaryPunctuation c then none
    else japaneseNeighbor rest

def japaneseNeighborToLeft (codepoints : List Nat) (start : Nat) : Option Nat :=
  japaneseNeighbor (codepoints.take start).reverse

def japaneseNeighborToRight (codepoints : List Nat) (stop : Nat) : Option Nat :=
  japaneseNeighbor (codepoints.drop stop)

/-- The code points from `start` to `stop`. -/
def slice (codepoints : List Nat) (start stop : Nat) : List Nat :=
  (codepoints.take stop).drop start

def isLowercaseTechnicalConnectorWord (token : List Nat) : Bool :=
  let lower := token.map fun c => if isAsciiUpper c then c - 'A'.toNat + 'a'.toNat else c
  token.all isAsciiAlphaNum &&
    ["for", "on", "of", "to"].any fun word => word.toList.map Char.toNat == lower

def isLikelyMultiwordTechnicalComponent (token : List Nat) : Bool :=
  let alphas := token.filter fun c => isAsciiUpper c || isAsciiLower c
  let hasDigit := token.any isAsciiDigit
  let hasConnector := token.any isAsciiTechnicalConnector
  let hasNoninitialUpper := (alphas.drop 1).any isAsciiUpper
  let allAlphaUpper := alphas.all isAsciiUpper
  let titleCase := !hasNoninitialUpper && (alphas.take 1).all isAsciiUpper
  if !token.all isAsciiTechnicalTokenChar then false
  else if isLowercaseTechnicalConnectorWord token then true
  else if hasDigit || hasConnector || hasNoninitialUpper then true
  else if alphas.isEmpty then false
  else allAlphaUpper || titleCase

def gapContainsOnlyAsciiSpaces (codepoints : List Nat) (start stop : Nat) : Bool :=
  if stop ≤ start then false else (slice codepoints start stop).all (· == ' '.toNat)

structure AsciiTechnicalToken where
  start : Nat
  stop : Nat
  likelyMultiwordComponent : Bool
deriving DecidableEq

/-- The tokens from position `i` on. A token begins with a letter or a digit. -/
def technicalTokensFrom : Nat → Nat → List Nat → List AsciiTechnicalToken
  | _, _, [] => []
  | skip + 1, i, _ :: rest => technicalTokensFrom skip (i + 1) rest
  | 0, i, c :: rest =>
    if isAsciiAlphaNum c then
      let token := (c :: rest).takeWhile isAsciiTechnicalTokenChar
      ⟨i, i + token.length, isLikelyMultiwordTechnicalComponent token⟩ ::
        technicalTokensFrom (token.length - 1) (i + 1) rest
    else technicalTokensFrom 0 (i + 1) rest

/-- The tokens that go on with a name whose last component is `last`. -/
def groupFrom (codepoints : List Nat) (last : AsciiTechnicalToken) :
    List AsciiTechnicalToken → List AsciiTechnicalToken
  | [] => []
  | token :: rest =>
    if token.likelyMultiwordComponent &&
        gapContainsOnlyAsciiSpaces codepoints last.stop token.start then
      token :: groupFrom codepoints token rest
    else []

/-- The names of several components. -/
def multiwordGroupsFrom (codepoints : List Nat) :
    Nat → List AsciiTechnicalToken → List (List AsciiTechnicalToken)
  | _, [] => []
  | skip + 1, _ :: rest => multiwordGroupsFrom codepoints skip rest
  | 0, token :: rest =>
    if token.likelyMultiwordComponent then
      let group := groupFrom codepoints token rest
      let groups := multiwordGroupsFrom codepoints group.length rest
      if group.isEmpty then groups else (token :: group) :: groups
    else multiwordGroupsFrom codepoints 0 rest

structure MixedScriptStructure where
  asciiAlnumChars : Nat
  licensedAsciiAlnumChars : Nat
  technicalSymbolChars : Nat
  maxJapaneseRunChars : Nat
  hasHiraganaAttachment : Bool
  hasNumericUnitAttachment : Bool
  hasNominalSuffixAttachment : Bool
deriving DecidableEq

/-- Japanese stands on one side of it at least. -/
def isAttached (codepoints : List Nat) (start stop : Nat) : Bool :=
  (japaneseNeighborToLeft codepoints start).isSome ||
    (japaneseNeighborToRight codepoints stop).isSome

/-- The code point to the right is Japanese and has `p`. -/
def attachesTo (codepoints : List Nat) (stop : Nat) (p : Nat → Bool) : Bool :=
  (japaneseNeighborToRight codepoints stop).any p

def isHiragana (codepoint : Nat) : Bool := getScriptType codepoint == .hiragana

def groupStart (group : List AsciiTechnicalToken) : Nat := (group.head?.map (·.start)).getD 0

def groupStop (group : List AsciiTechnicalToken) : Nat := (group.getLast?.map (·.stop)).getD 0

def analyzeMixedScriptStructure (text : Bytes) : MixedScriptStructure :=
  let codepoints := utf8ToUtf32 text
  let tokens := technicalTokensFrom 0 0 codepoints
  let groups := multiwordGroupsFrom codepoints 0 tokens
  let licensedTokens := (tokens.filter fun t => isAttached codepoints t.start t.stop) ++
    (groups.filter fun g => isAttached codepoints (groupStart g) (groupStop g)).flatten
  let tokenChars := tokens.flatMap fun t => slice codepoints t.start t.stop
  { asciiAlnumChars := tokenChars.countP isAsciiAlphaNum
    technicalSymbolChars := tokenChars.countP fun c => !isAsciiAlphaNum c
    licensedAsciiAlnumChars := codepoints.zipIdx.countP fun (c, j) =>
      isAsciiAlphaNum c && licensedTokens.any fun t => t.start ≤ j && j < t.stop
    maxJapaneseRunChars := ((runs isJapanese codepoints).map List.length).foldl max 0
    hasHiraganaAttachment :=
      (tokens.any fun t => attachesTo codepoints t.stop isHiragana) ||
        groups.any fun g => attachesTo codepoints (groupStop g) isHiragana
    hasNumericUnitAttachment := tokens.any fun t =>
      ((slice codepoints t.start t.stop).filter isAsciiAlphaNum).all isAsciiDigit &&
        attachesTo codepoints t.stop isJapaneseNumericUnit
    hasNominalSuffixAttachment := tokens.any fun t =>
      attachesTo codepoints t.stop isJapaneseTechnicalNominalSuffix }

def looksUsableAsJapaneseContext (text : Bytes) (profile : ZenzContextScriptProfile) : Bool :=
  if looksMostlyJapanese profile then true
  else if profile.japaneseScriptChars = 0 || profile.nonJapaneseAlnumChars = 0 then false
  else
    let struct := analyzeMixedScriptStructure text
    -- only ASCII tokens are exempt, and each of them has to be attached
    if struct.asciiAlnumChars ≠ profile.nonJapaneseAlnumChars then false
    else if struct.licensedAsciiAlnumChars ≠ struct.asciiAlnumChars then false
    else
      let unrelatedOtherChars := profile.otherChars - struct.technicalSymbolChars
      let weakCounterevidence := saturatingAdd unrelatedOtherChars profile.emojiChars
      let weakCounterevidenceLimit := saturatingMultiply profile.japaneseScriptChars 3
      if weakCounterevidenceLimit < weakCounterevidence then false
      else
        2 ≤ struct.maxJapaneseRunChars || struct.hasHiraganaAttachment ||
          struct.hasNumericUnitAttachment || struct.hasNominalSuffixAttachment

end Mozkey.Zenz.ContextScriptAnalyzer
