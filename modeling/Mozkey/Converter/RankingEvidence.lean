import Mozkey.Base.ScriptType
import Mozkey.Converter.Segments
import Mozkey.Converter.LatticeCosts

/-!
# The evidence around a node

The predicates of `converter/immutable_converter.cc` that search the lattice, for the guards of
`MakeLattice`.
-/

/-!
## What the ranking guards look for

The predicates of `converter/immutable_converter.cc` that the guards of `MakeLattice` use: on a
node, and on the lattice around it.
-/

namespace Mozkey.Converter

open Infra Base NodeAttribute

/-! ## Texts -/

def startsWithStringView (text start : Bytes) : Bool := start.isPrefixOf text

def endsWithStringView (text suffix : Bytes) : Bool := suffix.isSuffixOf text

def endsWithAnyStringView (text : Bytes) (suffixes : List String) : Bool :=
  suffixes.any fun suffix => endsWithStringView text (utf8 suffix)

def startsWithAnyStringView (text : Bytes) (prefixes : List String) : Bool :=
  prefixes.any fun start => startsWithStringView text (utf8 start)

def endsWithJapanesePunctuationLike (value : Bytes) : Bool :=
  endsWithAnyStringView value ["。", "、", "！", "？", "!", "?", ".", ",", " ", "　"]

def endsWithOpenParticleLike (value : Bytes) : Bool :=
  endsWithAnyStringView value
    ["を", "が", "は", "も", "に", "で", "へ", "と", "の", "から", "まで", "より", "や"]

def isGrammarLikeReading (key : Bytes) : Bool :=
  endsWithAnyStringView key
    ["るな", "ない", "ます", "ました", "ません", "した", "して", "してる", "してた", "たい", "のに",
      "ように", "には", "にも", "では", "とは"]

def isShortAllKanjiValue (value : Bytes) : Bool :=
  !value.isEmpty && charsLen value ≤ 3 && getScriptTypeOfString value = .kanji

def endsWithAdministrativeUnit (value : Bytes) : Bool :=
  endsWithAnyStringView value ["都", "道", "府", "県", "市", "区", "町", "村", "国", "公", "私"]

def isTwoHiraganaCharSpan (text : Bytes) : Bool :=
  getScriptTypeOfString text = .hiragana && charsLen text = 2

/-! ## Nodes -/

/-- A rule that is asked of both ids of a node. -/
def either (rule : Nat → Bool) (node : Node) : Bool := rule node.lid || rule node.rid

def isOneKanaOneKanjiNode (pm : PosMatcher) (node : Node) : Bool :=
  node.nodeType = .nor && !node.has USER_DICTIONARY &&
    (!node.key.isEmpty && !node.value.isEmpty && node.key ≠ node.value &&
      getScriptTypeOfString node.key = .hiragana && charsLen node.key = 1 &&
      charsLen node.value = 1 && containsScriptType node.value .kanji &&
      -- Proper nouns such as names are not suppressed.
      !either pm.isUniqueNoun node)

def isKanaFunctionalNode (pm : PosMatcher) (node : Node) : Bool :=
  node.nodeType = .nor && !node.key.isEmpty && node.key = node.value &&
    getScriptTypeOfString node.key = .hiragana && either pm.isFunctional node

def isNominalHistoryNode (pm : PosMatcher) (node : Node) : Bool :=
  either pm.isContentNoun node || either pm.isPronoun node || either pm.isUniqueNoun node ||
    either pm.isGeneralNoun node || either pm.isUnknown node ||
    containsScriptType node.value .kanji || containsScriptType node.value .katakana ||
    containsScriptType node.value .alphabet || containsScriptType node.value .number

def isNaraContentNodeForRecomposition (node : Node) (conversionBeginPos : Nat) : Bool :=
  node.nodeType = .nor && !node.has USER_DICTIONARY &&
    (node.beginPos = conversionBeginPos && !node.key.isEmpty && !node.value.isEmpty &&
      node.key ≠ node.value && startsWithStringView node.key (utf8 "なら") &&
      startsWithStringView node.value (utf8 "奈良") && getScriptTypeOfString node.key = .hiragana)

def isPrefixConsumingContentNodeForRecomposition (pm : PosMatcher) (node : Node)
    (conversionBeginPos : Nat) : Bool :=
  node.nodeType = .nor && !node.has USER_DICTIONARY &&
    (node.beginPos = conversionBeginPos && node.beginPos < node.endPos && !node.key.isEmpty &&
      !node.value.isEmpty && node.key ≠ node.value && getScriptTypeOfString node.key = .hiragana &&
      !either pm.isFunctional node &&
      !(either pm.isUniqueNoun node &&
        !isNaraContentNodeForRecomposition node conversionBeginPos) &&
      (containsScriptType node.value .kanji || containsScriptType node.value .katakana ||
        containsScriptType node.value .number))

def isNumericContentNodeForRecomposition (pm : PosMatcher) (node : Node) : Bool :=
  either pm.isNumber node || either pm.isKanjiNumber node

def isKanjiNumberNode (pm : PosMatcher) (node : Node) : Bool := either pm.isKanjiNumber node

def isNumericEvidenceNode (pm : PosMatcher) (node : Node) : Bool :=
  either pm.isNumber node || either pm.isKanjiNumber node || either pm.isCounterSuffixWord node

def isShortWholeSpanCandidate (pm : PosMatcher) (node : Node) : Bool :=
  node.nodeType = .nor && !node.has USER_DICTIONARY &&
    (!node.key.isEmpty && !node.value.isEmpty && node.key ≠ node.value &&
      getScriptTypeOfString node.key = .hiragana && charsLen node.key = 2 &&
      containsScriptType node.value .kanji && !either pm.isUniqueNoun node)

/-- The attributes are not looked at. -/
def isShitaiContentNounHijackNode (pm : PosMatcher) (node : Node) : Bool :=
  node.nodeType = .nor &&
    (node.key = utf8 "したい" && node.value ≠ utf8 "したい" &&
      getScriptTypeOfString node.key = .hiragana && containsScriptType node.value .kanji &&
      !either pm.isUniqueNoun node)

def isShitaContentHijackNode (pm : PosMatcher) (node : Node) (conversionBeginPos : Nat) : Bool :=
  node.nodeType = .nor && !node.has USER_DICTIONARY &&
    (node.beginPos = conversionBeginPos && !node.key.isEmpty && !node.value.isEmpty &&
      node.key ≠ node.value && startsWithStringView node.key (utf8 "した") &&
      (startsWithStringView node.value (utf8 "下") || startsWithStringView node.value (utf8 "舌") ||
        startsWithStringView node.key (utf8 "したん") &&
          (containsScriptType node.value .kanji || containsScriptType node.value .katakana)) &&
      getScriptTypeOfString node.key = .hiragana &&
      (containsScriptType node.value .kanji || containsScriptType node.value .katakana) &&
      !either pm.isUniqueNoun node)

/-- The attributes are not looked at. -/
def isRitsuHijackNode (pm : PosMatcher) (node : Node) : Bool :=
  node.nodeType = .nor &&
    (node.key = utf8 "りつ" && node.value ≠ utf8 "立" &&
      getScriptTypeOfString node.key = .hiragana && containsScriptType node.value .kanji &&
      !either pm.isUniqueNoun node)

def kStrongPlaceSuffixes : List (String × String) :=
  [("ほうめん", "方面"), ("ほうこう", "方向"), ("ふきん", "付近"), ("きんぺん", "近辺"),
    ("しゅうへん", "周辺"), ("かいわい", "界隈"), ("いったい", "一帯"), ("きんこう", "近郊"),
    ("ちほう", "地方"), ("ちいき", "地域"), ("えき", "駅"), ("えきまえ", "駅前"),
    ("くうこう", "空港"), ("みなと", "港"), ("こう", "港"), ("おんせん", "温泉"),
    ("こうえん", "公園"), ("びじゅつかん", "美術館"), ("はくぶつかん", "博物館"),
    ("としょかん", "図書館"), ("だいがく", "大学"), ("こうこう", "高校"), ("びょういん", "病院"),
    ("えんせん", "沿線"), ("どうろ", "道路"), ("こくどう", "国道"), ("けんどう", "県道"),
    ("かいどう", "街道"), ("いき", "行き"), ("ゆき", "行き"), ("はつ", "発"), ("ちゃく", "着"),
    ("けいゆ", "経由")]

def isPlaceSuffixEvidenceNode (node : Node) : Bool :=
  node.nodeType = .nor && !node.key.isEmpty && !node.value.isEmpty &&
    kStrongPlaceSuffixes.any fun suffix =>
      node.key = utf8 suffix.1 && node.value = utf8 suffix.2

def isGaParticleNode (pm : PosMatcher) (node : Node) : Bool :=
  node.nodeType = .nor && node.key = utf8 "が" && node.value = utf8 "が" &&
    isKanaFunctionalNode pm node

def isPlaceLikeNode (pm : PosMatcher) (node : Node) : Bool :=
  node.nodeType = .nor && !node.key.isEmpty && !node.value.isEmpty && node.key ≠ node.value &&
    getScriptTypeOfString node.key = .hiragana && containsScriptType node.value .kanji &&
    2 ≤ charsLen node.key &&
    (either pm.isUniqueNoun node || endsWithAdministrativeUnit node.value)

def isOneKanaOneKanjiGaFusedNode (node : Node) : Bool :=
  let kGa := utf8 "が"
  let contentKey := node.key.take (node.key.length - kGa.length)
  let contentValue := node.value.take (node.value.length - kGa.length)
  node.nodeType = .nor && !node.has USER_DICTIONARY &&
    (!node.key.isEmpty && !node.value.isEmpty && getScriptTypeOfString node.key = .hiragana &&
      endsWithStringView node.key kGa && endsWithStringView node.value kGa &&
      !contentKey.isEmpty && !contentValue.isEmpty &&
      getScriptTypeOfString contentKey = .hiragana && charsLen contentKey = 1 &&
      charsLen contentValue = 1 && containsScriptType contentValue .kanji)

/-- The attributes are not looked at. -/
def isContentKanjiNodeForAdverbialGuard (pm : PosMatcher) (node : Node) : Bool :=
  node.nodeType = .nor &&
    (!node.key.isEmpty && !node.value.isEmpty && node.key ≠ node.value &&
      getScriptTypeOfString node.key = .hiragana && containsScriptType node.value .kanji &&
      2 ≤ charsLen node.key && charsLen node.key ≤ 4 && !either pm.isUniqueNoun node)

/-- The attributes are not looked at. -/
def isFullSpanGrammarLikeProperNoun (pm : PosMatcher) (keySize : Nat) (node : Node)
    (conversionBeginPos : Nat) : Bool :=
  node.nodeType = .nor &&
    (node.beginPos = conversionBeginPos && node.endPos = keySize && either pm.isUniqueNoun node &&
      isGrammarLikeReading node.key && 4 ≤ charsLen node.key && !isShortAllKanjiValue node.value)

/-- `key().substr(begin, end - begin)` -/
def Lattice.keyBetween (l : Lattice) (beginPos endPos : Nat) : Bytes :=
  (l.key.drop beginPos).take (endPos - beginPos)

/-! ## Functional paths -/

/-- Row `start` has the positions that functional nodes lead to. -/
abbrev FunctionalReachability := List (List Bool)

/-- The positions that functional nodes lead to from `start`. -/
def functionalRow (pm : PosMatcher) (l : Lattice) (start : Nat) : List Bool :=
  let keySize := l.key.length
  (List.range' start (keySize - start)).foldl
    (fun row pos =>
      if row.getD pos false then
        (l.beginNodes pos).foldl (fun row v =>
          let node := l.node v
          if keySize < node.endPos || node.endPos = pos || !isKanaFunctionalNode pm node then row
          else row.set node.endPos true) row
      else row)
    ((List.replicate (keySize + 1) false).set start true)

def buildFunctionalReachability (pm : PosMatcher) (l : Lattice) (beginPos : Nat) :
    FunctionalReachability :=
  (List.range (l.key.length + 1)).map fun start =>
    if beginPos ≤ start then functionalRow pm l start
    else List.replicate (l.key.length + 1) false

def hasFunctionalPathInRange (reachable : FunctionalReachability) (beginPos endPos : Nat) : Bool :=
  (reachable.getD beginPos []).getD endPos false

def hasKanaFunctionalPredecessor (pm : PosMatcher) (l : Lattice) (target : Node)
    (conversionBeginPos : Nat) : Bool :=
  decide (conversionBeginPos < target.beginPos) && (l.endNodes target.beginPos).any fun u =>
    (l.node u).endPos = target.beginPos && isKanaFunctionalNode pm (l.node u)

def hasTeDeTailPredecessor (pm : PosMatcher) (l : Lattice) (target : Node)
    (conversionBeginPos : Nat) : Bool :=
  decide (conversionBeginPos < target.beginPos) && (l.endNodes target.beginPos).any fun u =>
    let prev := l.node u
    prev.endPos = target.beginPos && prev.nodeType = .nor && !prev.key.isEmpty &&
      getScriptTypeOfString prev.key = .hiragana && endsWithAnyStringView prev.key ["て", "で"] &&
      !either pm.isUniqueNoun prev

def hasTaNoFunctionalPredecessor (pm : PosMatcher) (l : Lattice) (target : Node)
    (conversionBeginPos : Nat) : Bool :=
  hasKanaFunctionalPredecessor pm l target conversionBeginPos ||
    hasTeDeTailPredecessor pm l target conversionBeginPos

def kHijackPhrases : List String := ["には", "にも", "では", "とは", "たの"]

def hasKnownFunctionalKanaHijackPath (pm : PosMatcher) (l : Lattice)
    (reachable : FunctionalReachability) (node : Node) (conversionBeginPos : Nat) : Bool :=
  decide (node.beginPos < l.key.length) && kHijackPhrases.any fun text =>
    let phrase := utf8 text
    startsWithStringView (l.key.drop node.beginPos) phrase &&
      startsWithStringView phrase node.key && decide (node.key.length < phrase.length) &&
      hasFunctionalPathInRange reachable node.beginPos (node.beginPos + phrase.length) &&
      !(node.key = utf8 "た" && !hasTaNoFunctionalPredecessor pm l node conversionBeginPos)

def hasNumericEvidenceAfterFunctionalPrefix (pm : PosMatcher) (l : Lattice)
    (reachable : FunctionalReachability) (v : NodeId) : Bool :=
  let node := l.node v
  isKanjiNumberNode pm node &&
    (List.range' node.endPos (l.key.length + 1 - node.endPos)).any fun pos =>
      hasFunctionalPathInRange reachable node.endPos pos && (l.beginNodes pos).any fun next =>
        next ≠ v && isNumericEvidenceNode pm (l.node next)

def getFunctionalKanaGuardPenalty (pm : PosMatcher) (l : Lattice)
    (reachable : FunctionalReachability) (v : NodeId) : Int :=
  let kBasePenalty := 3500
  let kKanjiNumberDiscount := 700
  let kNumericEvidenceDiscount := 1800
  max 0 (kBasePenalty - (if isKanjiNumberNode pm (l.node v) then kKanjiNumberDiscount else 0)
    - (if hasNumericEvidenceAfterFunctionalPrefix pm l reachable v then kNumericEvidenceDiscount
      else 0))

/-! ## The boundary to the history -/

inductive BoundaryContextForRecomposition where
  | noHistory
  | closedNominal
  | openParticle
  | predicateOrFunctional
  | punctuation
  | unknown
  deriving DecidableEq

def classifyNode (pm : PosMatcher) (node : Node) : BoundaryContextForRecomposition :=
  if node.value.isEmpty then .unknown
  else if endsWithJapanesePunctuationLike node.value then .punctuation
  else if endsWithOpenParticleLike node.value then .openParticle
  else if isNominalHistoryNode pm node then .closedNominal
  else if either pm.isFunctional node then .predicateOrFunctional
  else .unknown

/-- A history node with an id of its own is preferred. -/
def classifyBoundaryContextForRecomposition (pm : PosMatcher) (l : Lattice)
    (conversionBeginPos : Nat) : BoundaryContextForRecomposition :=
  if conversionBeginPos = 0 then .noHistory
  else
    let prevs := ((l.endNodes conversionBeginPos).map l.node).filter fun prev =>
      prev.endPos = conversionBeginPos && prev.nodeType = .his && !prev.value.isEmpty
    match prevs.find? fun prev => prev.rid ≠ 0 with
    | some prev => classifyNode pm prev
    | none =>
      match prevs.head? with
      | some fallback => classifyNode pm fallback
      | none => .unknown

def isSupportedFunctionalPrefixForRecomposition (key : Bytes) : Bool :=
  if key.isEmpty || key = utf8 "と" || key = utf8 "の" then false
  else if ["に", "で", "へ", "を", "が", "は", "も"].any fun text => key = utf8 text then true
  else (utf8 "に").length < key.length && startsWithAnyStringView key
    ["に", "で", "と", "の", "は", "も", "が", "を", "へ", "から", "まで", "より"]

def isSupportedWholeFunctionalChainForRecomposition (key : Bytes) : Bool :=
  !key.isEmpty && (startsWithAnyStringView key ["なの", "なん"] ||
    key = utf8 "なら" || startsWithAnyStringView key ["ならば", "ならでは"])

def hasContinuationNodeFrom (l : Lattice) (beginPos : Nat) (excludedNode : NodeId) : Bool :=
  decide (beginPos < l.key.length) && (l.beginNodes beginPos).any fun u =>
    u ≠ excludedNode && (l.node u).nodeType = .nor && (l.node u).beginPos < (l.node u).endPos

structure FunctionalPrefixEvidence where
  beginPos : Nat
  endPos : Nat
  key : Bytes

/-- The whole span as a functional chain, or a functional prefix with two characters behind it. -/
def findFunctionalPrefixEvidence (reachable : FunctionalReachability) (l : Lattice)
    (conversionBeginPos : Nat) (v : NodeId) : Option FunctionalPrefixEvidence :=
  let competing := l.node v
  if competing.beginPos ≠ conversionBeginPos || l.key.length < competing.endPos then none
  else
    let competingKey := l.keyBetween conversionBeginPos competing.endPos
    if hasFunctionalPathInRange reachable conversionBeginPos competing.endPos &&
        isSupportedWholeFunctionalChainForRecomposition competingKey then
      some ⟨conversionBeginPos, competing.endPos, competingKey⟩
    else
      ((List.range' (conversionBeginPos + 1) (competing.endPos - (conversionBeginPos + 1))).find?
        fun endPos =>
          2 ≤ charsLen (l.keyBetween endPos competing.endPos) &&
            hasFunctionalPathInRange reachable conversionBeginPos endPos &&
            hasContinuationNodeFrom l endPos v &&
            isSupportedFunctionalPrefixForRecomposition
              (l.keyBetween conversionBeginPos endPos)).map
        fun endPos => ⟨conversionBeginPos, endPos, l.keyBetween conversionBeginPos endPos⟩

def hasSahenNounHistoryPredecessor (pm : PosMatcher) (l : Lattice) (conversionBeginPos : Nat) :
    Bool :=
  conversionBeginPos ≠ 0 && (l.endNodes conversionBeginPos).any fun u =>
    (l.node u).endPos = conversionBeginPos && (l.node u).nodeType = .his &&
      either pm.isUnknown (l.node u)

def hasKanaSurfaceNodeAt (l : Lattice) (beginPos : Nat) (surface : Bytes) : Bool :=
  (l.beginNodes beginPos).any fun u =>
    (l.node u).nodeType = .nor && (l.node u).key = surface && (l.node u).value = surface

def hasSahenShitaPredicateEvidence (l : Lattice) (conversionBeginPos : Nat) : Bool :=
  hasKanaSurfaceNodeAt l conversionBeginPos (utf8 "した") ||
    (l.beginNodes conversionBeginPos).any fun u =>
      let node := l.node u
      node.nodeType = .nor && node.key = utf8 "し" && node.value = utf8 "し" &&
        node.beginPos < node.endPos && node.endPos < l.key.length &&
        hasKanaSurfaceNodeAt l node.endPos (utf8 "た")

/-! ## Places and adverbs -/

def hasAdministrativePredecessor (l : Lattice) (beginPos : Nat) : Bool :=
  beginPos ≠ 0 && (l.endNodes beginPos).any fun u =>
    (l.node u).endPos = beginPos && ((l.node u).nodeType = .his || (l.node u).nodeType = .nor) &&
      endsWithAdministrativeUnit (l.node u).value

def hasRitsuSuffixCandidate (l : Lattice) (beginPos : Nat) : Bool :=
  (l.beginNodes beginPos).any fun u =>
    (l.node u).key = utf8 "りつ" && (l.node u).value = utf8 "立"

def hasPlaceSuffixEvidence (l : Lattice) (beginPos : Nat) : Bool :=
  decide (beginPos < l.key.length) && (l.beginNodes beginPos).any fun u =>
    (l.node u).beginPos < (l.node u).endPos && (l.node u).endPos ≤ l.key.length &&
      isPlaceSuffixEvidenceNode (l.node u)

def hasSameSpanPlaceCandidate (pm : PosMatcher) (l : Lattice) (beginPos endPos : Nat) : Bool :=
  beginPos < endPos && endPos ≤ l.key.length && (l.beginNodes beginPos).any fun u =>
    (l.node u).endPos = endPos && isPlaceLikeNode pm (l.node u)

/-- The same content word with に appended does not count. -/
def hasSameStartAdverbialNiCandidate (pm : PosMatcher) (l : Lattice) (v : NodeId) : Bool :=
  let node := l.node v
  (l.beginNodes node.beginPos).any fun u =>
    let candidate := l.node u
    u ≠ v && node.endPos < candidate.endPos && candidate.key = node.key ++ utf8 "に" &&
      endsWithStringView candidate.value (utf8 "に") && candidate.value ≠ node.value ++ utf8 "に" &&
      !either pm.isUniqueNoun candidate

/-! ## Short compounds -/

def kMaxCost : Int := 32767

/-- The one search that looks at the costs. -/
def hasCompetitiveShortWholeSpanCandidate (pm : PosMatcher) (connector : TransitionCost)
    (l : Lattice) (left right : NodeId) : Bool :=
  let leftNode := l.node left
  let rightNode := l.node right
  if leftNode.endPos ≠ rightNode.beginPos then false
  else if charsLen (l.keyBetween leftNode.beginPos rightNode.endPos) ≠ 2 then false
  else
    let splitCost := leftNode.wcost + connector leftNode.rid rightNode.lid + rightNode.wcost
    let wholes := (l.beginNodes leftNode.beginPos).filter fun whole =>
      whole ≠ left && whole ≠ right && (l.node whole).endPos = rightNode.endPos &&
        isShortWholeSpanCandidate pm (l.node whole)
    let bestWholeCost := wholes.foldl (fun best whole => min best (l.node whole).wcost) kMaxCost
    bestWholeCost ≠ kMaxCost && bestWholeCost - splitCost ≤ 2302

def getShortCompoundSplitPenalty (pm : PosMatcher) (node : Node) : Int :=
  let kBasePenalty := 1600
  let kNumericDiscount := 700
  max 0 (kBasePenalty - (if isKanjiNumberNode pm node || isNumericEvidenceNode pm node then
    kNumericDiscount else 0))

end Mozkey.Converter
