import Mathlib.Algebra.BigOperators.Group.List.Basic
import Mozkey.Converter.RankingConstraints
import Mozkey.Infra.Trie
import Mozkey.Prediction.HistoryRevert

/-!
# Looking up the history

`prediction/user_history_predictor.cc`: from a stored entry to what is pushed to the queue. The
decoder, the typing correction, the romanisation and `absl::HashOf` are parameters.
-/

namespace Mozkey.Prediction

open Infra Base Converter

variable {city : City}

/-! ## Requests -/

/-- What a lookup reads of a `ConversionRequest`. -/
structure ConversionRequest extends LearningRequest where
  requestType : RequestType := .prediction
  key : Bytes := []
  mixedConversion : Bool := false
  zeroQuerySuggestion : Bool := false
  romanPreedit : Bool := true
  /-- `GetStringForPreedit` -/
  stringForPreedit : Bytes := []
  /-- `GetQueriesForPrediction` -/
  queryBase : Bytes := []
  expandedSet : List Bytes := []
  queryForConversion : Bytes := []
  useExplicitKeyForUserHistoryConversion : Bool := false
  typingCorrectionApplyUserHistorySize : Nat := 0
  useTypingCorrection : Bool := false
  maxCandidatesSize : Nat := 3
  maxCandidatesSizeForZeroQuery : Nat := 4
  maxCharCoverage : Nat := 0
  partialPrefixWcost : Int := 0
  partialWeakPrefixWcost : Int := 0
  halfAsciiInput : Bool := false
  halfWidthSpace : Bool := false
  displayValueCapability : Bool := false

structure TypeCorrectedQuery where
  correction : Bytes
  /-- Whether the score is above 0. -/
  better : Bool

structure UserDictionaryToken where
  value : Bytes
  isEmoticon : Bool

structure HistoryModules extends Modules where
  isSuppressedEntry : Bytes → Bytes → Bool := fun _ _ => false
  /-- The tokens of the user dictionary under exactly this key. -/
  userDictionaryTokens : Bytes → List UserDictionaryToken := fun _ => []
  /-- `HiraganaToRomanji` -/
  toRoman : Bytes → Bytes := id
  correctComposition : ConversionRequest → List TypeCorrectedQuery := fun _ => []
  /-- `DecodeSuffix` behind a part of speech, 0 for none. -/
  decodeSuffix : Nat → Bytes → Option Result := fun _ _ => none
  prefixPenalty : Nat → Int := fun _ => 0
  transitionCost : Nat → Nat → Int := fun _ _ => 0
  firstNameId : Nat := 1
  hashOf : Bytes → UInt64
  /-- Where the arena puts the entries, in the order of their allocation. -/
  address : Nat → Nat := id

/-! ## Attributes -/

def BIGRAM_BOOST : UInt32 := 1
def SPELLING_CORRECTION : UInt32 := 2
def WEAK_CANDIDATE : UInt32 := 4
def POPULATE_INNER_SEGMENT_BOUNDARY : UInt32 := 8
def EMPTY_INNER_SEGMENT_BOUNDARY : UInt32 := 16

namespace Entry

def setAttribute (entry : Entry) (v : UInt32) : Entry :=
  { entry with attributes := entry.attributes ||| v }

def removeAttribute (entry : Entry) (v : UInt32) : Entry :=
  { entry with attributes := entry.attributes &&& ~~~v }

def has (entry : Entry) (v : UInt32) : Bool := entry.attributes &&& v != 0

end Entry

/-! ## Predicates -/

def kEmojiDescription : Bytes := utf8 "絵文字"

def isEmojiEntry (entry : Entry) : Bool := contains kEmojiDescription entry.description

def bigEndian (s : Bytes) : Nat := s.foldl (fun n c => n * 256 + c.toNat) 0

def isAndroidPuaEmoji (s : Bytes) : Bool :=
  s.length = 4 && 0xF3BE8080 ≤ bigEndian s && bigEndian s ≤ 0xF3BEBAA0

def isValidEntryIgnoringRemovedField (modules : HistoryModules) (entry : Entry) : Bool :=
  !modules.isSuppressedEntry entry.key entry.value &&
    !(isEmojiEntry entry && isAndroidPuaEmoji entry.value) &&
    !(utf8 " ").isSuffixOf entry.key

def isValidEntry (modules : HistoryModules) (entry : Entry) : Bool :=
  !entry.removed && isValidEntryIgnoringRemovedField modules entry

def isContentWord (value : Bytes) : Bool :=
  1 < charsLen value || getScriptTypeOfString value ≠ .unknownScript

def isLowFreqFullSentenceEntry (request : ConversionRequest) (entry : Entry) : Bool :=
  request.mixedConversion && 2 ≤ entry.innerSegmentBoundary.length && entry.suggestionFreq ≤ 1

/-- `converter_history_key` and `converter_history_value` of the last `size` segments. -/
def converterHistory (request : LearningRequest) (size : Nat) : Bytes × Bytes :=
  let segments := request.historyResult.innerSegments
  let before := segments.take (segments.length - size)
  (request.historyResult.key.drop (before.map (·.key.length)).sum,
    request.historyResult.value.drop (before.map (·.value.length)).sum)

def isPrecedingNumber (request : ConversionRequest) : Bool :=
  getScriptTypeOfString (converterHistory request.toLearningRequest 1).2 = .number

/-- `GetBigramEntryLruOrder` -/
def bigramEntryLruOrder (city : City) (entry prevEntry : Entry) : Option Nat :=
  prevEntry.nextEntryFps.findIdx? (· = fingerprint city entry.key entry.value)

def hasBigramEntry (city : City) (request : ConversionRequest) (entry : Entry)
    (prevEntry : Option Entry) : Bool :=
  prevEntry.any (fun prev => (bigramEntryLruOrder city entry prev).isSome) ||
    (entry.entryFlags &&& ENTRY_FLAG_LEFT_NUMBER != 0 && isPrecedingNumber request)

/-! ## Matches -/

inductive MatchType where
  | noMatch
  | leftPrefixMatch
  | rightPrefixMatch
  | leftEmptyMatch
  | exactMatch
deriving DecidableEq

def getMatchType (lstr rstr : Bytes) : MatchType :=
  if lstr.isEmpty && !rstr.isEmpty then .leftEmptyMatch
  else
    let size := min lstr.length rstr.length
    if size = 0 then .noMatch
    else if lstr.take size ≠ rstr.take size then .noMatch
    else if lstr.length = rstr.length then .exactMatch
    else if lstr.length < rstr.length then .leftPrefixMatch
    else .rightPrefixMatch

/-- The key that is expanded by typing on, and how it can go on. -/
abbrev KeyExpanded := Trie Nat Bytes

def expandedTrie (expandedSet : List Bytes) : Option KeyExpanded :=
  if expandedSet.isEmpty then none
  else some (expandedSet.foldl (fun t key => t.addEntry key (utf8ToUtf32 key)) .empty)

def getMatchTypeFromInput (requestKey keyBase : Bytes) (keyExpanded : Option KeyExpanded)
    (target : Bytes) : MatchType :=
  match keyExpanded with
  | none => getMatchType keyBase target
  | some trie =>
    if keyBase.isEmpty then
      match (trie.lookUpPrefix (utf8ToUtf32 target)).data with
      | none => .noMatch
      | some value => if value = target ∧ value = requestKey then .exactMatch else .leftPrefixMatch
    else
      let size := min keyBase.length target.length
      if size = 0 then .noMatch
      else if keyBase.take size ≠ target.take size then .noMatch
      else if target.length ≤ keyBase.length then .rightPrefixMatch
      else
        -- the rest is passed as a C string
        let rest := (target.drop keyBase.length).takeWhile (· ≠ 0)
        match (trie.lookUpPrefix (utf8ToUtf32 rest)).data with
        | none => .noMatch
        | some value =>
          let matched := keyBase ++ value
          if matched = target ∧ matched = requestKey then .exactMatch else .leftPrefixMatch

/-! ## Chains -/

/-- The entry that the links lead to: one that was used when the left-most or the left word was,
else the latest. -/
def nextEntry (storage : UserHistoryStorage city) (accepts : Entry → Bool)
    (leftLastAccessTime leftMostLastAccessTime : Nat) (fps : List UInt64) : Option Entry :=
  let found := (fps.filterMap storage.lookup).filter fun e => !e.key.isEmpty && accepts e
  let latest := found.foldl (fun (latest : Option Entry) e =>
    if latest.all fun l => l.lastAccessTime < e.lastAccessTime then some e else latest) none
  let sameTime := fun time => (found.filter fun e => e.lastAccessTime = time).getLast?
  (sameTime leftMostLastAccessTime).or ((sameTime leftLastAccessTime).or latest)

def InnerSegmentBoundaryBuilder.addEncoded (b : InnerSegmentBoundaryBuilder) (encoded : UInt32) :
    InnerSegmentBoundaryBuilder :=
  let data := decodeLengths encoded
  { b with
    keyConsumed := (b.keyConsumed + data.keyLen) % 2 ^ 32
    valueConsumed := (b.valueConsumed + data.valueLen) % 2 ^ 32
    boundary := b.boundary ++ [encoded] }

def appendInnerBoundary (b : InnerSegmentBoundaryBuilder) (entry : Entry) :
    InnerSegmentBoundaryBuilder :=
  if entry.innerSegmentBoundary.isEmpty then
    b.add entry.key.length entry.value.length entry.key.length entry.value.length
  else entry.innerSegmentBoundary.foldl InnerSegmentBoundaryBuilder.addEncoded b

/-- The locals of the loop over a chain. -/
structure Chain where
  key : Bytes
  value : Bytes
  builder : InnerSegmentBoundaryBuilder
  currentEntry : Entry
  lastEntry : Option Entry := none
  leftLastAccessTime : Nat
  leftMostLastAccessTime : Nat
  seen : List (Bytes × Bytes)

namespace Chain

def joins (chain : Chain) (requestKey : Bytes) (e : Entry) : Bool :=
  match getMatchType (chain.key ++ e.key) requestKey with
  | .noMatch | .leftEmptyMatch => false
  | _ => true

def append (chain : Chain) (next : Entry) : Chain :=
  let isContent := isContentWord next.value
  { key := chain.key ++ next.key
    value := chain.value ++ next.value
    builder := appendInnerBoundary chain.builder next
    currentEntry := next
    lastEntry := some next
    leftLastAccessTime := if isContent then next.lastAccessTime else chain.leftLastAccessTime
    leftMostLastAccessTime :=
      if chain.leftMostLastAccessTime = 0 && isContent then next.lastAccessTime
      else chain.leftMostLastAccessTime
    seen := (next.key, next.value) :: chain.seen }

/-- The loop, until the key is longer than the request. Each round makes it longer. -/
def extend (storage : UserHistoryStorage city) (requestKey : Bytes) (preferExactMatch : Bool) :
    Nat → Chain → Chain
  | 0, chain => chain
  | rounds + 1, chain =>
    if requestKey.length < chain.key.length then chain
    else if preferExactMatch && chain.key.length = requestKey.length then chain
    else
      match nextEntry storage (chain.joins requestKey) chain.leftLastAccessTime
          chain.leftMostLastAccessTime chain.currentEntry.nextEntryFps with
      | none => chain
      | some next =>
        if startsWithPunctuation next.value then chain
        else if (next.key, next.value) ∈ chain.seen then chain
        else extend storage requestKey preferExactMatch rounds (chain.append next)

end Chain

/-- `GetKeyValueForExactAndRightPrefixMatch`. It fails when the chain stays shorter than the
request. -/
def getChain (storage : UserHistoryStorage city) (requestKey : Bytes) (preferExactMatch : Bool)
    (entry : Entry) (lastEntry : Option Entry) (leftLastAccessTime leftMostLastAccessTime : Nat) :
    Bool × Chain :=
  let chain := Chain.extend storage requestKey preferExactMatch (requestKey.length + 1)
    { key := entry.key
      value := entry.value
      builder := appendInnerBoundary {} entry
      currentEntry := entry
      lastEntry, leftLastAccessTime, leftMostLastAccessTime
      seen := [(entry.key, entry.value)] }
  (requestKey.length ≤ chain.key.length, chain)

/-! ## The queue -/

/-- An element of the queue. `scanned` is the stored entry that it was made from. -/
structure Queued where
  entry : Entry
  scanned : Entry
  allocation : Nat

structure EntryPriorityQueue where
  agenda : List Queued := []
  seen : List UInt64 := []
  /-- What `RecordPartialEntry` counts: a key, and whether partial matches are allowed. -/
  partialEntries : List (Bytes × Bool) := []
  allocated : Nat := 0

namespace EntryPriorityQueue

variable (queue : EntryPriorityQueue)

def size : Nat := queue.agenda.length

def newEntry : EntryPriorityQueue := { queue with allocated := queue.allocated + 1 }

/-- `Push` of the entry that was allocated last. A value is taken once. -/
def push (modules : HistoryModules) (entry scanned : Entry) : EntryPriorityQueue :=
  let hash := modules.hashOf entry.value
  if hash ∈ queue.seen then queue
  else
    { queue with
      seen := hash :: queue.seen
      agenda := queue.agenda ++ [⟨entry, scanned, queue.allocated⟩] }

def recordPartialEntry (entry : Entry) : EntryPriorityQueue :=
  { queue with
    partialEntries := (entry.key, entry.allowPartialMatch) :: queue.partialEntries }

/-- `GetPartialCount` -/
def partialCount (key : Bytes) (allowed : Bool) : Nat :=
  queue.partialEntries.countP fun e => e.1 = key && e.2 = allowed

end EntryPriorityQueue

/-! ## Partial matches -/

structure PartialMatch where
  key : Bytes
  value : Bytes
  resultAttributes : UInt32
  innerSegmentBoundary : List UInt32

/-- The lambda `is_valid_suffix`. -/
def isValidSuffix (suffixValue : Bytes) : Bytes → List InnerSegment → Bool
  | _, [] => false
  | value, iter :: rest =>
    let value := value.drop iter.contentValue.length
    if value.isEmpty then false
    else if value = suffixValue then true
    else isValidSuffix suffixValue (value.drop iter.functionalValue.length) rest

/-- The boundary of the entry and the suffix. A function word is merged into the entry. -/
def partialBoundary (modules : HistoryModules) (entry : Entry) (suffix : Result) :
    InnerSegmentBoundaryBuilder :=
  match suffix.innerSegments with
  | [] => {}
  | iter :: rest =>
    let first : InnerSegmentBoundaryBuilder :=
      if modules.posMatcher.isFunctional suffix.lid && iter.functionalKey.isEmpty &&
          iter.functionalValue.isEmpty then
        ({} : InnerSegmentBoundaryBuilder).add (entry.key.length + iter.key.length)
          (entry.value.length + iter.value.length) entry.key.length entry.value.length
      else
        (({} : InnerSegmentBoundaryBuilder).add entry.key.length entry.value.length
          entry.key.length entry.value.length).addSegment iter
    rest.foldl .addSegment first

def kMaxSuffixLen : Nat := 10
def kPartialMatchSize : Nat := 3

/-- `GetKeyValueForPartialMatch` -/
def getPartialMatch (modules : HistoryModules) (request : ConversionRequest) (requestKey : Bytes)
    (entry : Entry) (queue : EntryPriorityQueue) : EntryPriorityQueue × Option PartialMatch :=
  if !entry.key.isPrefixOf requestKey || requestKey.length ≤ entry.key.length then (queue, none)
  else
    let queue := queue.recordPartialEntry entry
    if !entry.allowPartialMatch then (queue, none)
    else
      let suffix := requestKey.drop entry.key.length
      if kMaxSuffixLen < charsLen suffix then (queue, none)
      else if kPartialMatchSize < queue.partialCount entry.key true then (queue, none)
      else
        let attr : UInt32 :=
          if 0 < queue.partialCount entry.key false then WEAK_CANDIDATE else 0
        match modules.decodeSuffix 0 requestKey,
            modules.decodeSuffix modules.firstNameId suffix with
        | some fullResult, some suffixResult =>
          let cost := suffixResult.cost + modules.prefixPenalty modules.firstNameId +
            modules.transitionCost 0 modules.firstNameId
          let good := cost + request.partialPrefixWcost ≤ fullResult.cost ∨
            isValidSuffix suffixResult.value fullResult.value fullResult.innerSegments = true
          if good ∨ cost + request.partialWeakPrefixWcost ≤ fullResult.cost then
            let key := entry.key ++ suffixResult.key
            let value := entry.value ++ suffixResult.value
            (queue, some
              { key, value
                resultAttributes := (if good then attr else attr ||| WEAK_CANDIDATE) |||
                  POPULATE_INNER_SEGMENT_BOUNDARY
                innerSegmentBoundary :=
                  (partialBoundary modules entry suffixResult).build key value })
          else (queue, none)
        | _, _ => (queue, none)

/-! ## Entries for the queue -/

/-- `AddEntry`. Removed entries are added too, so that they can be chained. -/
def addEntry (entry : Entry) : Entry :=
  if entry.innerSegmentBoundary.isEmpty then entry.setAttribute EMPTY_INNER_SEGMENT_BOUNDARY
  else entry

/-- `AddEntryWithNewKeyValue` -/
def addEntryWithNewKeyValue (storage : UserHistoryStorage city) (key value : Bytes)
    (boundary : List UInt32) (entry : Entry) : Entry :=
  let newEntry := addEntry entry
  { newEntry with
    key, value
    innerSegmentBoundary := if boundary.isEmpty then newEntry.innerSegmentBoundary else boundary
    removed := (storage.lookup (fingerprint city key value)).any (·.removed) }

def allowLowFreqFullSentenceEntryMatch (requestKey : Bytes) (mtype : MatchType) (entry : Entry) :
    Bool :=
  match mtype with
  | .exactMatch => true
  | .leftPrefixMatch =>
    let segments := innerSegments entry.key entry.value entry.innerSegmentBoundary
    ((segments.take (entry.innerSegmentBoundary.length - 1)).map (·.key.length)).sum <
      requestKey.length
  | .rightPrefixMatch => entry.allowPartialMatch
  | _ => false

end Mozkey.Prediction
