import Mozkey.Prediction.HistoryLookup
import Mathlib.Data.List.Sort

/-!
# The results of the history

`prediction/user_history_predictor.cc`: `LookupPrevEntry`, `MakeResults`, `Predict` and `Convert`.
-/

/-!
## Scanning the history

`prediction/user_history_predictor.cc`: `LookupEntry` and its siblings, and the loops over the
storage that fill the queue, for a prediction and for a conversion.
-/

namespace Mozkey.Prediction

open Infra Base Converter

variable {city : City}

/-! ## LookupEntry -/

/-- The locals of `LookupEntry` behind the `switch`. -/
structure Looked where
  queue : EntryPriorityQueue
  result : Option Entry := none
  lastEntry : Option Entry := none
  leftLastAccessTime : Nat
  leftMostLastAccessTime : Nat

/-- A chain that is too short leaves its last word and its times behind. -/
def Looked.withChain (looked : Looked) (chain : Chain) : Looked :=
  { looked with
    lastEntry := chain.lastEntry
    leftLastAccessTime := chain.leftLastAccessTime
    leftMostLastAccessTime := chain.leftMostLastAccessTime }

def Looked.found (looked : Looked) (result : Entry) : Looked :=
  { looked with queue := looked.queue.newEntry, result := some result }

/-- The `switch` of `LookupEntry`. -/
def lookUpMatch (storage : UserHistoryStorage city) (modules : HistoryModules)
    (request : ConversionRequest) (requestKey : Bytes) (entry : Entry) (prevEntry : Option Entry)
    (exactMatchOnly : Bool) (mtype : MatchType) (queue : EntryPriorityQueue) : Looked :=
  let preferExactMatch := request.mixedConversion || exactMatchOnly
  let start : Looked :=
    { queue
      leftLastAccessTime := entry.lastAccessTime
      leftMostLastAccessTime := if isContentWord entry.value then entry.lastAccessTime else 0 }
  let copied := { start.found (addEntry entry) with lastEntry := some entry }
  let chained := getChain storage requestKey preferExactMatch entry none start.leftLastAccessTime
    start.leftMostLastAccessTime
  let joined := addEntryWithNewKeyValue storage chained.2.key chained.2.value
    (chained.2.builder.build chained.2.key chained.2.value) entry
  match mtype with
  | .noMatch => start
  | .leftEmptyMatch => if hasBigramEntry city request entry prevEntry then copied else start
  | .leftPrefixMatch => copied
  | .rightPrefixMatch =>
    let start := if exactMatchOnly then start else start.withChain chained.2
    if !exactMatchOnly && chained.1 then start.found joined
    else
      match getPartialMatch modules request requestKey entry queue with
      | (queue, none) => { start with queue }
      | (queue, some m) =>
        { start with queue }.found
          ((addEntryWithNewKeyValue storage m.key m.value m.innerSegmentBoundary
            entry).setAttribute m.resultAttributes)
  | .exactMatch =>
    if preferExactMatch then copied
    else if chained.1 then (start.withChain chained.2).found joined
    else start.withChain chained.2

def kBigramLinkAsTime : Nat := 10

/-- The time and the boost that the new entry gets from the word in front of it. -/
def boosted (city : City) (request : ConversionRequest) (entry : Entry) (prevEntry : Option Entry)
    (mtype : MatchType) (result : Entry) : Entry :=
  let result := result.removeAttribute BIGRAM_BOOST
  let result :=
    match prevEntry with
    | some prev =>
      match bigramEntryLruOrder city entry prev with
      | some order =>
        if mtype = .leftEmptyMatch then
          { result with
            lastAccessTime := (prev.lastAccessTime + kBigramLinkAsTime * order) % 2 ^ 64 }
        else result
      | none => result
    | none => result
  if hasBigramEntry city request entry prevEntry then result.setAttribute BIGRAM_BOOST else result

/-- The words were input within ten seconds. The times are compared as 32-bit integers. -/
def inputTogether (time lastTime : Nat) : Bool :=
  let difference := (time + 2 ^ 64 - lastTime) % 2 ^ 32
  difference ≤ 10 || 2 ^ 32 - 10 ≤ difference

/-- `result2`, the result and the word that followed it. -/
def joinedResult (storage : UserHistoryStorage city) (requestKey : Bytes) (looked : Looked)
    (result : Entry) : Option Entry := do
  let lastEntry ← looked.lastEntry
  if 1 ≤ charsLen result.key ∧ charsLen result.key ≤ 2 * charsLen requestKey then
    let next ← nextEntry storage (fun _ => true) looked.leftLastAccessTime
      looked.leftMostLastAccessTime lastEntry.nextEntryFps
    if inputTogether next.lastAccessTime lastEntry.lastAccessTime &&
        !startsWithPunctuation next.value && isContentWord next.value then
      let key := result.key ++ next.key
      let value := result.value ++ next.value
      let builder := appendInnerBoundary (appendInnerBoundary {} result) next
      some (addEntryWithNewKeyValue storage key value (builder.build key value) result)
    else none
  else none

/-- `LookupEntry`, and whether the entry matched. -/
def lookupEntry (storage : UserHistoryStorage city) (modules : HistoryModules)
    (request : ConversionRequest) (requestKey keyBase : Bytes) (keyExpanded : Option KeyExpanded)
    (entry : Entry) (prevEntry : Option Entry) (exactMatchOnly : Bool)
    (queue : EntryPriorityQueue) : EntryPriorityQueue × Bool :=
  let mtype := getMatchTypeFromInput requestKey keyBase keyExpanded entry.key
  if mtype = .noMatch then (queue, false)
  else if exactMatchOnly && mtype ≠ .rightPrefixMatch && mtype ≠ .exactMatch then (queue, false)
  else if !exactMatchOnly && isLowFreqFullSentenceEntry request entry &&
      !allowLowFreqFullSentenceEntryMatch requestKey mtype entry then (queue, false)
  else
    let looked :=
      lookUpMatch storage modules request requestKey entry prevEntry exactMatchOnly mtype queue
    match looked.result with
    | none => (looked.queue, false)
    | some result =>
      let result := boosted city request entry prevEntry mtype result
      -- a result without a frequency comes from a commit that was reverted
      let queue :=
        if !result.removed && 0 < result.suggestionFreq then
          looked.queue.push modules result entry
        else looked.queue
      if request.mixedConversion || exactMatchOnly then (queue, true)
      else
        match joinedResult storage requestKey looked result with
        | none => (queue, true)
        | some result2 =>
          let queue := queue.newEntry
          (if !result2.removed then queue.push modules result2 entry else queue, true)

/-! ## Romanised keys -/

/-- The counters of hiragana, of unknown letters and of Latin letters. -/
def maybeRomanMisspelledFrom : Nat → Nat → Nat → List Nat → Bool
  | numHiragana, numUnknown, numAlpha, [] =>
    0 < numHiragana &&
      ((numAlpha = 1 && numUnknown = 0) || (numAlpha = 0 && numUnknown = 1))
  | numHiragana, numUnknown, numAlpha, codepoint :: rest =>
    let type := getScriptType codepoint
    if type = .hiragana ∨ codepoint = 0x30FC then
      maybeRomanMisspelledFrom (numHiragana + 1) numUnknown numAlpha rest
    else if type = .unknownScript ∧ numUnknown = 0 then
      maybeRomanMisspelledFrom numHiragana (numUnknown + 1) numAlpha rest
    else if type = .alphabet ∧ numAlpha = 0 then
      maybeRomanMisspelledFrom numHiragana numUnknown (numAlpha + 1) rest
    else false

def maybeRomanMisspelledKey (key : Bytes) : Bool := maybeRomanMisspelledFrom 0 0 0 (utf8ToUtf32 key)

def getRomanMisspelledKey (modules : HistoryModules) (request : ConversionRequest) : Bytes :=
  if request.romanPreedit && !request.key.isEmpty && maybeRomanMisspelledKey request.key then
    modules.toRoman request.key
  else []

def isalnum (c : UInt8) : Bool :=
  ('0'.toNat ≤ c.toNat && c.toNat ≤ '9'.toNat) || ('A'.toNat ≤ c.toNat && c.toNat ≤ 'Z'.toNat) ||
    ('a'.toNat ≤ c.toNat && c.toNat ≤ 'z'.toNat)

/-- One letter may be missing, or two may be swapped. Only the first difference is looked at. -/
def romanFuzzyPrefixMatch (str pre : Bytes) : Bool :=
  if pre.isEmpty || str.length < pre.length then false
  else
    match (List.range pre.length).find? fun i => pre[i]? ≠ str[i]? with
    | none => false
    | some i =>
      let strChar := str.getD i 0
      let preChar := pre.getD i 0
      if strChar = '-'.toNat.toUInt8 then
        !isalnum preChar && (pre.set i strChar).isPrefixOf str
      else
        (pre.insertIdx i strChar).isPrefixOf str ||
          (i + 1 < pre.length &&
            ((pre.set i (pre.getD (i + 1) 0)).set (i + 1) preChar).isPrefixOf str)

def romanFuzzyLookupEntry (modules : HistoryModules) (romanRequestKey : Bytes) (entry : Entry)
    (queue : EntryPriorityQueue) : EntryPriorityQueue × Bool :=
  if romanRequestKey.isEmpty then (queue, false)
  else if !romanFuzzyPrefixMatch (modules.toRoman entry.key) romanRequestKey then (queue, false)
  else (queue.newEntry.push modules (entry.setAttribute SPELLING_CORRECTION) entry, true)

/-! ## Zero query -/

/-- The rest of an entry behind the word that was committed last. -/
def zeroQueryEntry (entry prev : Entry) : Entry :=
  { entry with
    key := entry.key.drop prev.key.length
    value := entry.value.drop prev.value.length }.setAttribute BIGRAM_BOOST

def zeroQueryLookupEntry (modules : HistoryModules) (request : ConversionRequest)
    (requestKey : Bytes) (entry : Entry) (prevEntry : Option Entry) (queue : EntryPriorityQueue) :
    EntryPriorityQueue × Bool :=
  match prevEntry with
  | none => (queue, false)
  | some prev =>
    if request.zeroQuerySuggestion && requestKey.isEmpty && prev.key.length < entry.key.length &&
        prev.value.length < entry.value.length && prev.key.isPrefixOf entry.key &&
        prev.value.isPrefixOf entry.value then
      if !startsWithValidLetter (entry.value.drop prev.value.length) then (queue, false)
      else (queue.newEntry.push modules (zeroQueryEntry entry prev) entry, true)
    else (queue, false)

/-! ## The loops over the storage -/

/-- `ForEach`, until the queue is full. -/
def forEach (storage : UserHistoryStorage city) (maxEntryQueueSize : Nat)
    (visit : Entry → EntryPriorityQueue → EntryPriorityQueue) :
    List UInt64 → EntryPriorityQueue → EntryPriorityQueue
  | [], queue => queue
  | fp :: fps, queue =>
    if maxEntryQueueSize ≤ queue.size then queue
    else
      match storage.lookup fp with
      | none => forEach storage maxEntryQueueSize visit fps queue
      | some entry => forEach storage maxEntryQueueSize visit fps (visit entry queue)

def getTypingCorrectedQueries (modules : HistoryModules) (request : ConversionRequest) :
    List TypeCorrectedQuery :=
  if request.typingCorrectionApplyUserHistorySize = 0 || !request.useTypingCorrection then []
  else (modules.correctComposition request).take request.typingCorrectionApplyUserHistorySize

/-- The loop over the corrected queries, until one of them matches. -/
def lookupCorrected (storage : UserHistoryStorage city) (modules : HistoryModules)
    (request : ConversionRequest) (entry : Entry) (prevEntry : Option Entry) :
    List TypeCorrectedQuery → EntryPriorityQueue → EntryPriorityQueue
  | [], queue => queue
  | c :: corrected, queue =>
    if c.better then
      let looked :=
        lookupEntry storage modules request c.correction c.correction none entry prevEntry false
          queue
      if looked.2 then looked.1
      else lookupCorrected storage modules request entry prevEntry corrected looked.1
    else lookupCorrected storage modules request entry prevEntry corrected queue

/-- What the lambda of `CreateEntryQueueFromHistoryForPrediction` does to the queue. -/
def visitForPrediction (storage : UserHistoryStorage city) (modules : HistoryModules)
    (request : ConversionRequest) (prevEntry : Option Entry) (entry : Entry)
    (queue : EntryPriorityQueue) : EntryPriorityQueue :=
  if !isValidEntryIgnoringRemovedField modules entry then queue
  else
    let requestKey := request.stringForPreedit
    let looked :=
      lookupEntry storage modules request requestKey request.queryBase
        (expandedTrie request.expandedSet) entry prevEntry false queue
    if looked.2 then looked.1
    else if isLowFreqFullSentenceEntry request entry then looked.1
    else
      let roman :=
        romanFuzzyLookupEntry modules (getRomanMisspelledKey modules request) entry looked.1
      if roman.2 then roman.1
      else
        let zero := zeroQueryLookupEntry modules request requestKey entry prevEntry roman.1
        if zero.2 then zero.1
        else
          lookupCorrected storage modules request entry prevEntry
            (getTypingCorrectedQueries modules request) zero.1

def createEntryQueueFromHistoryForPrediction (storage : UserHistoryStorage city)
    (modules : HistoryModules) (request : ConversionRequest) (prevEntry : Option Entry)
    (maxEntryQueueSize : Nat) : EntryPriorityQueue :=
  forEach storage maxEntryQueueSize (visitForPrediction storage modules request prevEntry)
    storage.fps {}

def visitForConversion (storage : UserHistoryStorage city) (modules : HistoryModules)
    (request : ConversionRequest) (prevEntry : Option Entry) (entry : Entry)
    (queue : EntryPriorityQueue) : EntryPriorityQueue :=
  if !isValidEntryIgnoringRemovedField modules entry then queue
  else
    let requestKey :=
      if request.useExplicitKeyForUserHistoryConversion then request.key
      else request.queryForConversion
    (lookupEntry storage modules request requestKey requestKey none entry prevEntry true queue).1

def createEntryQueueFromHistoryForConversion (storage : UserHistoryStorage city)
    (modules : HistoryModules) (request : ConversionRequest) (prevEntry : Option Entry)
    (maxEntryQueueSize : Nat) : EntryPriorityQueue :=
  forEach storage maxEntryQueueSize (visitForConversion storage modules request prevEntry)
    storage.fps {}

end Mozkey.Prediction

namespace Mozkey.Converter.Attribute

def NO_EXTRA_DESCRIPTION : UInt32 := (1 : UInt32) <<< 7
def USER_HISTORY_PREDICTION : UInt32 := (1 : UInt32) <<< 14
def BIGRAM : UInt32 := (1 : UInt32) <<< 21
def WEAK_USER_HISTORY_PREDICTION : UInt32 := (1 : UInt32) <<< 28
def USER_HISTORY_EMPTY_INNER_SEGMENT_BOUNDARY : UInt32 := (1 : UInt32) <<< 31

end Mozkey.Converter.Attribute

namespace Mozkey.Prediction

open Infra Base Converter

variable {city : City}

/-! ## The word in front -/

def kMaxPrevValueTrial : Nat := 500

/-- The entry of the longest context, or one whose value ends the last word. -/
def lookupPrevEntry (storage : UserHistoryStorage city) (modules : HistoryModules)
    (request : ConversionRequest) : Option Entry :=
  let size := request.historyResult.innerSegments.length
  if size = 0 then none
  else
    let contexts := (List.range size).map fun i =>
      converterHistory request.toLearningRequest (size - i)
    let prevEntry := contexts.findSome? fun c => storage.lookup (fingerprint city c.1 c.2)
    if prevEntry.all (·.nextEntryFps.isEmpty) then
      let prevValue :=
        (prevEntry.map (·.value)).getD (converterHistory request.toLearningRequest 1).2
      let prevFp := prevEntry.map fun e => fingerprint city e.key e.value
      let found :=
        ((storage.fps.take kMaxPrevValueTrial).filter fun fp => prevFp ≠ some fp).findSome?
        fun fp => (storage.lookup fp).filter fun e =>
          isValidEntry modules e && !e.nextEntryFps.isEmpty && 2 ≤ charsLen e.value &&
            e.value.isSuffixOf prevValue
      found.or prevEntry
    else prevEntry

/-! ## The order of the queue -/

def kBigramBoostAsTime : Nat := 7 * 24 * 60 * 60

/-- `GetScore`, an unsigned 32-bit number. -/
def getScore (entry : Entry) : Nat :=
  (((entry.lastAccessTime : Int) - charsLen entry.value +
    if entry.has BIGRAM_BOOST then kBigramBoostAsTime else 0) % 2 ^ 32).toNat

/-- Whether `a` is popped in front of `b`. Equal scores are compared by their addresses. -/
def poppedBefore (modules : HistoryModules) (a b : Queued) : Bool :=
  getScore b.entry < getScore a.entry ||
    (getScore a.entry = getScore b.entry &&
      modules.address b.allocation ≤ modules.address a.allocation)

/-- The elements in the order of `Pop`. -/
def EntryPriorityQueue.popAll (queue : EntryPriorityQueue) (modules : HistoryModules) :
    List Queued :=
  queue.agenda.insertionSort fun a b => poppedBefore modules a b = true

/-! ## Which entries are shown -/

def isScriptTypeHiragana (str : Bytes) : Bool :=
  (utf8ToUtf32 str).all fun codepoint =>
    getScriptType codepoint = .hiragana || codepoint = 0x30FC

/-- The lambda `starts_with`: only hiragana may follow. -/
def extendsByHiragana (text pre : Bytes) : Bool :=
  pre.isPrefixOf text && isScriptTypeHiragana (text.drop pre.length)

/-- The locals `entries` and `inserted_char_coverage`. -/
structure Selection where
  entries : List Queued := []
  insertedCharCoverage : Nat := 0

/-- The loop of `MakeResults` over the popped elements. -/
def selectEntries (maxPredictionSize maxPredictionCharCoverage : Nat) :
    List Queued → Selection → List Queued
  | [], s => s.entries
  | q :: rest, s =>
    let select := selectEntries maxPredictionSize maxPredictionCharCoverage rest
    let value := q.entry.value
    if maxPredictionSize ≤ s.entries.length then s.entries
    else if !isValidUtf8 value then select s
    else if s.entries.any fun inserted => extendsByHiragana value inserted.entry.value then select s
    else
      match s.entries.findIdx? fun inserted => extendsByHiragana inserted.entry.value value with
      | some i =>
        let replaced := (s.entries[i]?.map (·.entry.value)).getD []
        select
          { entries := s.entries.set i q
            insertedCharCoverage :=
              s.insertedCharCoverage - charsLen replaced + charsLen value }
      | none =>
        if 0 < maxPredictionCharCoverage && !s.entries.isEmpty &&
            maxPredictionCharCoverage < s.insertedCharCoverage + charsLen value then s.entries
        else
          select
            { entries := s.entries ++ [q]
              insertedCharCoverage := s.insertedCharCoverage + charsLen value }

/-! ## Results -/

structure DisplayedResult extends toPredictionResult : Result where
  displayValue : Bytes := []

def kEmoticonDescription : Bytes := utf8 "顔文字"

def isEmoticonDescription (description : Bytes) : Bool :=
  description = kEmoticonDescription || (utf8 "顔文字 ").isPrefixOf description

def isEmojiDescription (description : Bytes) : Bool :=
  description = kEmojiDescription || (utf8 "絵文字 ").isPrefixOf description

structure UserDictionaryEmoticonMatch where
  hasEmoticon : Bool := false
  hasUnconstrained : Bool := false

/-- The callback on the tokens, until one of them is not an emoticon. -/
def userDictionaryEmoticonMatch (value : Bytes) :
    List UserDictionaryToken → UserDictionaryEmoticonMatch → UserDictionaryEmoticonMatch
  | [], found => found
  | token :: tokens, found =>
    if token.value ≠ value then userDictionaryEmoticonMatch value tokens found
    else if token.isEmoticon then
      userDictionaryEmoticonMatch value tokens { found with hasEmoticon := true }
    else { found with hasUnconstrained := true }

def getUserDictionaryEmoticonMatch (modules : HistoryModules) (key value : Bytes) :
    UserDictionaryEmoticonMatch :=
  userDictionaryEmoticonMatch value (modules.userDictionaryTokens key) {}

def hasNoTop (modules : HistoryModules) (entry : Entry) : Bool :=
  let found := getUserDictionaryEmoticonMatch modules entry.key entry.value
  (entry.entryFlags &&& ENTRY_FLAG_NO_TOP_RANK != 0 || isEmoticonDescription entry.description ||
    isEmojiDescription entry.description || found.hasEmoticon) && !found.hasUnconstrained

/-- Whether the input has not reached the last of several segments. -/
def isShorterThanLastSegment (request : ConversionRequest) (entry : Entry) : Bool :=
  request.mixedConversion && !request.key.isEmpty && 1 < entry.innerSegmentBoundary.length &&
    request.key.length ≤
      ((((innerSegments entry.key entry.value entry.innerSegmentBoundary).take
        (entry.innerSegmentBoundary.length - 1)).map (·.key.length)).sum)

def resultAttributes (request : ConversionRequest) (entry : Entry) : UInt32 :=
  let set := fun (b : Bool) (flag : UInt32) => if b then flag else 0
  Attribute.USER_HISTORY_PREDICTION ||| Attribute.NO_VARIANTS_EXPANSION |||
    set (entry.innerSegmentBoundary.isEmpty || entry.has EMPTY_INNER_SEGMENT_BOUNDARY)
      Attribute.USER_HISTORY_EMPTY_INNER_SEGMENT_BOUNDARY |||
    set (entry.has SPELLING_CORRECTION) Attribute.SPELLING_CORRECTION |||
    set (entry.has WEAK_CANDIDATE || isShorterThanLastSegment request entry)
      Attribute.WEAK_USER_HISTORY_PREDICTION |||
    set (entry.has BIGRAM_BOOST) Attribute.BIGRAM |||
    set (!entry.description.isEmpty) Attribute.NO_EXTRA_DESCRIPTION

def kPrefixDisplaySpace : Bytes := utf8 "␣"

def maybeRewritePrefixSpace (request : ConversionRequest) (result : DisplayedResult) :
    DisplayedResult :=
  match [kPrefixZeroSpace, kPrefixFullSpace, kPrefixHalfSpace].find? fun space =>
      space.isPrefixOf result.key && space.isPrefixOf result.value with
  | none => result
  | some space =>
    let output :=
      if request.halfWidthSpace || request.halfAsciiInput then kPrefixHalfSpace
      else kPrefixFullSpace
    { result with
      innerSegmentBoundary := []
      displayValue :=
        if request.displayValueCapability then
          kPrefixDisplaySpace ++ result.value.drop space.length
        else result.displayValue
      key := output ++ result.key.drop space.length
      value := output ++ result.value.drop space.length }

def toResult (modules : HistoryModules) (request : ConversionRequest) (entry : Entry) :
    DisplayedResult :=
  maybeRewritePrefixSpace request
    { key := entry.key
      value := entry.value
      attributes := resultAttributes request entry
      rankingConstraints :=
        if hasNoTop modules entry then RankingConstraint.NO_TOP else RankingConstraint.NONE
      innerSegmentBoundary :=
        if request.requestType = .conversion || entry.has POPULATE_INNER_SEGMENT_BOUNDARY then
          entry.innerSegmentBoundary
        else []
      description := entry.description }

/-- `MakeResults` -/
def makeResults (modules : HistoryModules) (request : ConversionRequest)
    (maxPredictionSize maxPredictionCharCoverage : Nat) (queue : EntryPriorityQueue) :
    List DisplayedResult :=
  (selectEntries maxPredictionSize maxPredictionCharCoverage (queue.popAll modules) {}).map
    fun q => toResult modules request q.entry

/-! ## Predict and Convert -/

/-- `ShouldPredict`, with the syncer idle. -/
def shouldPredict (storage : UserHistoryStorage city) (request : ConversionRequest) : Bool :=
  if storage.fps.isEmpty || request.incognitoMode ||
      request.historyLearningLevel = .noHistory then false
  else
    match request.requestType with
    | .suggestion | .prediction | .partialSuggestion | .partialPrediction =>
      !(request.key.isEmpty && !request.zeroQuerySuggestion) && request.useHistorySuggest &&
        !startsWithPunctuation request.key
    | .conversion => !request.key.isEmpty
    | .reverseConversion => true

def maxPredictionSize (request : ConversionRequest) : Nat :=
  if request.zeroQuerySuggestion && request.key.isEmpty then request.maxCandidatesSizeForZeroQuery
  else if 0 < request.maxCharCoverage then 3
  else request.maxCandidatesSize

/-- The queue of `Predict`, when it is not given up early. -/
def predictionQueue (storage : UserHistoryStorage city) (modules : HistoryModules)
    (request : ConversionRequest) : EntryPriorityQueue :=
  createEntryQueueFromHistoryForPrediction storage modules request
    (lookupPrevEntry storage modules request) (maxPredictionSize request * 5)

def kMaxCandidatesSize : Nat := 5

/-- The queue of `Convert`. -/
def conversionQueue (storage : UserHistoryStorage city) (modules : HistoryModules)
    (request : ConversionRequest) : EntryPriorityQueue :=
  createEntryQueueFromHistoryForConversion storage modules request
    (lookupPrevEntry storage modules request) kMaxCandidatesSize

namespace UserHistoryPredictor

/-- A commit that was reverted is settled before the first prediction for a new input. -/
def beforePredict (p : UserHistoryPredictor city) (modules : HistoryModules)
    (request : ConversionRequest) : UserHistoryPredictor city :=
  if request.key.isEmpty then p
  else p.maybeProcessPartialRevertEntry modules.toModules request.precedingText

def predict (p : UserHistoryPredictor city) (modules : HistoryModules)
    (request : ConversionRequest) : UserHistoryPredictor city × List DisplayedResult :=
  let p := p.beforePredict modules request
  (p,
    if !shouldPredict p.storage request then []
    else if request.key.isEmpty && (lookupPrevEntry p.storage modules request).isNone &&
        !isPrecedingNumber request then []
    else
      makeResults modules request (maxPredictionSize request) request.maxCharCoverage
        (predictionQueue p.storage modules request))

def convert (p : UserHistoryPredictor city) (modules : HistoryModules)
    (request : ConversionRequest) : List DisplayedResult :=
  if !shouldPredict p.storage request then []
  else makeResults modules request kMaxCandidatesSize 0 (conversionQueue p.storage modules request)

end UserHistoryPredictor

end Mozkey.Prediction
