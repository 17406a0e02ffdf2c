import Mozkey.Prediction.LearningSegments

/-!
# Committing to the history

`prediction/user_history_predictor.cc`: `Insert`, `InsertHistory`, `MaybeRemoveUnselectedHistory`
and `Finish`. The calls of `Insert` do not depend on the storage, so they are listed first. The
time is a parameter, and the syncer is idle.
-/

namespace Mozkey.Prediction

open Infra Base Converter

variable {city : City}

/-- An entry that a storage may keep. -/
abbrev KeptEntry := { entry : Entry // entry.key ≠ [] ∧ entry.value ≠ [] }

namespace KeptEntry

def fp (city : City) (e : KeptEntry) : UInt64 := fingerprint city e.1.key e.1.value

end KeptEntry

namespace UserHistoryStorage

variable {storage : UserHistoryStorage city} {fp fp' : UInt64} {e : KeptEntry}

def lookupKept (storage : UserHistoryStorage city) (fp : UInt64) : Option KeptEntry :=
  match h : storage.lookup fp with
  | none => none
  | some entry => some ⟨entry, key_ne_nil h, value_ne_nil h⟩

/-- `Insert` of the fingerprint, and what is written to the entry. It is the latest one then. -/
def put (storage : UserHistoryStorage city) (e : KeptEntry) : UserHistoryStorage city where
  items := storage.items.insert (e.fp city) e.1
  stored fp entry h := by
    by_cases hfp : fp = e.fp city
    · subst hfp
      rw [RecencyMap.get?_insert_self, Option.some.injEq] at h
      subst h
      exact ⟨rfl, e.2⟩
    · exact storage.stored fp entry (RecencyMap.get?_of_insert hfp h)

/-- The entry under the fingerprint of `e` is replaced in its place. -/
def assign (storage : UserHistoryStorage city) (e : KeptEntry) : UserHistoryStorage city where
  items := storage.items.adjust (e.fp city) fun _ => e.1
  stored fp entry h := by
    rw [RecencyMap.get?_adjust] at h
    split at h
    · next hfp =>
      obtain ⟨old, -, rfl⟩ := Option.map_eq_some_iff.mp h
      exact ⟨hfp, e.2⟩
    · exact storage.stored fp entry h

theorem lookupKept_eq_some : storage.lookupKept fp = some e ↔ storage.lookup fp = some e.1 := by
  unfold lookupKept
  split
  · next h => simp [h]
  · next entry h => simp [h, Subtype.ext_iff]

theorem lookupKept_eq_none : storage.lookupKept fp = none ↔ storage.lookup fp = none := by
  unfold lookupKept
  split
  · next h => simp [h]
  · next entry h => simp [h]

theorem lookup_assign : (storage.assign e).lookup fp =
    if fp = e.fp city then (storage.lookup fp).map fun _ => e.1 else storage.lookup fp :=
  RecencyMap.get?_adjust

end UserHistoryStorage

/-! ## What is recorded -/

structure RevertRecord where
  keyBegin : Nat
  valueBegin : Nat
  revertEntry : KeptEntry

structure RevertEntries where
  /-- The value of the committed result. -/
  resultValue : Bytes := []
  reversibleExternalLearning : Bool := false
  historyEntry : Option KeptEntry := none
  entries : List RevertRecord := []

/-- The storage during a commit, and what was recorded so far. -/
structure Learning (city : City) where
  storage : UserHistoryStorage city
  revertEntries : RevertEntries := {}

namespace Learning

def record (state : Learning city) (r : RevertRecord) : RevertEntries :=
  { state.revertEntries with entries := state.revertEntries.entries ++ [r] }

end Learning

/-! ## Insertion -/

def ENTRY_FLAG_NONE : UInt32 := 0
def ENTRY_FLAG_LEFT_NUMBER : UInt32 := (1 : UInt32) <<< 0
def ENTRY_FLAG_NO_TOP_RANK : UInt32 := (1 : UInt32) <<< 1

def kMaxStringLength : Nat := 1024
def kMaxNextEntriesSize : Nat := 6

/-- `InsertNextEntry` -/
def insertNextEntry (fps : List UInt64) (fp : UInt64) : List UInt64 :=
  if fp = 0 then fps
  else
    let fps := fps.filter (· ≠ fp) ++ [fp]
    fps.drop (fps.length - kMaxNextEntriesSize)

def insertNextEntries (nextFps : List UInt64) (entry : Entry) : Entry :=
  { entry with nextEntryFps := nextFps.foldl insertNextEntry entry.nextEntryFps }

/-- The arguments of a call of `Insert`. -/
structure HistoryWrite where
  keyBegin : Nat := 0
  valueBegin : Nat := 0
  key : Bytes
  value : Bytes
  description : Bytes := []
  innerSegmentBoundary : List UInt32 := []
  nextFps : List UInt64 := []
  allowPartialMatch : Bool := false
  lastAccessTime : Nat
  entryFlags : UInt32 := ENTRY_FLAG_NONE

/-- A call with a key and a value that are accepted. -/
structure AcceptedWrite extends HistoryWrite where
  nonempty : key ≠ [] ∧ value ≠ []
  valid : isValidUtf8 key = true ∧ isValidUtf8 value = true

/-- The checks of `Insert`, behind the removal of white space at the end. -/
def HistoryWrite.accept (w : HistoryWrite) : Option AcceptedWrite :=
  let key := stripTrailingAsciiWhitespace w.key
  let value := stripTrailingAsciiWhitespace w.value
  if hvalid : isValidUtf8 key = true ∧ isValidUtf8 value = true then
    if hne : key ≠ [] ∧ value ≠ [] then
      if kMaxStringLength < key.length ∨ kMaxStringLength < value.length ∨
          kMaxStringLength < w.description.length then none
      -- "よろしく。" was typed directly
      else if startsWithValidLetter value && endsWithPunctuation value then none
      else some { w with key, value, nonempty := hne, valid := hvalid }
    else none
  else none

namespace AcceptedWrite

variable (w : AcceptedWrite)

def fp (city : City) : UInt64 := fingerprint city w.key w.value

/-- What `Insert` makes of the entry that was there, if there was one. -/
def written (old : Option Entry) : KeptEntry :=
  let entry := old.getD {}
  ⟨insertNextEntries w.nextFps
    { entry with
      key := w.key
      value := w.value
      removed := false
      attributes := 0
      entryFlags := entry.entryFlags &&& ~~~ENTRY_FLAG_NO_TOP_RANK ||| w.entryFlags
      allowPartialMatch := w.allowPartialMatch || entry.allowPartialMatch
      description := w.description
      innerSegmentBoundary :=
        if w.innerSegmentBoundary.isEmpty then entry.innerSegmentBoundary
        else w.innerSegmentBoundary
      lastAccessTime := w.lastAccessTime
      suggestionFreq := entry.suggestionFreq + 1 }, w.nonempty⟩

/-- A new entry shall be removed when the commit is reverted. -/
def unwritten (old : Option KeptEntry) : KeptEntry :=
  old.getD ⟨{ key := w.key, value := w.value, removed := true }, w.nonempty⟩

def apply (state : Learning city) : Learning city :=
  let old := state.storage.lookupKept (w.fp city)
  { storage := state.storage.put (w.written (state.storage.lookup (w.fp city)))
    revertEntries := state.record ⟨w.keyBegin, w.valueBegin, w.unwritten old⟩ }

end AcceptedWrite

/-- `Insert` -/
def insert (state : Learning city) (w : HistoryWrite) : Learning city :=
  match w.accept with
  | none => state
  | some w => w.apply state

/-! ## Conversion segments -/

/-- `LearningSegmentFingerprint` -/
def SegmentForLearning.fp (city : City) (segment : SegmentForLearning) : UInt64 :=
  fingerprint city segment.key segment.value

/-- `LearningSegmentFingerprints` -/
def SegmentForLearning.fps (city : City) (segment : SegmentForLearning) : List UInt64 :=
  if segment.key ≠ segment.contentKey then
    [segment.fp city, fingerprint city segment.contentKey segment.contentValue]
  else [segment.fp city]

/-- The bracket that closes both. -/
def closeBracketWrite (key value description : Bytes) (now : Nat) : Option HistoryWrite :=
  match isOpenBracket key, isOpenBracket value with
  | some key, some value => some { key, value, description, lastAccessTime := now }
  | _, _ => none

/-- The calls for one segment. -/
def segmentWrites (segment : SegmentForLearning) (prevValue : Bytes) (nextFpsToSet : List UInt64)
    (allowPartialMatch : Bool) (now : Nat) : List HistoryWrite :=
  let hasContentKv := segment.contentKey ≠ segment.key && segment.contentValue ≠ segment.value
  let entryFlags :=
    if getScriptTypeOfString prevValue = .number then ENTRY_FLAG_LEFT_NUMBER else ENTRY_FLAG_NONE
  let entryFlags :=
    if segment.rankingConstraints &&& RankingConstraint.NO_TOP != 0 then
      entryFlags ||| ENTRY_FLAG_NO_TOP_RANK
    else entryFlags
  let contentWrite : List HistoryWrite :=
    if hasContentKv then
      [{ keyBegin := segment.keyBegin, valueBegin := segment.valueBegin
         key := segment.contentKey, value := segment.contentValue
         description := segment.description, allowPartialMatch, lastAccessTime := now
         entryFlags }]
    else []
  let segmentWrite : HistoryWrite :=
    { keyBegin := segment.keyBegin, valueBegin := segment.valueBegin
      key := segment.key, value := segment.value, description := segment.description
      innerSegmentBoundary :=
        if hasContentKv then
          (({} : InnerSegmentBoundaryBuilder).add segment.key.length segment.value.length
            segment.contentKey.length segment.contentValue.length).build segment.key segment.value
        else []
      nextFps := nextFpsToSet
      allowPartialMatch := allowPartialMatch && !hasContentKv
      lastAccessTime := now, entryFlags }
  let bracketWrite :=
    (closeBracketWrite segment.key segment.value segment.description now).or
      (if hasContentKv then
        closeBracketWrite segment.contentKey segment.contentValue segment.description now
      else none)
  contentWrite ++ [segmentWrite] ++ bracketWrite.toList

/-- The loop over the segments. The links to and from a segment that was seen are left out. -/
def segmentsWrites (city : City) (now : Nat) (allowPartialMatch : Bool) :
    List (List UInt64) → Bool → Bytes → List SegmentForLearning → List HistoryWrite
  | _, _, _, [] => []
  | seen, thisWasSeen, prevValue, segment :: rest =>
    let nextFps := ((rest.head?.map fun next => next.fps city).getD [])
    let isSeen : Bool := nextFps ∈ seen
    segmentWrites segment prevValue (if thisWasSeen || isSeen then [] else nextFps)
        allowPartialMatch now ++
      segmentsWrites city now false (nextFps :: seen) isSeen segment.value rest

/-- The calls of `InsertHistoryForConversionSegments`. -/
def conversionWrites (city : City) (segments : SegmentsForLearning) (now : Nat) :
    List HistoryWrite :=
  let whole : List HistoryWrite :=
    if 1 < segments.conversionSegments.length then
      [{ key := segments.conversionSegmentsKey, value := segments.conversionSegmentsValue
         innerSegmentBoundary := segments.innerSegmentBoundary
         allowPartialMatch := segments.allowPartialMatch, lastAccessTime := now }]
    else []
  whole ++
    segmentsWrites city now segments.allowPartialMatch
      (segments.conversionSegments.head?.map fun segment => segment.fps city).toList false
      ((segments.historySegments.getLast?.map (·.value)).getD []) segments.conversionSegments

/-! ## History segments -/

/-- The last history segment and the first conversion segment, when they are linked. -/
def linkedSegments (segments : SegmentsForLearning) :
    Option (SegmentForLearning × SegmentForLearning) :=
  match segments.historySegments.getLast?, segments.conversionSegments.head? with
  | some history, some conversion =>
    if history.value.isEmpty || conversion.value.isEmpty then none
    else if endsWithPunctuation history.value then none
    else if 1 < charsLen conversion.value && startsWithPunctuation conversion.value then none
    else if segments.hasSpacePrefix &&
        (startsWithPunctuation conversion.value || endsWithPunctuation history.value) then none
    else some (history, conversion)
  | _, _ => none

/-- The call with the space in front. The time stands in the place of the flag for partial matches,
and the flag in that of the time. -/
def spaceWrite (conversion : SegmentForLearning) (now : Nat) : HistoryWrite :=
  { key := kPrefixZeroSpace ++ conversion.key
    value := kPrefixZeroSpace ++ conversion.value
    allowPartialMatch := now ≠ 0
    lastAccessTime := 0 }

namespace UserHistoryStorage

def linkTo (storage : UserHistoryStorage city) (fp : UInt64) (nextFps : List UInt64) :
    UserHistoryStorage city :=
  storage.modify fp (insertNextEntries nextFps) fun _ => ⟨rfl, rfl⟩

end UserHistoryStorage

/-- `InsertHistoryForHistorySegments` -/
def insertHistoryForHistorySegments (segments : SegmentsForLearning) (now : Nat)
    (state : Learning city) : Learning city :=
  match linkedSegments segments with
  | none => state
  | some (history, conversion) =>
    match state.storage.lookupKept (history.fp city) with
    | none => state
    | some historyEntry =>
      let state := { state with
        revertEntries := { state.revertEntries with historyEntry := some historyEntry } }
      if segments.hasSpacePrefix then
        if conversion.key = conversion.contentKey ∧ conversion.value = conversion.contentValue then
          let w := spaceWrite conversion now
          let state := insert state w
          { state with
            storage := state.storage.linkTo (history.fp city) [fingerprint city w.key w.value] }
        else state
      else
        { state with storage := state.storage.linkTo (history.fp city) (conversion.fps city) }

/-- `InsertHistory` -/
def insertHistory (segments : SegmentsForLearning) (now : Nat) (state : Learning city) :
    Learning city :=
  insertHistoryForHistorySegments segments now
    ((conversionWrites city segments now).foldl insert state)

/-! ## Results that were not selected -/

def kMaxHistorySize : Nat := 5

/-- Whether the ratio is below 0.05. The quotient is rounded to a `double` and then to a `float`,
and so is 0.05: what is rounded below it is at most `26843545 / 2 ^ 29 + 1 / 2 ^ 58`. -/
def selectedRatioIsLow (suggestionFreq shownFreq : Nat) : Bool :=
  suggestionFreq * 2 ^ 58 ≤ (26843545 * 2 ^ 29 + 1) * shownFreq

def incrementShown (entry : Entry) : Entry := { entry with shownFreq := entry.shownFreq + 1 }

/-- The loop of `MaybeRemoveUnselectedHistory` for one result. -/
def maybeRemoveUnselected (state : Learning city) (result : Result) : Learning city :=
  let fp := fingerprint city result.key result.value
  match state.storage.lookupKept fp with
  | none => state
  | some entry =>
    let shownFreq := entry.1.shownFreq + 1
    if selectedRatioIsLow entry.1.suggestionFreq shownFreq then
      { storage := state.storage.markRemovedAt fp
        revertEntries :=
          state.record ⟨0, 0, { entry.1 with shownFreq := shownFreq - 1 }, entry.2⟩ }
    else { state with storage := state.storage.modify fp incrementShown fun _ => ⟨rfl, rfl⟩ }

def maybeRemoveUnselectedHistory (results : List Result) (state : Learning city) :
    Learning city :=
  (results.take kMaxHistorySize).foldl maybeRemoveUnselected state

/-! ## Finish -/

structure UserHistoryPredictor (city : City) where
  storage : UserHistoryStorage city
  /-- What `revert_cache_` has for an id. An id is overwritten, others may be forgotten. -/
  revertCache : UInt32 → Option RevertEntries
  lastCommittedEntries : Option RevertEntries

/-- Whether history is learned at all. -/
def historyIsLearned (request : LearningRequest) : Bool :=
  !request.incognitoMode && request.historyLearningLevel = .defaultHistory &&
    request.useHistorySuggest

/-- Whether these results may be remembered. -/
def mayRemember (results : List Result) : Bool :=
  (results.head?.any fun result => !result.has Attribute.NO_SUGGEST_LEARNING) &&
    !isPrivacySensitive results

/-- What the commit makes of the storage, and what it records. -/
def learn (modules : Modules) (storage : UserHistoryStorage city) (request : LearningRequest)
    (results : List Result) (now : Nat) : Learning city :=
  maybeRemoveUnselectedHistory results
    (insertHistory (makeLearningSegments modules storage request results) now
      { storage
        revertEntries :=
          { reversibleExternalLearning := request.reversibleExternalLearning } })

namespace UserHistoryPredictor

def finish (p : UserHistoryPredictor city) (modules : Modules) (request : LearningRequest)
    (results : List Result) (revertId : UInt32) (now : Nat) : UserHistoryPredictor city :=
  if !historyIsLearned request then p
  else
    let p := { p with lastCommittedEntries := none }
    if !mayRemember results then p
    else
      let state := learn modules p.storage request results now
      if state.revertEntries.entries.isEmpty then { p with storage := state.storage }
      else
        let recorded := { state.revertEntries with
          resultValue := (results.head?.map (·.value)).getD [] }
        { p with
          storage := state.storage
          revertCache := fun id => if id = revertId then some recorded else p.revertCache id }

end UserHistoryPredictor

end Mozkey.Prediction
