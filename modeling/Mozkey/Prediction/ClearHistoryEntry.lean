import Mozkey.Converter.InnerSegments
import Mozkey.Infra.Find
import Mozkey.Prediction.HistorySync

/-!
# Clearing a history entry

`prediction/user_history_predictor.cc`: `ClearHistoryEntry`, `RemoveNgramChain` and
`RemoveEntryWithInnerSegment`. Nothing changes while a chain is searched, so the search says which
link is cut.
-/

namespace Mozkey.Prediction

open Infra Converter

variable {city : City}

/-! ## The chain search -/

/-- `RemoveNgramChainResult`. `done` has the entry whose link is cut, and the link. -/
inductive RemoveNgramChainResult where
  | done (parent child : UInt64)
  | tail
  | notFound
deriving DecidableEq

/-- The visited entries, each with the offset in the key at which it was visited. -/
abbrev Seen := List (UInt64 × Nat)

/-- The loop over the links of the entry `parent`. -/
def searchNext (storage : UserHistoryStorage city)
    (visit : UInt64 → Entry → Seen → RemoveNgramChainResult × Seen) (parent : UInt64) :
    List UInt64 → Seen → RemoveNgramChainResult × Seen
  | [], seen => (.notFound, seen)
  | fp :: rest, seen =>
    match storage.lookup fp with
    | none => searchNext storage visit parent rest seen
    | some e =>
      match visit fp e seen with
      | (.done p c, seen) => (.done p c, seen)
      | (.tail, seen) => (.done parent fp, seen)
      | (.notFound, seen) => searchNext storage visit parent rest seen

def kMaxNgramChainDepth : Nat := 32

/-- `remove_ngram_chain_internal` for the entry under `self`, when `depth` more entries fit. -/
def removeNgramChainInternal (storage : UserHistoryStorage city) (targetKey targetValue : Bytes) :
    Nat → List Bytes → List Bytes → Nat → Nat → UInt64 → Entry → Seen →
      RemoveNgramChainResult × Seen
  | 0, _, _, _, _, _, _, seen => (.notFound, seen)
  | depth + 1, keyNgrams, valueNgrams, keyNgramsLen, valueNgramsLen, self, entry, seen =>
    if !entry.key.isPrefixOf (targetKey.drop keyNgramsLen) ||
        !entry.value.isPrefixOf (targetValue.drop valueNgramsLen) then (.notFound, seen)
    else
      let currentFp := fingerprint city entry.key entry.value
      if (currentFp, keyNgramsLen) ∈ seen then (.notFound, seen)
      else
        let seen := (currentFp, keyNgramsLen) :: seen
        let keyNgramsLen := keyNgramsLen + entry.key.length
        let valueNgramsLen := valueNgramsLen + entry.value.length
        let keyNgrams := keyNgrams ++ [entry.key]
        let valueNgrams := valueNgrams ++ [entry.value]
        if keyNgramsLen < targetKey.length ∧ valueNgramsLen < targetValue.length then
          searchNext storage
            (removeNgramChainInternal storage targetKey targetValue depth keyNgrams valueNgrams
              keyNgramsLen valueNgramsLen)
            self entry.nextEntryFps seen
        else if keyNgramsLen = targetKey.length ∧ valueNgramsLen = targetValue.length then
          if keyNgrams.flatten = targetKey ∧ valueNgrams.flatten = targetValue then (.tail, seen)
          else (.notFound, seen)
        else (.notFound, seen)

/-- The link that `RemoveNgramChain` cuts. Without one it returns false. -/
def removeNgramChain (storage : UserHistoryStorage city) (targetKey targetValue : Bytes)
    (self : UInt64) (entry : Entry) : Option (UInt64 × UInt64) :=
  if !entry.key.isPrefixOf targetKey || !entry.value.isPrefixOf targetValue then none
  else
    match (removeNgramChainInternal storage targetKey targetValue kMaxNgramChainDepth [] [] 0 0 self
      entry []).1 with
    | .done parent child => some (parent, child)
    | _ => none

/-! ## Inner segments -/

/-- The loop over the inner segments. It returns true when they are found. -/
def matchInnerSegments (keyStart valueStart keyEnd valueEnd : Nat) :
    Nat → Nat → Bool → List InnerSegment → Bool
  | _, _, _, [] => false
  | keyLen, valueLen, startMatch, it :: rest =>
    let startMatch := startMatch || (keyLen = keyStart && valueLen = valueStart)
    if (keyLen + it.key.length = keyEnd ∧ valueLen + it.value.length = valueEnd) ∨
        (keyLen + it.contentKey.length = keyEnd ∧ valueLen + it.contentValue.length = valueEnd) then
      startMatch
    else
      let keyLen := keyLen + it.key.length
      let valueLen := valueLen + it.value.length
      if !startMatch && (keyStart < keyLen || valueStart < valueLen) then false
      else matchInnerSegments keyStart valueStart keyEnd valueEnd keyLen valueLen startMatch rest

/-- What `RemoveEntryWithInnerSegment` returns. Where it is true, the entry is marked. -/
def removeEntryWithInnerSegment (key value : Bytes) (entry : Entry) : Bool :=
  if entry.innerSegmentBoundary.isEmpty then false
  else
    match find value entry.value 0, find key entry.key 0 with
    | some valueStart, some keyStart =>
      matchInnerSegments keyStart valueStart (keyStart + key.length) (valueStart + value.length) 0 0
        false (innerSegments entry.key entry.value entry.innerSegmentBoundary)
    | _, _ => false

/-! ## Clearing -/

def kPrefixFullSpace : Bytes := utf8 "　"
def kPrefixHalfSpace : Bytes := utf8 " "
def kPrefixZeroSpace : Bytes := [0xE2, 0x80, 0x8B]

/-- `maybe_normalize_prefix_space` -/
def normalizePrefixSpace (str : Bytes) : Bytes :=
  match [kPrefixFullSpace, kPrefixHalfSpace].find? fun space => space.isPrefixOf str with
  | some space => kPrefixZeroSpace ++ str.drop space.length
  | none => str

def eraseNextEntries (fp : UInt64) (entry : Entry) : Entry :=
  { entry with nextEntryFps := entry.nextEntryFps.filter (· ≠ fp) }

def markRemoved (entry : Entry) : Entry :=
  { entry with suggestionFreq := 0, shownFreq := 0, removed := true }

namespace UserHistoryStorage

def cutLink (storage : UserHistoryStorage city) (parent child : UInt64) : UserHistoryStorage city :=
  storage.modify parent (eraseNextEntries child) fun _ => ⟨rfl, rfl⟩

def markRemovedAt (storage : UserHistoryStorage city) (fp : UInt64) : UserHistoryStorage city :=
  storage.modify fp markRemoved fun _ => ⟨rfl, rfl⟩

end UserHistoryStorage

/-- The callback of `ForEach` for the entry under `fp`. -/
def clearEntry (key value : Bytes) (state : Bool × UserHistoryStorage city) (fp : UInt64) :
    Bool × UserHistoryStorage city :=
  match state.2.lookup fp with
  | none => state
  | some entry =>
    match removeNgramChain state.2 key value fp entry with
    | some (parent, child) => (true, state.2.cutLink parent child)
    | none =>
      if removeEntryWithInnerSegment key value entry then (true, state.2.markRemovedAt fp)
      else state

/-- The entry that is exactly `key` and `value`. -/
def clearExact (storage : UserHistoryStorage city) (key value : Bytes) :
    Bool × UserHistoryStorage city :=
  let fp := fingerprint city key value
  match storage.lookup fp with
  | some entry => if !entry.removed then (true, storage.markRemovedAt fp) else (false, storage)
  | none => (false, storage)

def clearHistoryEntry (storage : UserHistoryStorage city) (key value : Bytes) :
    Bool × UserHistoryStorage city :=
  let key := normalizePrefixSpace key
  let value := normalizePrefixSpace value
  storage.fps.foldl (clearEntry key value) (clearExact storage key value)

end Mozkey.Prediction
