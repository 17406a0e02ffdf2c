import Mozkey.Prediction.HistoryCommit

/-!
# Reverting a commit to the history

`prediction/user_history_predictor.cc`: `Revert`, `GuessRevertedValueOffset` and
`MaybeProcessPartialRevertEntry`. The alignment of a value with its reading is a parameter.
-/

namespace Mozkey.Prediction

open Infra Base Converter

variable {city : City}

/-! ## Revert -/

/-- The loop of `Revert` for one record: it is written back, and what was there is kept. -/
def undo (state : UserHistoryStorage city × List RevertRecord) (r : RevertRecord) :
    UserHistoryStorage city × List RevertRecord :=
  match state.1.lookupKept (r.revertEntry.fp city) with
  | none => state
  | some committed =>
    (state.1.assign r.revertEntry, state.2 ++ [{ r with revertEntry := committed }])

namespace UserHistoryPredictor

def revert (p : UserHistoryPredictor city) (revertId : UInt32) : UserHistoryPredictor city :=
  match p.revertCache revertId with
  | none => p
  | some r =>
    let undone := r.entries.foldl undo (p.storage, [])
    { p with
      storage :=
        match r.historyEntry with
        | none => undone.1
        | some e => undone.1.assign e
      lastCommittedEntries :=
        if r.reversibleExternalLearning then none
        else some
          { resultValue := r.resultValue
            historyEntry := r.historyEntry.bind fun e => undone.1.lookupKept (e.fp city)
            entries := undone.2 } }

end UserHistoryPredictor

/-! ## How much is left of the value -/

def kDirectSuffixes : List Bytes := ["\r", "\n", "\t", " ", "　"].map utf8

/-- Each round takes at least one byte away. -/
def stripDirectSuffixes : Nat → Bytes → Bytes
  | 0, leftContext => leftContext
  | rounds + 1, leftContext =>
    match kDirectSuffixes.find? fun suffix => suffix.isSuffixOf leftContext with
    | some suffix =>
      stripDirectSuffixes rounds (leftContext.take (leftContext.length - suffix.length))
    | none => leftContext

/-- The last characters are stripped one by one. -/
def guessOffsetFrom (leftContext : Bytes) : Nat → Bytes → Nat
  | 0, _ => 0
  | rounds + 1, value =>
    match splitLastChar32 value with
    | none => 0
    | some (remain, _) =>
      if value.isSuffixOf leftContext then value.length
      else guessOffsetFrom leftContext rounds remain

def guessRevertedValueOffset (revertedValue leftContext : Bytes) : Nat :=
  if revertedValue.isEmpty || leftContext.isEmpty then 0
  else
    guessOffsetFrom (stripDirectSuffixes leftContext.length leftContext) revertedValue.length
      revertedValue

/-! ## Committing again what is left -/

def RevertRecord.keyEnd (r : RevertRecord) : Nat := r.keyBegin + r.revertEntry.1.key.length

def RevertRecord.valueEnd (r : RevertRecord) : Nat := r.valueBegin + r.revertEntry.1.value.length

def getSuffix (str : Bytes) (n : Nat) : Bytes := str.drop (str.length - n)

def getPrefix (str : Bytes) (n : Nat) : Bytes := str.take (str.length - n)

/-- The key in front of the place where the aligned surfaces reach `valueLen`. -/
def alignedKey (ckey : Bytes) (valueLen : Nat) : Nat → Nat → List (Bytes × Bytes) → Bytes
  | _, _, [] => []
  | keyConsumed, valueConsumed, (surface, reading) :: rest =>
    if valueLen < valueConsumed then []
    else if valueConsumed = valueLen then ckey.take keyConsumed
    else
      alignedKey ckey valueLen (keyConsumed + reading.length) (valueConsumed + surface.length) rest

/-- `ckey_prefix`, when the cursor is in the middle of the value of `r`. -/
def keptKey (modules : Modules) (entries : List RevertRecord) (actualValueEnd : Nat)
    (r : RevertRecord) : Bytes :=
  let ckey := r.revertEntry.1.key
  let cvalue := r.revertEntry.1.value
  let suffixLen := r.valueEnd - actualValueEnd
  let actualKeyEnd := ((entries.find? fun e => e.valueEnd = actualValueEnd).map (·.keyEnd)).getD 0
  if entries.any fun e => e.valueBegin = r.valueBegin && e.valueEnd = actualValueEnd then []
  else if 0 < actualKeyEnd ∧ r.keyBegin < actualKeyEnd ∧ actualKeyEnd < r.keyEnd then
    getPrefix ckey (r.keyEnd - actualKeyEnd)
  else if suffixLen < ckey.length ∧ getSuffix cvalue suffixLen = getSuffix ckey suffixLen ∧
      getScriptTypeOfString (getSuffix cvalue suffixLen) = .hiragana then
    getPrefix ckey suffixLen
  else
    alignedKey ckey (getPrefix cvalue suffixLen).length 0 0
      (modules.getReadingAlignment cvalue ckey)

/-- `force_insert_entry` -/
def forceInsertEntry (storage : UserHistoryStorage city) (newEntry : KeptEntry) :
    UserHistoryStorage city :=
  match storage.lookupKept (newEntry.fp city) with
  | some entry =>
    storage.put ⟨{ entry.1 with
      suggestionFreq := entry.1.suggestionFreq + 1
      lastAccessTime := newEntry.1.lastAccessTime }, entry.2.1, entry.2.2⟩
  | none => storage.put ⟨{ newEntry.1 with suggestionFreq := 1 }, newEntry.2.1, newEntry.2.2⟩

/-- `update_chain`. No entry is under the fingerprint 0. -/
def updateChain (last : RevertEntries) (storage : UserHistoryStorage city) (newEntryKeyBegin : Nat)
    (newEntry : KeptEntry) : UserHistoryStorage city :=
  let prevEntry : Option KeptEntry :=
    if newEntryKeyBegin = 0 then last.historyEntry
    else (last.entries.find? fun e => newEntryKeyBegin = e.keyEnd).map (·.revertEntry)
  match prevEntry with
  | none => storage
  | some e =>
    if e.fp city = 0 then storage else storage.linkTo (e.fp city) [newEntry.fp city]

/-- The loop of `MaybeProcessPartialRevertEntry` for one entry. -/
def recommit (modules : Modules) (last : RevertEntries) (actualValueEnd : Nat)
    (storage : UserHistoryStorage city) (r : RevertRecord) : UserHistoryStorage city :=
  let committed := r.revertEntry
  if !isValidUtf8 committed.1.value || !isValidUtf8 committed.1.key then storage
  else if r.valueEnd ≤ actualValueEnd then storage.assign committed
  else if r.valueBegin < actualValueEnd then
    let key := keptKey modules last.entries actualValueEnd r
    let value := getPrefix committed.1.value (r.valueEnd - actualValueEnd)
    if h : key ≠ [] ∧ value ≠ [] then
      let prefixEntry : KeptEntry := ⟨{ committed.1 with key, value }, h⟩
      updateChain last (forceInsertEntry storage prefixEntry) r.keyBegin prefixEntry
    else storage
  else storage

namespace UserHistoryPredictor

def maybeProcessPartialRevertEntry (p : UserHistoryPredictor city) (modules : Modules)
    (precedingText : Bytes) : UserHistoryPredictor city :=
  match p.lastCommittedEntries with
  | none => p
  | some last =>
    let p := { p with lastCommittedEntries := none }
    let actualValueEnd := guessRevertedValueOffset last.resultValue precedingText
    if actualValueEnd = 0 then p
    else
      { p with storage := last.entries.foldl (recommit modules last actualValueEnd) p.storage }

end UserHistoryPredictor

end Mozkey.Prediction
