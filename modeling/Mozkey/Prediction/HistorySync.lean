import Mozkey.Infra.RecencyMap
import Mozkey.Base.Utf8
import Mozkey.Infra.Transitions

/-!
# Saving and loading the history

The tasks of `prediction/user_history_storage.cc`. `Save` and `Load` run on a thread of their own
while the input thread changes the cache. The lock is held for a change, for the copy that is
saved and while a file is put into the cache. The file is read and written without it.

`needs_sync_` and `canceled_` are atomic, and every access to them is a step of its own. The file
is what the encrypted storage and the message make of its bytes, `none` when there is nothing that
can be read. `LegacyFingerprint32` is a parameter like `CityFingerprint`.
-/

/-!
## `UserHistoryStorage`

`prediction/user_history_storage.h` and the message `UserHistory.Entry`. The cache is a recency map
from fingerprints to entries, the one that was used last in front. `CityFingerprint` is a parameter.

Every entry is stored under the fingerprint of its own key and value, and neither is empty:
`Load` skips other entries, and nothing else inserts them.
-/

namespace Mozkey.Prediction

open Infra

structure Entry where
  key : Bytes := []
  value : Bytes := []
  description : Bytes := []
  suggestionFreq : Nat := 0
  shownFreq : Nat := 0
  lastAccessTime : Nat := 0
  /-- The oldest link is in front. -/
  nextEntryFps : List UInt64 := []
  removed : Bool := false
  innerSegmentBoundary : List UInt32 := []
  allowPartialMatch : Bool := false
  attributes : UInt32 := 0
  entryFlags : UInt32 := 0
deriving DecidableEq

/-- `CityFingerprint` of `base/hash.h` -/
abbrev City := Bytes → UInt64

def kDelimiter : Bytes := utf8 "\t"

def fingerprint (city : City) (key value : Bytes) : UInt64 := city (key ++ kDelimiter ++ value)

/-- What every entry of a storage is. -/
def Stored (city : City) (fp : UInt64) (entry : Entry) : Prop :=
  fp = fingerprint city entry.key entry.value ∧ entry.key ≠ [] ∧ entry.value ≠ []

structure UserHistoryStorage (city : City) where
  items : RecencyMap UInt64 Entry
  stored : ∀ fp entry, items.get? fp = some entry → Stored city fp entry

namespace UserHistoryStorage

variable {city : City} {storage : UserHistoryStorage city} {fp fp' : UInt64} {entry : Entry}

/-- `Lookup` and `MutableLookup` of a fingerprint. -/
def lookup (storage : UserHistoryStorage city) (fp : UInt64) : Option Entry := storage.items.get? fp

/-- The fingerprints in the order of `ForEach`. -/
def fps (storage : UserHistoryStorage city) : List UInt64 := Recency.keys storage.items.entries

/-- An entry is changed through `MutableLookup`, and keeps its key and its value. -/
def modify (storage : UserHistoryStorage city) (fp : UInt64) (f : Entry → Entry)
    (hf : ∀ entry, (f entry).key = entry.key ∧ (f entry).value = entry.value) :
    UserHistoryStorage city where
  items := storage.items.adjust fp f
  stored fp' entry h := by
    rw [RecencyMap.get?_adjust] at h
    split at h
    · obtain ⟨old, hold, rfl⟩ := Option.map_eq_some_iff.mp h
      have hs := storage.stored fp' old hold
      unfold Stored at hs ⊢
      rwa [(hf old).1, (hf old).2]
    · exact storage.stored fp' entry h

theorem lookup_modify {f : Entry → Entry}
    {hf : ∀ entry, (f entry).key = entry.key ∧ (f entry).value = entry.value} :
    (storage.modify fp f hf).lookup fp' =
      if fp' = fp then (storage.lookup fp').map f else storage.lookup fp' :=
  RecencyMap.get?_adjust

theorem mem_fps_iff : fp ∈ storage.fps ↔ storage.lookup fp ≠ none := by
  unfold fps lookup
  rw [Ne, RecencyMap.get?_eq_none_iff, not_not]

theorem key_ne_nil (h : storage.lookup fp = some entry) : entry.key ≠ [] :=
  (storage.stored fp entry h).2.1

theorem value_ne_nil (h : storage.lookup fp = some entry) : entry.value ≠ [] :=
  (storage.stored fp entry h).2.2

theorem fingerprint_of_lookup (h : storage.lookup fp = some entry) :
    fingerprint city entry.key entry.value = fp := (storage.stored fp entry h).1.symm

end UserHistoryStorage

open Base

def kLruCacheSize : Nat := 10000

abbrev Legacy := Bytes → UInt32

abbrev DicCache := RecencyMap UInt64 Entry

/-- An entry of a file, with the fields that only old files have. -/
structure FileEntry where
  entry : Entry
  conversionFreqDeprecated : Nat := 0
  nextEntriesDeprecated : List UInt32 := []
deriving DecidableEq

namespace HistorySync

variable (city : City) (legacy : Legacy)

/-! ## Loading -/

def emptyDic : DicCache where
  capacity := kLruCacheSize
  positive := by decide

/-- The 64-bit fingerprint of the last entry that has the old one. -/
def old2newFp (proto : List FileEntry) (oldFp : UInt32) : Option UInt64 :=
  (proto.reverse.find? fun e => legacy (e.entry.key ++ kDelimiter ++ e.entry.value) == oldFp).map
    fun e => fingerprint city e.entry.key e.entry.value

def migrateNextEntries (proto : List FileEntry) : List FileEntry :=
  if proto.all fun e => e.nextEntriesDeprecated.isEmpty then proto
  else proto.map fun e =>
    { e with
      entry.nextEntryFps :=
        e.entry.nextEntryFps ++ e.nextEntriesDeprecated.filterMap (old2newFp city legacy proto)
      nextEntriesDeprecated := [] }

/-- What `Load` does not skip. -/
def isLoadable (entry : Entry) : Bool :=
  !(entry.value.isEmpty || entry.key.isEmpty) && isValidUtf8 entry.value

def loadEntry (dic : DicCache) (e : FileEntry) : DicCache :=
  if isLoadable e.entry then
    dic.insert (fingerprint city e.entry.key e.entry.value)
      { e.entry with suggestionFreq := max e.entry.suggestionFreq e.conversionFreqDeprecated }
  else dic

/-- The cache after a `Load` that was not cancelled. -/
def loadDic : Option (List FileEntry) → DicCache
  | none => emptyDic
  | some proto => (migrateNextEntries city legacy proto).foldl (loadEntry city) emptyDic

/-! ## Saving -/

/-- What is written for a cache, the entry that was used last at the end. -/
def copyOf (dic : DicCache) : List FileEntry :=
  ((dic.entries.map Prod.snd).take kLruCacheSize).reverse.map fun entry => { entry }

/-- What a `Load` would keep of a cache. -/
def kept (dic : DicCache) : List (UInt64 × Entry) := dic.entries.filter fun e => isLoadable e.2

/-! ## Mutators -/

inductive Mutation
  /-- `Insert`, also of a fingerprint whose entry is filled in afterwards. -/
  | insert (entry : Entry)
  /-- `MutableLookup` plus a change. -/
  | modify (fp : UInt64) (f : Entry → Entry)
      (keeps : ∀ entry, (f entry).key = entry.key ∧ (f entry).value = entry.value)
  | erase (fps : List UInt64)

def Mutation.apply (dic : DicCache) : Mutation → DicCache
  | .insert entry => dic.insert (fingerprint city entry.key entry.value) entry
  | .modify fp f _ => dic.adjust fp f
  | .erase fps => fps.foldl RecencyMap.erase dic

/-! ## The two threads -/

/-- Where the background task is. -/
inductive Syncer
  | idle
  /-- `Save`, before it reads `needs_sync_`. -/
  | testing
  /-- Before it takes the lock. -/
  | copying
  | writing (copy : List FileEntry)
  /-- The file is written, and `needs_sync_` is still set. -/
  | clearing (copy : List FileEntry)
  /-- `Load`, before it reads the file. -/
  | reading
  /-- Before it takes the lock. -/
  | entering (input : Option (List FileEntry))
  /-- With the lock, in the loop. -/
  | filling (rest : List FileEntry)
deriving DecidableEq

/-- Where the input thread is. -/
inductive InputThread
  | free
  /-- `depth + 1` mutators have taken the lock, one inside the other. -/
  | mutating (depth : Nat)
  /-- In `Clear`, waiting for the task. -/
  | clearing
  /-- In the destructor, waiting for the task. -/
  | closing
  | closed
deriving DecidableEq

structure SyncState where
  dic : DicCache
  needsSync : Bool
  canceled : Bool
  file : Option (List FileEntry)
  syncer : Syncer
  input : InputThread

inductive SyncEvent
  /-- A mutator takes the lock and sets `needs_sync_`. -/
  | enter
  | change (mutation : Mutation)
  | leave
  | asyncSave
  | asyncLoad
  | beginClear
  | endClear
  | beginClose
  | endClose
  /-- The background task goes on. -/
  | task

/-- `Save` on the input thread, while no task runs. -/
def save (s : SyncState) : SyncState :=
  if !s.needsSync then s
  else if copyOf s.dic = [] then { s with file := none }
  else { s with file := some (copyOf s.dic), needsSync := false }

def isMutating (s : SyncState) : Bool :=
  match s.input with
  | .mutating _ => true
  | _ => false

def taskStep (s : SyncState) : Option SyncState :=
  match s.syncer with
  | .idle => none
  | .testing => some { s with syncer := if s.needsSync then .copying else .idle }
  | .copying => if isMutating s then none else some { s with syncer := .writing (copyOf s.dic) }
  | .writing copy =>
    -- an empty history has no file, and the flag stays set
    if copy = [] then some { s with file := none, syncer := .idle }
    else some { s with file := some copy, syncer := .clearing copy }
  | .clearing _ => some { s with needsSync := false, syncer := .idle }
  | .reading => some { s with syncer := .entering s.file }
  | .entering input =>
    if isMutating s then none
    else some
      { s with
        dic := emptyDic
        needsSync := false
        syncer := match input with
          | none => .idle
          | some proto => .filling (migrateNextEntries city legacy proto) }
  | .filling [] => some { s with syncer := .idle }
  | .filling (e :: rest) =>
    if s.canceled then some { s with syncer := .idle }
    else some { s with dic := loadEntry city s.dic e, syncer := .filling rest }

/-- The lock is held by the task. -/
def isFilling (s : SyncState) : Bool :=
  match s.syncer with
  | .filling _ => true
  | _ => false

def step (s : SyncState) : SyncEvent → Option SyncState
  | .enter =>
    if isFilling s then none
    else
      match s.input with
      | .free => some { s with needsSync := true, input := .mutating 0 }
      | .mutating depth => some { s with needsSync := true, input := .mutating (depth + 1) }
      | _ => none
  | .change mutation =>
    if isMutating s then some { s with dic := mutation.apply city s.dic } else none
  | .leave =>
    match s.input with
    | .mutating 0 => some { s with input := .free }
    | .mutating (depth + 1) => some { s with input := .mutating depth }
    | _ => none
  | .asyncSave =>
    if s.input = .free then
      some (if s.needsSync && s.syncer = .idle then { s with syncer := .testing } else s)
    else none
  | .asyncLoad =>
    if s.input = .free then some (if s.syncer = .idle then { s with syncer := .reading } else s)
    else none
  | .beginClear =>
    if s.input = .free then some { s with canceled := true, input := .clearing } else none
  | .endClear =>
    if s.input = .clearing ∧ s.syncer = .idle then
      some (save { s with dic := emptyDic, needsSync := true, canceled := false, input := .free })
    else none
  | .beginClose =>
    if s.input = .free then
      some { s with canceled := s.canceled || s.syncer ≠ .idle, input := .closing }
    else none
  | .endClose =>
    if s.input = .closing ∧ s.syncer = .idle then some { save s with input := .closed } else none
  | .task => taskStep city legacy s

abbrev Step (s : SyncState) (e : SyncEvent) (t : SyncState) : Prop := step city legacy s e = some t

/-- A new process, whose `Load` has been scheduled. -/
def constructed (file : Option (List FileEntry)) : SyncState where
  dic := emptyDic
  needsSync := false
  canceled := false
  file := file
  syncer := .reading
  input := .free

/-- A new process, after its `Load`. -/
def opened (file : Option (List FileEntry)) : SyncState where
  dic := loadDic city legacy file
  needsSync := false
  canceled := false
  file := file
  syncer := .idle
  input := .free

end HistorySync

end Mozkey.Prediction
