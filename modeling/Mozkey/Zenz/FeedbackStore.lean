import Mozkey.Zenz.FeedbackDecision
import Mozkey.Zenz.FeedbackTsvRoundtrip

/-!
# The feedback store and its file

`session/zenz_feedback_store.cc`, the part that owns `zenz_feedback.tsv`. The Windows and the
macOS branch make the same calls in the same order, so one definition stands for both; on other
systems the store keeps nothing.

## What the operating system may answer

Every call to it can fail on its own. `LoadIo`, `WriteIo` and `AppendIo` hold the answers one
operation gets, so a failure pattern is an argument like any other.

## The cache

A load is answered from a cache when path and file stamp (existence, write time, size) are the
ones the cached records were read under. The state carries `CacheCoherent`: such an answer is
what a fresh read gives. A failed append does not invalidate the cache, so the invariant also
says that the file has not become shorter than the cached stamp. It speaks for stores that no
other process rewrites.
-/

namespace Mozkey.Zenz

open Infra

variable {pl : Platform}

structure FeedbackFileStamp where
  exists_ : Bool
  lastWriteTime : Nat
  fileSize : Nat
deriving DecidableEq

/-- The stamp of a file that is not there, or could not be asked for. -/
def FeedbackFileStamp.missing : FeedbackFileStamp := ⟨false, 0, 0⟩

structure StoredFile where
  content : Bytes
  lastWriteTime : Nat

structure FeedbackRecordsCache where
  valid : Bool
  path : Bytes
  stamp : FeedbackFileStamp
  records : List ParsedFeedbackRecord

def FeedbackRecordsCache.empty : FeedbackRecordsCache := ⟨false, [], .missing, []⟩

/-- The records a fresh read of the file gives. -/
def recordsOf (pl : Platform) : Option StoredFile → List ParsedFeedbackRecord
  | none => []
  | some f => (loadRecordsFromStream pl false f.content).2

/-- What a valid cache says about the file. -/
structure CacheCoherent (pl : Platform) (file : Option StoredFile)
    (cache : FeedbackRecordsCache) : Prop where
  missing : cache.valid = true → cache.stamp.exists_ = false → cache.records = []
  current : cache.valid = true → cache.stamp.exists_ = true →
    ∃ f, file = some f ∧ cache.stamp.fileSize ≤ f.content.length ∧
      (cache.stamp.fileSize = f.content.length → cache.records = recordsOf pl file)

theorem CacheCoherent.of_invalid {file : Option StoredFile} {cache : FeedbackRecordsCache}
    (h : cache.valid = false) : CacheCoherent pl file cache where
  missing := fun hv => absurd hv (by simp [h])
  current := fun hv => absurd hv (by simp [h])

/-- `zenz_feedback.tsv` and the process-wide cache of its records. -/
structure ZenzFeedbackStore (pl : Platform) where
  file : Option StoredFile
  cache : FeedbackRecordsCache
  coherent : CacheCoherent pl file cache

namespace ZenzFeedbackStore

/-- A store whose cache was just invalidated. -/
def withFile (file : Option StoredFile) : ZenzFeedbackStore pl where
  file := file
  cache := .empty
  coherent := .of_invalid rfl

/-- The record list that is on disk. -/
def persistedRecords (st : ZenzFeedbackStore pl) : List ParsedFeedbackRecord :=
  recordsOf pl st.file

/-- The bytes of the file. A missing file reads like an empty one. -/
def content (st : ZenzFeedbackStore pl) : Bytes :=
  match st.file with
  | none => []
  | some f => f.content

theorem persistedRecords_eq (st : ZenzFeedbackStore pl) :
    st.persistedRecords = (loadRecordsFromStream pl false st.content).2 := by
  unfold persistedRecords recordsOf content
  cases st.file with
  | none => rfl
  | some f => rfl

theorem persistedRecords_safe (st : ZenzFeedbackStore pl) :
    ∀ r ∈ st.persistedRecords, isSafeFeedbackRecord pl r = true := by
  rw [persistedRecords_eq]
  exact loadRecordsFromStream_safe st.content

end ZenzFeedbackStore

/-! ## Loading -/

structure LoadIo where
  pathAvailable : Bool
  statSucceeds : Bool
  openSucceeds : Bool

/-- `JoinPath(dir, "zenz_feedback.tsv")`, or empty when there is no directory for it. -/
def getFeedbackPath (pathAvailable : Bool) : Bytes :=
  if pathAvailable then utf8 "zenz_feedback.tsv" else []

def getFeedbackFileStamp (file : Option StoredFile) (path : Bytes) (statSucceeds : Bool) :
    FeedbackFileStamp :=
  if path.isEmpty then .missing
  else
    match file with
    | none => .missing
    | some f => if statSucceeds then ⟨true, f.lastWriteTime, f.content.length⟩ else .missing

theorem coherent_missing (file : Option StoredFile) (path : Bytes) :
    CacheCoherent pl file ⟨true, path, .missing, []⟩ where
  missing := fun _ _ => rfl
  current := fun _ h => absurd h (by simp [FeedbackFileStamp.missing])

theorem coherent_read (file : Option StoredFile) (path : Bytes) (statSucceeds : Bool)
    (h : (getFeedbackFileStamp file path statSucceeds).exists_ = true) :
    CacheCoherent pl file
      ⟨true, path, getFeedbackFileStamp file path statSucceeds, recordsOf pl file⟩ where
  missing := fun _ hm => absurd hm (by simp [h])
  current := fun _ _ => by
    unfold getFeedbackFileStamp at h ⊢
    split at h
    · exact absurd h (by simp [FeedbackFileStamp.missing])
    · next hp =>
      rw [if_neg hp]
      cases file with
      | none => exact absurd h (by simp [FeedbackFileStamp.missing])
      | some f =>
        cases statSucceeds with
        | false => exact absurd h (by simp [FeedbackFileStamp.missing])
        | true => exact ⟨f, rfl, Nat.le_refl _, fun _ => rfl⟩

/-- The records, and the store with its cache as the load leaves it. -/
def loadFeedbackRecords (st : ZenzFeedbackStore pl) (io : LoadIo) :
    List ParsedFeedbackRecord × ZenzFeedbackStore pl :=
  let path := getFeedbackPath io.pathAvailable
  let stamp := getFeedbackFileStamp st.file path io.statSucceeds
  if st.cache.valid && st.cache.path == path && st.cache.stamp == stamp then
    (st.cache.records, st)
  -- no path: `stamp` is that of a missing file
  else if path.isEmpty then
    ([], { st with cache := ⟨true, path, .missing, []⟩, coherent := coherent_missing _ _ })
  else if hstamp : (getFeedbackFileStamp st.file path io.statSucceeds).exists_ = true then
    if !io.openSucceeds then ([], st)
    else
      (recordsOf pl st.file,
        { st with
          cache := ⟨true, path, getFeedbackFileStamp st.file path io.statSucceeds,
            recordsOf pl st.file⟩
          coherent := coherent_read _ _ _ hstamp })
  else
    ([], { st with cache := ⟨true, path, .missing, []⟩, coherent := coherent_missing _ _ })

/-! ## Writing -/

structure WriteIo where
  pathAvailable : Bool
  tmpOpens : Bool
  tmpWrites : Bool
  renames : Bool
  deletes : Bool
  now : Nat

/-- Write a temporary file and rename it over the store, or delete the store for an empty list.
What is returned, and the store afterwards. -/
def writeFeedbackRecordsAtomically (st : ZenzFeedbackStore pl)
    (records : List ParsedFeedbackRecord) (io : WriteIo) : Bool × ZenzFeedbackStore pl :=
  if (getFeedbackPath io.pathAvailable).isEmpty then (false, st)
  else if records.isEmpty then
    -- a file that is not there counts as removed
    if st.file.isNone || io.deletes then (true, .withFile none) else (false, st)
  else
    let (ok, written) := writeRecordsToStream pl records
    if !(io.tmpOpens && ok && io.tmpWrites) then (false, st)
    else if !io.renames then (false, st)
    else (true, .withFile (some ⟨written, io.now⟩))

/-! ## Appending -/

/-- How far an append got. A process that dies while appending stops at a `writeFailed` whose
result nobody sees. -/
inductive AppendIo where
  | noPath
  | openFailed
  | writeFailed (written : Nat)
  | flushed
deriving DecidableEq

/-- The file after `bytes` were appended to it. Opening creates a missing file. -/
def appendToFile (file : Option StoredFile) (bytes : Bytes) (now : Nat) : StoredFile :=
  match file with
  | none => ⟨bytes, now⟩
  | some f => ⟨f.content ++ bytes, now⟩

theorem CacheCoherent.append {file : Option StoredFile} {cache : FeedbackRecordsCache}
    (h : CacheCoherent pl file cache) (bytes : Bytes) (now : Nat) :
    CacheCoherent pl (some (appendToFile file bytes now)) cache where
  missing := h.missing
  current := fun hv he => by
    obtain ⟨f, hf, hle, heq⟩ := h.current hv he
    refine ⟨_, rfl, ?_, fun hs => ?_⟩
    · simp only [appendToFile, hf, List.length_append]; omega
    · -- the size did not change, so nothing was appended
      simp only [appendToFile, hf, List.length_append] at hs
      have hb : bytes = [] := List.eq_nil_of_length_eq_zero (by omega)
      simp [heq (by omega), hf, hb, appendToFile, recordsOf]

/-- The arguments of `AppendRecord` as a record. -/
def appendedRecord (action key contextClass value reason : Bytes) : ParsedFeedbackRecord where
  action := action
  key := key
  contextClass := normalizeContextClass contextClass
  value := value
  reason := reason

/-- The body of `AppendRecord` once the record is made. -/
def appendRecord (st : ZenzFeedbackStore pl) (record : ParsedFeedbackRecord) (io : AppendIo)
    (now : Nat) : Bool × ZenzFeedbackStore pl :=
  if !isSafeFeedbackRecord pl record then (false, st)
  else
    match io with
    | .noPath | .openFailed => (false, st)
    | .writeFailed written =>
      (false,
        { st with
          file := some (appendToFile st.file ((writeRecordToStream record).take written) now)
          coherent := st.coherent.append _ _ })
    | .flushed =>
      (true, .withFile (some (appendToFile st.file (writeRecordToStream record) now)))

/-! ## Recording -/

def recordAccepted (st : ZenzFeedbackStore pl) (key contextClass value : Bytes) (io : AppendIo)
    (now : Nat) : Bool × ZenzFeedbackStore pl :=
  appendRecord st (appendedRecord (utf8 "accepted") key contextClass value []) io now

def recordAcceptedRollback (st : ZenzFeedbackStore pl) (key contextClass value reason : Bytes)
    (io : AppendIo) (now : Nat) : ZenzFeedbackStore pl :=
  (appendRecord st (appendedRecord (utf8 "accepted_rollback") key contextClass value reason) io
    now).2

def recordRejected (st : ZenzFeedbackStore pl) (key contextClass value reason : Bytes)
    (io : AppendIo) (now : Nat) : ZenzFeedbackStore pl :=
  (appendRecord st (appendedRecord (utf8 "rejected") key contextClass value reason) io now).2

/-- The record a manual block is stored as. -/
def manualBlockRecord (key contextClass value : Bytes) : ParsedFeedbackRecord :=
  appendedRecord (utf8 "rejected") key contextClass value (utf8 "hard_reject")

def recordManualBlock (st : ZenzFeedbackStore pl) (key contextClass value : Bytes)
    (loadIo : LoadIo) (io : AppendIo) (now : Nat) : Bool × ZenzFeedbackStore pl :=
  let (records, st) := loadFeedbackRecords st loadIo
  if isManuallyBlocked records key contextClass value then (true, st)
  else appendRecord st (manualBlockRecord key contextClass value) io now

/-! ## Management -/

inductive ZenzFeedbackImportMode where
  | append
  | replace
deriving DecidableEq

/-- `imported` is what is read from the import file, `none` when there is no path or it does
not open. -/
def importFromFile (st : ZenzFeedbackStore pl) (imported : Option Bytes)
    (mode : ZenzFeedbackImportMode) (loadIo : LoadIo) (writeIo : WriteIo) :
    Bool × ZenzFeedbackStore pl :=
  match imported with
  | none => (false, st)
  | some content =>
    let (ok, importedRecords) := loadRecordsFromStream pl true content
    if !ok then (false, st)
    else
      match mode with
      | .append =>
        let (oldRecords, st) := loadFeedbackRecords st loadIo
        writeFeedbackRecordsAtomically st (oldRecords ++ importedRecords) writeIo
      | .replace => writeFeedbackRecordsAtomically st importedRecords writeIo

/-- The predicate of `DeleteEntry`'s `remove_if`. -/
def matchesEntry (key contextClass value : Bytes) (record : ParsedFeedbackRecord) : Bool :=
  record.key == key && record.contextClass == normalizeContextClass contextClass &&
    record.value == value

def deleteEntry (st : ZenzFeedbackStore pl) (key contextClass value : Bytes)
    (loadIo : LoadIo) (writeIo : WriteIo) : Bool × ZenzFeedbackStore pl :=
  let (records, st) := loadFeedbackRecords st loadIo
  if !records.any (matchesEntry key contextClass value) then (true, st)
  else
    writeFeedbackRecordsAtomically st
      (records.filter fun r => !matchesEntry key contextClass value r) writeIo

def clearAll (st : ZenzFeedbackStore pl) (writeIo : WriteIo) : Bool × ZenzFeedbackStore pl :=
  writeFeedbackRecordsAtomically st [] writeIo

end Mozkey.Zenz
