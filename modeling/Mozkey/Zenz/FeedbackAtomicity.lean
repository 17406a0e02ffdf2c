import Mozkey.Zenz.FeedbackStore

/-!
# Import, delete and clear, call by call

The three management operations either leave the record list as it was and return false, or
leave the intended list and return true — as long as they read the list they start from.

`LoadFeedbackRecords` gives the empty list when it cannot read the store, the same answer as
for a store that is not there. An append-import then writes the imported rows alone, and
`DeleteEntry` finds nothing to delete and reports success. `loadFails` is that situation;
`management_allOrNothing_iff` says that nothing else goes wrong.
-/

namespace Mozkey.Zenz

open Infra

variable {pl : Platform}

/-! ## Loading -/

/-- The cache answers this load. -/
def cacheHits (st : ZenzFeedbackStore pl) (io : LoadIo) : Bool :=
  st.cache.valid && st.cache.path == getFeedbackPath io.pathAvailable &&
    st.cache.stamp ==
      getFeedbackFileStamp st.file (getFeedbackPath io.pathAvailable) io.statSucceeds

/-- The store is there, and the load gives the empty list because it could not read it. -/
def loadFails (st : ZenzFeedbackStore pl) (io : LoadIo) : Bool :=
  st.file.isSome &&
    (!io.pathAvailable || !io.statSucceeds || (!io.openSucceeds && !cacheHits st io))

theorem getFeedbackFileStamp_missing {file : Option StoredFile} {path : Bytes} {ok : Bool}
    (h : path = [] ∨ file = none ∨ ok = false) : getFeedbackFileStamp file path ok = .missing := by
  unfold getFeedbackFileStamp
  split
  · rfl
  · next hp =>
    rcases h with h | h | h
    · exact absurd (by simp [h]) hp
    · rw [h]
    · cases file <;> simp [h]

/-- When the stamp is that of a missing file the load gives nothing. -/
theorem loadFeedbackRecords_missing (st : ZenzFeedbackStore pl) (io : LoadIo)
    (h : getFeedbackFileStamp st.file (getFeedbackPath io.pathAvailable) io.statSucceeds
      = .missing) : (loadFeedbackRecords st io).1 = [] := by
  unfold loadFeedbackRecords
  dsimp only
  split
  · next hit =>
    simp only [Bool.and_eq_true, beq_iff_eq, h] at hit
    exact st.coherent.missing hit.1.1 (by rw [hit.2]; rfl)
  · split
    · rfl
    · split
      · next hs => exact absurd hs (by rw [h]; simp [FeedbackFileStamp.missing])
      · rfl

/-- When the stamp is that of the file the load gives what is on disk, from the cache or from a
file that opens. -/
theorem loadFeedbackRecords_current (st : ZenzFeedbackStore pl) (io : LoadIo) (f : StoredFile)
    (hf : st.file = some f) (hp : io.pathAvailable = true) (hs : io.statSucceeds = true) :
    (loadFeedbackRecords st io).1
      = if io.openSucceeds || cacheHits st io then st.persistedRecords else [] := by
  have hstamp : getFeedbackFileStamp st.file (getFeedbackPath io.pathAvailable) io.statSucceeds
      = ⟨true, f.lastWriteTime, f.content.length⟩ := by
    simp only [hf, hp, hs]
    rfl
  unfold loadFeedbackRecords
  dsimp only
  split
  · next hit =>
    have hch : cacheHits st io = true := hit
    simp only [Bool.and_eq_true, beq_iff_eq, hstamp] at hit
    obtain ⟨f', hf', -, heq⟩ := st.coherent.current hit.1.1 (by rw [hit.2])
    have hff : f' = f := Option.some.inj (hf'.symm.trans hf)
    rw [hch, Bool.or_true, if_pos rfl]
    exact heq (by rw [hit.2, hff])
  · next hmiss =>
    have hch : cacheHits st io = false := Bool.eq_false_iff.mpr hmiss
    rw [if_neg (by simp [hp, getFeedbackPath, utf8]), dif_pos (by rw [hstamp]), hch, Bool.or_false]
    cases io.openSucceeds <;> rfl

theorem loadFeedbackRecords_eq (st : ZenzFeedbackStore pl) (io : LoadIo) :
    (loadFeedbackRecords st io).1 = if loadFails st io then [] else st.persistedRecords := by
  cases hf : st.file with
  | none =>
    rw [loadFeedbackRecords_missing st io (getFeedbackFileStamp_missing (Or.inr (Or.inl hf)))]
    simp [loadFails, ZenzFeedbackStore.persistedRecords, hf, recordsOf]
  | some f =>
    cases hp : io.pathAvailable with
    | false =>
      rw [loadFeedbackRecords_missing st io
        (getFeedbackFileStamp_missing (Or.inl (by rw [hp]; rfl)))]
      simp [loadFails, hf, hp]
    | true =>
      cases hs : io.statSucceeds with
      | false =>
        rw [loadFeedbackRecords_missing st io (getFeedbackFileStamp_missing (Or.inr (Or.inr hs)))]
        simp [loadFails, hf, hs]
      | true =>
        rw [loadFeedbackRecords_current st io f hf hp hs]
        simp only [loadFails, hf, hp, hs, Option.isSome_some, Bool.not_true, Bool.false_or,
          Bool.true_and]
        cases io.openSucceeds <;> cases cacheHits st io <;> rfl

/-- A load touches the cache only. -/
@[simp] theorem loadFeedbackRecords_file (st : ZenzFeedbackStore pl) (io : LoadIo) :
    (loadFeedbackRecords st io).2.file = st.file := by
  unfold loadFeedbackRecords
  dsimp only
  split
  · rfl
  · split
    · rfl
    · split
      · cases io.openSucceeds <;> rfl
      · rfl

theorem loadFeedbackRecords_safe (st : ZenzFeedbackStore pl) (io : LoadIo) :
    ∀ r ∈ (loadFeedbackRecords st io).1, isSafeFeedbackRecord pl r = true := by
  rw [loadFeedbackRecords_eq]
  split
  · simp
  · exact st.persistedRecords_safe

/-! ## Writing -/

/-- Every call the atomic write makes for `records` succeeds. -/
def writeSucceeds (file : Option StoredFile) (records : List ParsedFeedbackRecord)
    (io : WriteIo) : Bool :=
  io.pathAvailable &&
    if records.isEmpty then file.isNone || io.deletes
    else io.tmpOpens && io.tmpWrites && io.renames

theorem getFeedbackPath_isEmpty (b : Bool) : (getFeedbackPath b).isEmpty = !b := by
  cases b <;> rfl

variable {records : List ParsedFeedbackRecord}

/-- **The atomic write is all or nothing.** -/
theorem writeFeedbackRecordsAtomically_spec (st : ZenzFeedbackStore pl) (io : WriteIo)
    (hsafe : ∀ r ∈ records, isSafeFeedbackRecord pl r = true) :
    (writeFeedbackRecordsAtomically st records io).1 = writeSucceeds st.file records io ∧
    (writeFeedbackRecordsAtomically st records io).2.content
      = if writeSucceeds st.file records io then rows records else st.content := by
  unfold writeFeedbackRecordsAtomically writeSucceeds
  rw [getFeedbackPath_isEmpty]
  cases hp : io.pathAvailable with
  | false => simp
  | true =>
    rw [Bool.not_true, if_neg (by simp)]
    by_cases he : records.isEmpty = true
    · have hnil : records = [] := List.isEmpty_iff.mp he
      rw [if_pos he, if_pos he, hnil]
      by_cases hd : (st.file.isNone || io.deletes) = true
      · rw [if_pos hd, hd]; exact ⟨rfl, rfl⟩
      · rw [if_neg hd, Bool.eq_false_iff.mpr hd]; exact ⟨rfl, rfl⟩
    · rw [if_neg he, if_neg he, writeRecordsToStream_safe hsafe]
      dsimp only
      cases io.tmpOpens <;> cases io.tmpWrites <;> cases io.renames <;>
        simp [ZenzFeedbackStore.content, ZenzFeedbackStore.withFile]

theorem writeFeedbackRecordsAtomically_persisted (st : ZenzFeedbackStore pl) (io : WriteIo)
    (hsafe : ∀ r ∈ records, isSafeFeedbackRecord pl r = true) :
    (writeFeedbackRecordsAtomically st records io).2.persistedRecords
      = if writeSucceeds st.file records io then records else st.persistedRecords := by
  rw [ZenzFeedbackStore.persistedRecords_eq,
    (writeFeedbackRecordsAtomically_spec st io hsafe).2]
  split
  · rw [loadRecordsFromStream_rows hsafe]
  · rw [ZenzFeedbackStore.persistedRecords_eq]

/-! ## The operations -/

inductive ManagementCall where
  | importFromFile (imported : Option Bytes) (mode : ZenzFeedbackImportMode)
  | deleteEntry (key contextClass value : Bytes)
  | clearAll

def ManagementCall.run (st : ZenzFeedbackStore pl) (loadIo : LoadIo) (writeIo : WriteIo) :
    ManagementCall → Bool × ZenzFeedbackStore pl
  | .importFromFile imported mode => Zenz.importFromFile st imported mode loadIo writeIo
  | .deleteEntry key contextClass value => Zenz.deleteEntry st key contextClass value loadIo writeIo
  | .clearAll => Zenz.clearAll st writeIo

/-- The rows of an import file that reads and parses as a whole. -/
def importedRecords (pl : Platform) : Option Bytes → Option (List ParsedFeedbackRecord)
  | none => none
  | some content =>
    let (ok, records) := loadRecordsFromStream pl true content
    if ok then some records else none

/-- The list an operation is meant to leave, `none` when there is nothing to import. -/
def ManagementCall.intended (pl : Platform) (old : List ParsedFeedbackRecord) :
    ManagementCall → Option (List ParsedFeedbackRecord)
  | .importFromFile imported .append => (importedRecords pl imported).map fun rows => old ++ rows
  | .importFromFile imported .replace => importedRecords pl imported
  | .deleteEntry key contextClass value =>
    some (old.filter fun r => !matchesEntry key contextClass value r)
  | .clearAll => some []

/-- Unchanged and false, or the intended list and true. -/
def AllOrNothing (st : ZenzFeedbackStore pl) (call : ManagementCall)
    (result : Bool × ZenzFeedbackStore pl) : Prop :=
  (result.1 = false ∧ result.2.persistedRecords = st.persistedRecords) ∨
  (result.1 = true ∧ call.intended pl st.persistedRecords = some result.2.persistedRecords)

/-- A store that cannot be read does no harm to this call: an append-import has nothing to lose,
nothing to import or cannot write, and a delete has nothing to delete. -/
def HarmlessUnread (st : ZenzFeedbackStore pl) (writeIo : WriteIo) : ManagementCall → Prop
  | .importFromFile imported .append =>
    st.persistedRecords = [] ∨
      ∀ rows, importedRecords pl imported = some rows → writeSucceeds st.file rows writeIo = false
  | .importFromFile _ .replace => True
  | .deleteEntry key contextClass value =>
    ∀ r ∈ st.persistedRecords, matchesEntry key contextClass value r = false
  | .clearAll => True

theorem importedRecords_safe {imported : Option Bytes}
    (h : importedRecords pl imported = some records) :
    ∀ r ∈ records, isSafeFeedbackRecord pl r = true := by
  unfold importedRecords at h
  cases imported with
  | none => simp at h
  | some content =>
    dsimp only at h
    split at h
    · rw [← Option.some.inj h]; exact loadRecordsFromStream_safe content
    · simp at h

/-- `importFromFile` in terms of the rows it imports. -/
theorem importFromFile_eq (st : ZenzFeedbackStore pl) (imported : Option Bytes)
    (mode : ZenzFeedbackImportMode) (loadIo : LoadIo) (writeIo : WriteIo) :
    importFromFile st imported mode loadIo writeIo =
      match importedRecords pl imported with
      | none => (false, st)
      | some records =>
        match mode with
        | .append =>
          writeFeedbackRecordsAtomically (loadFeedbackRecords st loadIo).2
            ((loadFeedbackRecords st loadIo).1 ++ records) writeIo
        | .replace => writeFeedbackRecordsAtomically st records writeIo := by
  unfold importFromFile importedRecords
  cases imported with
  | none => rfl
  | some content =>
    dsimp only
    cases (loadRecordsFromStream pl true content).1 with
    | false => rfl
    | true => rfl

/-- A write of `records`, started from a store with the same file, is all or nothing for a call
that means to leave `records`. -/
theorem allOrNothing_write (st st' : ZenzFeedbackStore pl) (call : ManagementCall) (io : WriteIo)
    (hfile : st'.file = st.file) (hsafe : ∀ r ∈ records, isSafeFeedbackRecord pl r = true)
    (hint : call.intended pl st.persistedRecords = some records) :
    AllOrNothing st call (writeFeedbackRecordsAtomically st' records io) := by
  have hret := (writeFeedbackRecordsAtomically_spec st' io hsafe).1
  have hlist := writeFeedbackRecordsAtomically_persisted st' io hsafe
  have hpers : st'.persistedRecords = st.persistedRecords := by
    simp [ZenzFeedbackStore.persistedRecords, hfile]
  unfold AllOrNothing
  rw [hret, hlist, hint, hpers]
  cases writeSucceeds st'.file records io with
  | false => exact Or.inl ⟨rfl, rfl⟩
  | true => exact Or.inr ⟨rfl, rfl⟩

theorem allOrNothing_append_iff (st : ZenzFeedbackStore pl) (imported : Option Bytes)
    (loadIo : LoadIo) (writeIo : WriteIo) :
    AllOrNothing st (.importFromFile imported .append)
        (importFromFile st imported .append loadIo writeIo) ↔
      (loadFails st loadIo = true →
        HarmlessUnread st writeIo (.importFromFile imported .append)) := by
  rw [importFromFile_eq]
  cases himp : importedRecords pl imported with
  | none =>
    refine ⟨fun _ _ => Or.inr fun rows h => ?_, fun _ => Or.inl ⟨rfl, rfl⟩⟩
    exact absurd (himp.symm.trans h) (by simp)
  | some records =>
    dsimp only
    have hsafe : ∀ r ∈ (loadFeedbackRecords st loadIo).1 ++ records,
        isSafeFeedbackRecord pl r = true := by
      intro r hr
      rcases List.mem_append.mp hr with hr | hr
      · exact loadFeedbackRecords_safe st loadIo r hr
      · exact importedRecords_safe himp r hr
    by_cases hl : loadFails st loadIo = true
    · -- the old rows are lost exactly when there are some and the write goes through
      have hload : (loadFeedbackRecords st loadIo).1 = [] := by
        rw [loadFeedbackRecords_eq, if_pos hl]
      rw [hload, List.nil_append] at hsafe ⊢
      have hret :=
        (writeFeedbackRecordsAtomically_spec (loadFeedbackRecords st loadIo).2 writeIo hsafe).1
      have hlist :=
        writeFeedbackRecordsAtomically_persisted (loadFeedbackRecords st loadIo).2 writeIo hsafe
      simp only [loadFeedbackRecords_file] at hret hlist
      simp only [AllOrNothing, ManagementCall.intended, HarmlessUnread, himp, hl, hret, hlist,
        Option.map_some, Option.some.injEq, forall_const, forall_eq']
      cases writeSucceeds st.file records writeIo with
      | false =>
        refine ⟨fun _ => Or.inr rfl, fun _ => Or.inl ⟨rfl, ?_⟩⟩
        simp [ZenzFeedbackStore.persistedRecords]
      | true =>
        simp
    · refine ⟨fun _ h => absurd h hl, fun _ => ?_⟩
      refine allOrNothing_write st _ _ writeIo (loadFeedbackRecords_file st loadIo) hsafe ?_
      simp [loadFeedbackRecords_eq, hl, ManagementCall.intended, himp]

theorem allOrNothing_delete_iff (st : ZenzFeedbackStore pl) (key contextClass value : Bytes)
    (loadIo : LoadIo) (writeIo : WriteIo) :
    AllOrNothing st (.deleteEntry key contextClass value)
        (deleteEntry st key contextClass value loadIo writeIo) ↔
      (loadFails st loadIo = true →
        HarmlessUnread st writeIo (.deleteEntry key contextClass value)) := by
  unfold deleteEntry
  dsimp only
  by_cases hany : (loadFeedbackRecords st loadIo).1.any (matchesEntry key contextClass value)
  · -- rows were found, so the load gave what is on disk
    have hl : ¬loadFails st loadIo = true := by
      intro hl
      rw [loadFeedbackRecords_eq, if_pos hl] at hany
      simp at hany
    rw [if_neg (by simp [hany])]
    refine ⟨fun _ h => absurd h hl, fun _ => ?_⟩
    refine allOrNothing_write st _ _ writeIo (loadFeedbackRecords_file st loadIo) ?_ ?_
    · exact fun r hr => loadFeedbackRecords_safe st loadIo r (List.mem_filter.mp hr).1
    · rw [loadFeedbackRecords_eq, if_neg hl, ManagementCall.intended]
  · rw [if_pos (by simp [hany])]
    have hpers : (loadFeedbackRecords st loadIo).2.persistedRecords = st.persistedRecords := by
      simp [ZenzFeedbackStore.persistedRecords]
    have hiff : AllOrNothing st (.deleteEntry key contextClass value)
        (true, (loadFeedbackRecords st loadIo).2) ↔
          ∀ r ∈ st.persistedRecords, matchesEntry key contextClass value r = false := by
      simp [AllOrNothing, ManagementCall.intended, hpers, List.filter_eq_self]
    rw [hiff]
    by_cases hl : loadFails st loadIo = true
    · exact ⟨fun h _ => h, fun h => h hl⟩
    · refine ⟨fun _ h => absurd h hl, fun _ => ?_⟩
      rw [loadFeedbackRecords_eq, if_neg hl] at hany
      simpa using hany

/--
**A management call is all or nothing exactly when a store it could not read does it no harm.**

For every store, import file and failure pattern. `ClearAll` and a replacing import never read
the old list, so nothing is required of them.
-/
theorem management_allOrNothing_iff (st : ZenzFeedbackStore pl) (call : ManagementCall)
    (loadIo : LoadIo) (writeIo : WriteIo) :
    AllOrNothing st call (call.run st loadIo writeIo) ↔
      (loadFails st loadIo = true → HarmlessUnread st writeIo call) := by
  cases call with
  | importFromFile imported mode =>
    cases mode with
    | append => exact allOrNothing_append_iff st imported loadIo writeIo
    | replace =>
      refine ⟨fun _ _ => trivial, fun _ => ?_⟩
      show AllOrNothing st _ (importFromFile st imported .replace loadIo writeIo)
      rw [importFromFile_eq]
      cases himp : importedRecords pl imported with
      | none => exact Or.inl ⟨rfl, rfl⟩
      | some records =>
        exact allOrNothing_write st st _ writeIo rfl (importedRecords_safe himp)
          (by rw [ManagementCall.intended, himp])
  | deleteEntry key contextClass value =>
    exact allOrNothing_delete_iff st key contextClass value loadIo writeIo
  | clearAll =>
    refine ⟨fun _ _ => trivial, fun _ => ?_⟩
    exact allOrNothing_write st st .clearAll writeIo rfl (by simp) rfl

/-- A store with one row that does not open for reading loses the row to an append-import that
reports success. -/
theorem appendImport_unreadStore :
    ¬ ∀ (pl : Platform) (st : ZenzFeedbackStore pl) (call : ManagementCall) (loadIo : LoadIo)
      (writeIo : WriteIo), AllOrNothing st call (call.run st loadIo writeIo) := by
  intro h
  have hcall := h ⟨fun _ => true⟩
    (.withFile (some ⟨utf8 "v2\taccepted\tk\tempty\ta\t\n", 0⟩))
    (.importFromFile (some (utf8 "v2\taccepted\tk\tempty\tb\t\n")) .append)
    ⟨true, true, false⟩ ⟨true, true, true, true, true, 1⟩
  unfold AllOrNothing at hcall
  revert hcall
  decide

end Mozkey.Zenz
