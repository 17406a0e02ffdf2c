import Mozkey.Zenz.FeedbackAgreement
import Mozkey.Zenz.FeedbackDurability

/-!
# Manual blocks

A block is a `rejected` row with one of the hard reasons. Every answer about a value asks
whether such a row exists (`isManuallyBlocked_iff`, `mergedCounts_hardRejected_iff`), so nothing
that only adds rows can undo it.

## The log

What the answers are in terms of the rows, and that they do not look at rows of incompatible
context classes (`SameAnswers`).

## The store

The block row has to stay among the complete rows of the file (`HoldsRow`). Appends keep it
there, whatever they leave behind. An append-import keeps it as far as it read the store it
rewrites.
-/

namespace Mozkey.Zenz

open Infra Std

/-! ## Counting hard rejects -/

/-- A row that blocks its value. -/
def isBlockRow (record : ParsedFeedbackRecord) : Bool :=
  record.action = utf8 "rejected" && isHardRejectReason record.reason

/-- One record sets the flag if it is a block row, and then it counts as a rejection. -/
theorem countRecord_spec (record : ParsedFeedbackRecord) (c : Counts) :
    (countRecord record c).hardRejected = (c.hardRejected || isBlockRow record) ∧
    c.rejected + (if isBlockRow record then 1 else 0) ≤ (countRecord record c).rejected := by
  unfold countRecord isBlockRow
  by_cases ha : record.action = utf8 "accepted"
  · simp [ha, addAccepted, show utf8 "accepted" ≠ utf8 "rejected" by decide]
  · rw [if_neg ha]
    by_cases hb : record.action = utf8 "accepted_rollback"
    · rw [if_pos hb, hb]
      unfold rollbackAccepted
      split <;> simp [show utf8 "accepted_rollback" ≠ utf8 "rejected" by decide]
    · rw [if_neg hb]
      by_cases hr : record.action = utf8 "rejected"
      · rw [if_pos hr, hr]
        refine ⟨by simp [addRejected], ?_⟩
        show c.rejected + _ ≤ c.rejected + 1
        split <;> omega
      · simp [hr]

/-- The same for the records of one key. -/
theorem foldl_countRecord_spec : ∀ (records : List ParsedFeedbackRecord) (c : Counts),
    (records.foldl (fun s r => countRecord r s) c).hardRejected
        = (c.hardRejected || records.any isBlockRow) ∧
    c.rejected + (if records.any isBlockRow then 1 else 0)
        ≤ (records.foldl (fun s r => countRecord r s) c).rejected
  | [], c => by simp
  | record :: rest, c => by
    obtain ⟨hflag, hle⟩ := countRecord_spec record c
    obtain ⟨ihflag, ihle⟩ := foldl_countRecord_spec rest (countRecord record c)
    rw [List.foldl_cons, List.any_cons]
    refine ⟨by rw [ihflag, hflag, Bool.or_assoc], ?_⟩
    revert hle ihle
    cases isBlockRow record <;> cases rest.any isBlockRow <;>
      simp only [Bool.or_true, Bool.or_false, if_true, Bool.false_eq_true, if_false] <;>
      intro hle ihle <;> omega

/-- The entries of a log. -/
theorem getElem?_loadCounts (records : List ParsedFeedbackRecord) (k : FeedbackKey) :
    (loadCounts records)[k]? =
      (if ∃ r ∈ records, feedbackKey r = k then
        some ((records.filter fun r => feedbackKey r = k).foldl (fun s r => countRecord r s) {})
      else none).filter fun c => !(c.accepted == 0 && c.rejected == 0) := by
  rw [loadCounts, TreeMap.getElem?_filter', getElem?_tally]

/-- **An entry is hard rejected exactly when the log has a block row for it.** A block row is a
rejection, so its entry is never dropped. -/
theorem hardRejected_entry_iff (records : List ParsedFeedbackRecord) (k : FeedbackKey) :
    (∃ c, (k, c) ∈ (loadCounts records).toList ∧ c.hardRejected = true) ↔
      ∃ r ∈ records, feedbackKey r = k ∧ isBlockRow r = true := by
  obtain ⟨hflag, hle⟩ := foldl_countRecord_spec (records.filter fun r => feedbackKey r = k) {}
  simp only [TreeMap.mem_toList_iff_getElem?_eq_some, getElem?_loadCounts]
  constructor
  · rintro ⟨c, hc, hhard⟩
    obtain ⟨hc, -⟩ := Option.filter_eq_some_iff.mp hc
    split at hc
    · rw [← Option.some.inj hc, hflag, Bool.false_or, List.any_eq_true] at hhard
      obtain ⟨r, hr, hb⟩ := hhard
      obtain ⟨hr, hk⟩ := List.mem_filter.mp hr
      exact ⟨r, hr, by simpa using hk, hb⟩
    · simp at hc
  · rintro ⟨r, hr, hk, hb⟩
    have hany : (records.filter fun r => feedbackKey r = k).any isBlockRow = true :=
      List.any_eq_true.mpr ⟨r, List.mem_filter.mpr ⟨hr, by simpa using hk⟩, hb⟩
    rw [if_pos ⟨r, hr, hk⟩]
    rw [hany, if_pos rfl] at hle
    refine ⟨_, Option.filter_eq_some_iff.mpr ⟨rfl, ?_⟩, by rw [hflag, hany, Bool.or_true]⟩
    have hpos : 0 < ((records.filter fun r => feedbackKey r = k).foldl
      (fun s r => countRecord r s) {}).rejected := by
      have hzero : ({} : Counts).rejected = 0 := rfl
      omega
    simp
    omega

/-! ## The answers of a log -/

variable {records records' : List ParsedFeedbackRecord} {key contextClass value : Bytes}

/-- The record blocks the value for lookups in this context class. -/
def Blocks (key contextClass value : Bytes) (record : ParsedFeedbackRecord) : Prop :=
  isBlockRow record = true ∧ record.key = key ∧ record.value = value ∧
    isDecisionCompatibleContextClass (normalizeContextClass contextClass) record.contextClass
      = true

theorem isManuallyBlocked_iff :
    isManuallyBlocked records key contextClass value = true ↔
      ∃ r ∈ records, Blocks key contextClass value r := by
  unfold isManuallyBlocked Blocks
  rw [List.any_eq_true]
  constructor
  · rintro ⟨⟨k, c⟩, hm, h⟩
    dsimp only at h
    split at h
    · simp at h
    · next hc =>
      simp only [Bool.or_eq_true, Bool.not_eq_true', bne_iff_ne, not_or, Bool.not_eq_false,
        ne_eq, not_not] at hc
      obtain ⟨⟨hhard, hk⟩, hv⟩ := hc
      obtain ⟨r, hr, hrk, hb⟩ := (hardRejected_entry_iff records k).mp ⟨c, hm, hhard⟩
      subst hrk
      exact ⟨r, hr, hb, hk, hv, h⟩
  · rintro ⟨r, hr, hb, hk, hv, hc⟩
    obtain ⟨c, hm, hhard⟩ := (hardRejected_entry_iff records (feedbackKey r)).mpr ⟨r, hr, rfl, hb⟩
    refine ⟨(feedbackKey r, c), hm, ?_⟩
    simp [feedbackKey, hhard, hk, hv, hc]

theorem mergeAll_hardRejected : ∀ (items : List (FeedbackKey × Counts)) (c : Counts),
    (mergeAll c items).hardRejected = (c.hardRejected || items.any fun i => i.2.hardRejected)
  | [], c => by simp
  | i :: rest, c => by
    simp [mergeAll_cons, mergeAll_hardRejected rest, mergeCounts, Bool.or_assoc]

theorem mergedCounts_hardRejected_iff :
    (mergedCounts records key contextClass value).1.hardRejected = true ↔
      ∃ r ∈ records, Blocks key contextClass value r := by
  rw [mergedCounts, mergeForValue_eq, mergeAll_hardRejected, Bool.false_or, List.any_eq_true]
  simp only [List.mem_filter, compatibleEntry, Bool.and_eq_true, decide_eq_true_eq]
  constructor
  · rintro ⟨⟨k, c⟩, ⟨⟨hm, hk, hc⟩, hv⟩, hhard⟩
    obtain ⟨r, hr, hrk, hb⟩ := (hardRejected_entry_iff records k).mp ⟨c, hm, hhard⟩
    subst hrk
    exact ⟨r, hr, hb, hk, hv, hc⟩
  · rintro ⟨r, hr, hb, hk, hv, hc⟩
    obtain ⟨c, hm, hhard⟩ := (hardRejected_entry_iff records (feedbackKey r)).mpr ⟨r, hr, rfl, hb⟩
    exact ⟨(feedbackKey r, c), ⟨⟨hm, hk, hc⟩, hv⟩, hhard⟩

/-- What every kind of lookup says about a blocked value, for every policy. -/
structure ManuallyBlocked (records : List ParsedFeedbackRecord)
    (key contextClass value : Bytes) : Prop where
  blocked : isManuallyBlocked records key contextClass value = true
  rejected : ∀ policy, (decideFeedback records key contextClass value policy).action = .reject ∧
    (decideFeedback records key contextClass value policy).hardRejected = true
  unranked : ∀ policy, ∀ c ∈ getRankedCandidates records key contextClass policy, c.value ≠ value
  listed : ∀ policy, ∃ e ∈ listEntries records policy,
    e.key = key ∧ e.value = value ∧ e.hardRejected = true

/-- A hard reject goes through all the rules of `Decide`. -/
theorem decideFeedback_of_hardRejected (policy : ZenzFeedbackReusePolicy)
    (h : (mergedCounts records key contextClass value).1.hardRejected = true) :
    (decideFeedback records key contextClass value policy).action = .reject ∧
    (decideFeedback records key contextClass value policy).hardRejected = true := by
  have hbuild : (buildDecisionFromCounts
      (mergedCounts records key contextClass value).1).action = .reject := by
    unfold buildDecisionFromCounts
    dsimp only
    rw [if_pos h]
  have hhard : (buildDecisionFromCounts
      (mergedCounts records key contextClass value).1).hardRejected = true := by
    rw [buildDecisionFromCounts_hardRejected, h]
  unfold mergedCounts at hbuild hhard
  unfold decideFeedback
  dsimp only
  split
  · rw [if_neg (by rw [hhard]; decide)]
    exact ⟨hbuild, hhard⟩
  · unfold applyAutoBlockDecision applyRejectDominanceDecision
    simp only [hhard, Bool.true_or, if_true]
    exact ⟨hbuild, trivial⟩

theorem mem_listEntries {policy : ZenzFeedbackReusePolicy} {e : ZenzFeedbackEntry} :
    e ∈ listEntries records policy ↔
      ∃ k c, (loadCounts records)[k]? = some c ∧ feedbackEntry policy k c = e := by
  unfold listEntries
  rw [(List.perm_insertionSort _ _).mem_iff, List.mem_map]
  constructor
  · rintro ⟨⟨k, c⟩, hm, he⟩
    exact ⟨k, c, TreeMap.mem_toList_iff_getElem?_eq_some.mp hm, he⟩
  · rintro ⟨k, c, hm, he⟩
    exact ⟨(k, c), TreeMap.mem_toList_iff_getElem?_eq_some.mpr hm, he⟩

@[simp] theorem feedbackEntry_hardRejected (policy : ZenzFeedbackReusePolicy) (k : FeedbackKey)
    (c : Counts) (h : c.hardRejected = true) :
    (feedbackEntry policy k c).hardRejected = true := by
  simp [feedbackEntry, applyAutoBlockDecision, applyRejectDominanceDecision, h]

/-- **One block row decides every answer.** -/
theorem manuallyBlocked_of_row {r : ParsedFeedbackRecord} (hr : r ∈ records)
    (h : Blocks key contextClass value r) : ManuallyBlocked records key contextClass value where
  blocked := isManuallyBlocked_iff.mpr ⟨r, hr, h⟩
  rejected := fun policy =>
    decideFeedback_of_hardRejected policy (mergedCounts_hardRejected_iff.mpr ⟨r, hr, h⟩)
  unranked := by
    rintro policy c hc rfl
    obtain ⟨-, hm⟩ := mem_getRankedCandidates.mp hc
    obtain ⟨⟨hno, -⟩, -⟩ := candidate_counts hm
    have hyes := mergedCounts_hardRejected_iff.mpr ⟨r, hr, h⟩
    exact absurd (hyes.symm.trans hno) (by simp)
  listed := by
    intro policy
    obtain ⟨hb, hk, hv, -⟩ := h
    obtain ⟨c, hm, hhard⟩ := (hardRejected_entry_iff records (feedbackKey r)).mpr ⟨r, hr, rfl, hb⟩
    have hm := TreeMap.mem_toList_iff_getElem?_eq_some.mp hm
    exact ⟨_, mem_listEntries.mpr ⟨_, c, hm, rfl⟩, hk, hv,
      feedbackEntry_hardRejected policy _ c hhard⟩

/-! ## Incompatible classes -/

/-- The records a lookup in this class can see. -/
def compatibleRecords (contextClass : Bytes) (records : List ParsedFeedbackRecord) :
    List ParsedFeedbackRecord :=
  records.filter fun r => isDecisionCompatibleContextClass contextClass r.contextClass

theorem filter_feedbackKey_congr (k : FeedbackKey)
    (hk : isDecisionCompatibleContextClass contextClass k.contextClass = true)
    (h : compatibleRecords contextClass records = compatibleRecords contextClass records') :
    records.filter (fun r => feedbackKey r = k) = records'.filter fun r => feedbackKey r = k := by
  have hsub : ∀ l : List ParsedFeedbackRecord, l.filter (fun r => feedbackKey r = k)
      = (compatibleRecords contextClass l).filter fun r => feedbackKey r = k := by
    intro l
    unfold compatibleRecords
    rw [List.filter_filter]
    refine List.filter_congr fun r _ => ?_
    by_cases hr : feedbackKey r = k
    · have hc : isDecisionCompatibleContextClass contextClass r.contextClass = true := by
        rw [← hk, ← hr]; rfl
      simp [hr, hc]
    · simp [hr]
  rw [hsub records, h, ← hsub records']

/-- The entries of a compatible class only come from records a lookup can see. -/
theorem getElem?_loadCounts_congr (k : FeedbackKey)
    (hk : isDecisionCompatibleContextClass contextClass k.contextClass = true)
    (h : compatibleRecords contextClass records = compatibleRecords contextClass records') :
    (loadCounts records)[k]? = (loadCounts records')[k]? := by
  have hfilter := filter_feedbackKey_congr k hk h
  have hex : (∃ r ∈ records, feedbackKey r = k) ↔ ∃ r ∈ records', feedbackKey r = k := by
    have hmem : ∀ l : List ParsedFeedbackRecord, (∃ r ∈ l, feedbackKey r = k) ↔
        l.filter (fun r => feedbackKey r = k) ≠ [] := by
      intro l
      simp [List.filter_eq_nil_iff]
    rw [hmem, hmem, hfilter]
  simp only [getElem?_loadCounts, hfilter, hex]

theorem compatibleEntries_congr
    (h : compatibleRecords contextClass records = compatibleRecords contextClass records') :
    (loadCounts records).toList.filter
        (fun i => isDecisionCompatibleContextClass contextClass i.1.contextClass)
      = (loadCounts records').toList.filter
        fun i => isDecisionCompatibleContextClass contextClass i.1.contextClass := by
  have hequiv : ((loadCounts records).filter
        fun k _ => isDecisionCompatibleContextClass contextClass k.contextClass).Equiv
      ((loadCounts records').filter
        fun k _ => isDecisionCompatibleContextClass contextClass k.contextClass) := by
    refine TreeMap.Equiv.of_forall_constGet?_eq fun k => ?_
    rw [TreeMap.getElem?_filter', TreeMap.getElem?_filter']
    by_cases hk : isDecisionCompatibleContextClass contextClass k.contextClass = true
    · rw [getElem?_loadCounts_congr k hk h]
    · simp [hk]
  have hlist := hequiv.toList_eq
  rwa [TreeMap.toList_filter, TreeMap.toList_filter] at hlist

theorem filter_compatibleEntry (items : List (FeedbackKey × Counts)) :
    items.filter (compatibleEntry key contextClass) = (items.filter
      fun i => isDecisionCompatibleContextClass contextClass i.1.contextClass).filter
        (compatibleEntry key contextClass) := by
  rw [List.filter_filter]
  refine List.filter_congr fun i _ => ?_
  unfold compatibleEntry
  cases isDecisionCompatibleContextClass contextClass i.1.contextClass <;> simp

/-- The class itself is one of the compatible ones. -/
theorem filter_exactEntry (items : List (FeedbackKey × Counts)) :
    items.filter (exactEntry key contextClass) = (items.filter
      fun i => isDecisionCompatibleContextClass contextClass i.1.contextClass).filter
        (exactEntry key contextClass) := by
  rw [List.filter_filter]
  refine List.filter_congr fun i _ => ?_
  unfold exactEntry
  by_cases hx : i.1.contextClass = contextClass
  · simp [hx, isDecisionCompatibleContextClass_self]
  · simp [hx]

/-- Two logs answer every lookup in a context class alike. -/
structure SameAnswers (records records' : List ParsedFeedbackRecord) (contextClass : Bytes) :
    Prop where
  blocked : ∀ key value, isManuallyBlocked records key contextClass value
    = isManuallyBlocked records' key contextClass value
  decision : ∀ key value policy, decideFeedback records key contextClass value policy
    = decideFeedback records' key contextClass value policy
  ranked : ∀ key policy, getRankedCandidates records key contextClass policy
    = getRankedCandidates records' key contextClass policy
  listed : ∀ policy, ∀ e : ZenzFeedbackEntry,
    isDecisionCompatibleContextClass (normalizeContextClass contextClass) e.contextClass = true →
      (e ∈ listEntries records policy ↔ e ∈ listEntries records' policy)

/-- **A lookup only depends on the records of compatible classes.** -/
theorem sameAnswers_of_compatibleRecords
    (h : compatibleRecords (normalizeContextClass contextClass) records
      = compatibleRecords (normalizeContextClass contextClass) records') :
    SameAnswers records records' contextClass where
  blocked := by
    have hsub : ∀ (l : List ParsedFeedbackRecord) (key value : Bytes),
        (∃ r ∈ l, Blocks key contextClass value r) ↔
          ∃ r ∈ compatibleRecords (normalizeContextClass contextClass) l,
            Blocks key contextClass value r := by
      intro l key value
      constructor
      · rintro ⟨r, hr, hb⟩
        exact ⟨r, List.mem_filter.mpr ⟨hr, hb.2.2.2⟩, hb⟩
      · rintro ⟨r, hr, hb⟩
        exact ⟨r, (List.mem_filter.mp hr).1, hb⟩
    intro key value
    rw [Bool.eq_iff_iff, isManuallyBlocked_iff, isManuallyBlocked_iff, hsub records, h,
      ← hsub records']
  decision := by
    intro key value policy
    unfold decideFeedback
    rw [mergeForValue_eq, mergeForValue_eq, filter_compatibleEntry, filter_exactEntry,
      compatibleEntries_congr h, ← filter_compatibleEntry, ← filter_exactEntry]
  ranked := by
    intro key policy
    unfold getRankedCandidates
    rw [mergeByValue_eq, mergeByValue_eq, filter_compatibleEntry, filter_exactEntry,
      compatibleEntries_congr h, ← filter_compatibleEntry, ← filter_exactEntry]
  listed := by
    intro policy e he
    rw [mem_listEntries, mem_listEntries]
    constructor
    · rintro ⟨k, c, hc, rfl⟩
      exact ⟨k, c, (getElem?_loadCounts_congr k he h).symm.trans hc, rfl⟩
    · rintro ⟨k, c, hc, rfl⟩
      exact ⟨k, c, (getElem?_loadCounts_congr k he h).trans hc, rfl⟩

/-- A row of an incompatible class is not seen. -/
theorem compatibleRecords_insert (before after : List ParsedFeedbackRecord)
    {r : ParsedFeedbackRecord}
    (h : isDecisionCompatibleContextClass contextClass r.contextClass = false) :
    compatibleRecords contextClass (before ++ r :: after)
      = compatibleRecords contextClass (before ++ after) := by
  simp [compatibleRecords, h]

/-! ## Rows that stay -/

variable {pl : Platform}

/-- The record is read from the complete lines the file begins with. -/
def HoldsRow (st : ZenzFeedbackStore pl) (r : ParsedFeedbackRecord) : Prop :=
  ∃ complete rest, st.content = complete ++ rest ∧ Terminated lf complete ∧
    r ∈ (loadRecordsFromStream pl false complete).2

theorem HoldsRow.persisted {st : ZenzFeedbackStore pl} {r : ParsedFeedbackRecord}
    (h : HoldsRow st r) : r ∈ st.persistedRecords := by
  obtain ⟨complete, rest, hcontent, hterm, hr⟩ := h
  rw [ZenzFeedbackStore.persistedRecords_eq, hcontent, loadRecordsFromStream_append hterm]
  exact List.mem_append_left _ hr

/-- Whatever an append leaves behind goes after the complete lines. -/
theorem HoldsRow.append {st st' : ZenzFeedbackStore pl} {r : ParsedFeedbackRecord}
    (h : HoldsRow st r) {bytes : Bytes} (hst : st'.content = st.content ++ bytes) :
    HoldsRow st' r := by
  obtain ⟨complete, rest, hcontent, hterm, hr⟩ := h
  exact ⟨complete, rest ++ bytes, by rw [hst, hcontent, List.append_assoc], hterm, hr⟩

theorem HoldsRow.of_content_eq {st st' : ZenzFeedbackStore pl} {r : ParsedFeedbackRecord}
    (h : HoldsRow st r) (hst : st'.content = st.content) : HoldsRow st' r :=
  h.append (hst.trans (List.append_nil _).symm)

@[simp] theorem loadFeedbackRecords_content (st : ZenzFeedbackStore pl) (io : LoadIo) :
    (loadFeedbackRecords st io).2.content = st.content := by
  simp [ZenzFeedbackStore.content]

/-! ## Runs -/

inductive FeedbackCall where
  | recordAccepted (key contextClass value : Bytes) (io : AppendIo) (now : Nat)
  | recordAcceptedRollback (key contextClass value reason : Bytes) (io : AppendIo) (now : Nat)
  | recordRejected (key contextClass value reason : Bytes) (io : AppendIo) (now : Nat)
  | recordManualBlock (key contextClass value : Bytes) (loadIo : LoadIo) (io : AppendIo)
      (now : Nat)
  | importAppend (imported : Option Bytes) (loadIo : LoadIo) (writeIo : WriteIo)

def FeedbackCall.run (st : ZenzFeedbackStore pl) : FeedbackCall → ZenzFeedbackStore pl
  | .recordAccepted key contextClass value io now =>
    (Zenz.recordAccepted st key contextClass value io now).2
  | .recordAcceptedRollback key contextClass value reason io now =>
    Zenz.recordAcceptedRollback st key contextClass value reason io now
  | .recordRejected key contextClass value reason io now =>
    Zenz.recordRejected st key contextClass value reason io now
  | .recordManualBlock key contextClass value loadIo io now =>
    (Zenz.recordManualBlock st key contextClass value loadIo io now).2
  | .importAppend imported loadIo writeIo =>
    (importFromFile st imported .append loadIo writeIo).2

/-- An append-import that could not read the store does it no harm. -/
def FeedbackCall.Harmless (st : ZenzFeedbackStore pl) : FeedbackCall → Prop
  | .importAppend imported loadIo writeIo =>
    loadFails st loadIo = true → HarmlessUnread st writeIo (.importFromFile imported .append)
  | _ => True

def runCalls (st : ZenzFeedbackStore pl) : List FeedbackCall → ZenzFeedbackStore pl
  | [] => st
  | call :: rest => runCalls (call.run st) rest

def HarmlessRun (st : ZenzFeedbackStore pl) : List FeedbackCall → Prop
  | [] => True
  | call :: rest => call.Harmless st ∧ HarmlessRun (call.run st) rest

theorem holdsRow_importAppend {st : ZenzFeedbackStore pl} {r : ParsedFeedbackRecord}
    (h : HoldsRow st r) (imported : Option Bytes) (loadIo : LoadIo) (writeIo : WriteIo)
    (hsafe : loadFails st loadIo = true →
      HarmlessUnread st writeIo (.importFromFile imported .append)) :
    HoldsRow (importFromFile st imported .append loadIo writeIo).2 r := by
  rw [importFromFile_eq]
  cases himp : importedRecords pl imported with
  | none => exact h
  | some new =>
    dsimp only
    have hrows : ∀ r ∈ (loadFeedbackRecords st loadIo).1 ++ new,
        isSafeFeedbackRecord pl r = true := by
      intro r hr
      rcases List.mem_append.mp hr with hr | hr
      · exact loadFeedbackRecords_safe st loadIo r hr
      · exact importedRecords_safe himp r hr
    have hcontent :=
      (writeFeedbackRecordsAtomically_spec (loadFeedbackRecords st loadIo).2 writeIo hrows).2
    rw [loadFeedbackRecords_file, loadFeedbackRecords_content] at hcontent
    by_cases hl : loadFails st loadIo = true
    · -- the old rows are not among the new ones, so the write must not go through
      rcases hsafe hl with hnil | hfails
      · have hr := h.persisted
        rw [hnil] at hr
        simp at hr
      · refine h.of_content_eq (hcontent.trans (if_neg ?_))
        rw [loadFeedbackRecords_eq, if_pos hl, List.nil_append, hfails new himp]
        decide
    · split at hcontent
      · refine ⟨_, [], hcontent.trans (List.append_nil _).symm, terminated_rows _, ?_⟩
        rw [loadRecordsFromStream_rows hrows, loadFeedbackRecords_eq, if_neg hl]
        exact List.mem_append_left _ h.persisted
      · exact h.of_content_eq hcontent

theorem FeedbackCall.run_holdsRow {st : ZenzFeedbackStore pl} {r : ParsedFeedbackRecord}
    (h : HoldsRow st r) : ∀ call : FeedbackCall, call.Harmless st → HoldsRow (call.run st) r
  | .recordAccepted key contextClass value io now, _ =>
    h.append (AppendCall.run_content st ⟨utf8 "accepted", key, contextClass, value, [], io, now⟩)
  | .recordAcceptedRollback key contextClass value reason io now, _ =>
    h.append (AppendCall.run_content st
      ⟨utf8 "accepted_rollback", key, contextClass, value, reason, io, now⟩)
  | .recordRejected key contextClass value reason io now, _ =>
    h.append (AppendCall.run_content st
      ⟨utf8 "rejected", key, contextClass, value, reason, io, now⟩)
  | .recordManualBlock key contextClass value loadIo io now, _ => by
    show HoldsRow (Zenz.recordManualBlock st key contextClass value loadIo io now).2 r
    have hload : HoldsRow (loadFeedbackRecords st loadIo).2 r :=
      h.of_content_eq (loadFeedbackRecords_content st loadIo)
    unfold Zenz.recordManualBlock
    dsimp only
    split
    · exact hload
    · exact hload.append (AppendCall.run_content _
        ⟨utf8 "rejected", key, contextClass, value, utf8 "hard_reject", io, now⟩)
  | .importAppend imported loadIo writeIo, hsafe =>
    holdsRow_importAppend h imported loadIo writeIo hsafe

theorem runCalls_holdsRow {r : ParsedFeedbackRecord} : ∀ (calls : List FeedbackCall)
    (st : ZenzFeedbackStore pl), HoldsRow st r → HarmlessRun st calls →
    HoldsRow (runCalls st calls) r
  | [], _, h, _ => h
  | call :: rest, st, h, hrun =>
    runCalls_holdsRow rest (call.run st) (call.run_holdsRow h hrun.1) hrun.2

theorem isBlockRow_manualBlockRecord (key contextClass value : Bytes) :
    isBlockRow (manualBlockRecord key contextClass value) = true := by
  have hreason : isHardRejectReason (utf8 "hard_reject") = true := by decide
  simp [isBlockRow, manualBlockRecord, appendedRecord, hreason]

/-- When `RecordManualBlock` returns true on a file of complete lines, one of them blocks. -/
theorem recordManualBlock_holdsRow {st : ZenzFeedbackStore pl} {loadIo : LoadIo} {io : AppendIo}
    {now : Nat} (hfile : Terminated lf st.content)
    (hret : (recordManualBlock st key contextClass value loadIo io now).1 = true) :
    ∃ r, Blocks key contextClass value r ∧
      HoldsRow (recordManualBlock st key contextClass value loadIo io now).2 r := by
  unfold recordManualBlock at hret ⊢
  dsimp only at hret ⊢
  split
  · next hblocked =>
    -- blocked before: the row was among the loaded ones
    obtain ⟨r, hr, hb⟩ := isManuallyBlocked_iff.mp hblocked
    refine ⟨r, hb, st.content, [], by simp, hfile, ?_⟩
    rw [loadFeedbackRecords_eq] at hr
    split at hr
    · simp at hr
    · rwa [← ZenzFeedbackStore.persistedRecords_eq]
  · next hnot =>
    rw [if_neg hnot] at hret
    let call : AppendCall :=
      ⟨utf8 "rejected", key, contextClass, value, utf8 "hard_reject", io, now⟩
    have hreturned : (call.run (loadFeedbackRecords st loadIo).2).1 = true := hret
    obtain ⟨hsafe, hio⟩ := AppendCall.run_returned _ hreturned
    have hcontent : _ = _ ++ call.added pl := call.run_content (loadFeedbackRecords st loadIo).2
    rw [AppendCall.added, if_pos hsafe, hio, loadFeedbackRecords_content] at hcontent
    have hrow : loadRecordsFromStream pl false (rows [call.record]) = (true, [call.record]) :=
      loadRecordsFromStream_rows fun r hr => by rw [List.mem_singleton.mp hr]; exact hsafe
    rw [rows_cons, rows_nil, List.append_nil] at hrow
    refine ⟨call.record, ⟨isBlockRow_manualBlockRecord _ _ _, rfl, rfl,
      isDecisionCompatibleContextClass_self _⟩, _, [], hcontent.trans (List.append_nil _).symm,
      hfile.append (terminated_row _), ?_⟩
    rw [loadRecordsFromStream_append hfile, hrow]
    exact List.mem_append_right _ (List.mem_singleton_self _)

/--
**A manual block stays.**

Recorded on a file of complete lines, it is seen by every later lookup that can read the store,
whatever was recorded, appended in part or imported in between, as long as no append-import
rewrote a store it could not read. Lookups in incompatible classes never see it: with and
without its row, a log gives them the same answers.
-/
theorem manualBlock_permanent (st : ZenzFeedbackStore pl) (key contextClass value : Bytes)
    (loadIo : LoadIo) (io : AppendIo) (now : Nat) (hfile : Terminated lf st.content)
    (hret : (recordManualBlock st key contextClass value loadIo io now).1 = true)
    (calls : List FeedbackCall)
    (hrun : HarmlessRun (recordManualBlock st key contextClass value loadIo io now).2 calls) :
    (∀ query, loadFails
        (runCalls (recordManualBlock st key contextClass value loadIo io now).2 calls) query
          = false →
      ManuallyBlocked (loadFeedbackRecords
        (runCalls (recordManualBlock st key contextClass value loadIo io now).2 calls) query).1
        key contextClass value) ∧
    ∀ (before after : List ParsedFeedbackRecord) (requested : Bytes),
      isDecisionCompatibleContextClass (normalizeContextClass requested)
        (normalizeContextClass contextClass) = false →
      SameAnswers (before ++ manualBlockRecord key contextClass value :: after) (before ++ after)
        requested := by
  refine ⟨fun query hquery => ?_, fun before after requested hinc => ?_⟩
  · obtain ⟨r, hb, hrow⟩ := recordManualBlock_holdsRow hfile hret
    have hlater := runCalls_holdsRow calls _ hrow hrun
    refine manuallyBlocked_of_row (r := r) ?_ hb
    rw [loadFeedbackRecords_eq, hquery]
    exact hlater.persisted
  · exact sameAnswers_of_compatibleRecords (compatibleRecords_insert before after hinc)

/-- `manualBlock_permanent` on a run that accepts the value again and imports a row for it. -/
theorem manualBlock_permanent_run :
    ManuallyBlocked (loadFeedbackRecords
      (runCalls (recordManualBlock (.withFile none : ZenzFeedbackStore ⟨fun _ => true⟩)
          (utf8 "k") [] (utf8 "a") ⟨true, true, true⟩ .flushed 1).2
        [.recordAccepted (utf8 "k") [] (utf8 "a") .flushed 2,
          .importAppend (some (utf8 "v2\taccepted\tk\tempty\ta\t\n")) ⟨true, true, true⟩
            ⟨true, true, true, true, true, 3⟩]) ⟨true, true, true⟩).1
      (utf8 "k") [] (utf8 "a") := by
  refine (manualBlock_permanent _ _ _ _ _ _ _ (Or.inl rfl) (by decide) _ ?_).1 _ (by decide)
  refine ⟨trivial, ?_, trivial⟩
  intro h
  exact absurd h (by decide)

instance (key contextClass value : Bytes) (record : ParsedFeedbackRecord) :
    Decidable (Blocks key contextClass value record) := by
  unfold Blocks
  infer_instance

/-- The block is gone after an append-import that could not open the store for reading. -/
theorem manualBlock_lost :
    ¬ ∀ (pl : Platform) (st : ZenzFeedbackStore pl) (key contextClass value : Bytes)
      (loadIo : LoadIo) (io : AppendIo) (now : Nat) (calls : List FeedbackCall) (query : LoadIo),
      Terminated lf st.content →
      (recordManualBlock st key contextClass value loadIo io now).1 = true →
      loadFails (runCalls (recordManualBlock st key contextClass value loadIo io now).2 calls) query
        = false →
      ManuallyBlocked (loadFeedbackRecords
        (runCalls (recordManualBlock st key contextClass value loadIo io now).2 calls) query).1
        key contextClass value := by
  intro h
  have hrun := h ⟨fun _ => true⟩ (.withFile none) (utf8 "k") [] (utf8 "a") ⟨true, true, true⟩
    .flushed 1
    [.importAppend (some (utf8 "v2\taccepted\tk\tempty\ta\t\n")) ⟨true, true, false⟩
      ⟨true, true, true, true, true, 2⟩]
    ⟨true, true, true⟩ (Or.inl rfl) (by decide) (by decide)
  have hrow := isManuallyBlocked_iff.mp hrun.blocked
  revert hrow
  decide

end Mozkey.Zenz
