import Mozkey.Prediction.CommitUndo

/-!
# Making a commit again

When the text in front of the cursor still ends with the whole value, the next request makes a
reverted commit again.

* `revert_exact` — when a revert restores the history, and when the commit comes back
* `not_restored_twice` — one that does not: a segment is committed twice
-/

namespace Mozkey.Prediction

open Infra Base Converter UserHistoryStorage AcceptedWrite

variable {city : City} {fp : UInt64}

/-- What has to hold for the commit to come back, when `offset` bytes of its value are left. -/
structure Redoable (storage : UserHistoryStorage city) (segments : SegmentsForLearning) (now : Nat)
    (results : List Result) (offset : Nat) : Prop where
  once : ∀ fp, recordings storage (commitWrites storage segments now) results fp ≤ 1
  inserted : ∀ w ∈ commitWrites storage segments now, w.valueBegin + w.value.length ≤ offset
  unselected : ∀ fp e, storage.lookup fp = some e →
    removalsAt storage (commitWrites storage segments now) results fp ≠ 0 →
      e.value.length ≤ offset ∧ isValidUtf8 e.value = true ∧ isValidUtf8 e.key = true
  /-- The link from the history is not made again. -/
  link : ∀ link, historyLink storage segments now = some link →
    recordings storage (commitWrites storage segments now) results link.fp = 1 ∨
      (link.KeepsLinks storage ∧ shownTimes city link.fp results = 0)

section

variable {storage : UserHistoryStorage city} {segments : SegmentsForLearning} {now offset : Nat}
  {results : List Result} {state : Learning city} {modules : Modules} {last : RevertEntries}

/-- The entries that a commit left can be read, and are in what is left of the value. -/
theorem Committed.recommitted (h : Committed storage segments now results state)
    (hredo : Redoable storage segments now results offset) {r r' : RevertRecord}
    (hr : r' ∈ state.revertEntries.entries) (hbegin : r.valueBegin = r'.valueBegin)
    (hfp : r.revertEntry.fp city = r'.revertEntry.fp city)
    (hlookup : state.storage.lookup (r.revertEntry.fp city) = some r.revertEntry.1)
    (current : UserHistoryStorage city) :
    recommit modules last offset current r = current.assign r.revertEntry := by
  suffices hread : isValidUtf8 r.revertEntry.1.value = true ∧
      isValidUtf8 r.revertEntry.1.key = true ∧ r.valueEnd ≤ offset by
    unfold recommit
    dsimp only
    rw [hread.1, hread.2.1, if_neg (by simp), if_pos hread.2.2]
  have hstate := h.lookup (r.revertEntry.fp city)
  have hsum := hredo.once (r.revertEntry.fp city)
  unfold recordings at hsum
  rcases h.offsets r' hr with ⟨w, hw, hwbegin, hwfp⟩ | ⟨hzero, hremoved⟩
  · have hcount : count city (r.revertEntry.fp city) (commitWrites storage segments now) = 1 := by
      have hpos : 0 < count city (r.revertEntry.fp city) (commitWrites storage segments now) :=
        List.countP_pos_iff.mpr ⟨w, hw, by simp [hfp, hwfp]⟩
      omega
    rw [writtenAt_of_once hcount hw (by rw [hfp, hwfp]), hlookup] at hstate
    simp only [Option.map_some, Option.some.injEq] at hstate
    obtain ⟨hkey, hvalue⟩ := unselectTimes_key_value selectedRatioIsLow
      (shownTimes city (r.revertEntry.fp city) results)
      (linked (historyLink storage segments now) (r.revertEntry.fp city) (w.written
        (storage.lookup (r.revertEntry.fp city))).1)
    rw [← hstate] at hkey hvalue
    rw [(linked_key_value ..).1] at hkey
    rw [(linked_key_value ..).2] at hvalue
    have hwkey : r.revertEntry.1.key = w.key := hkey
    have hwvalue : r.revertEntry.1.value = w.value := hvalue
    rw [RevertRecord.valueEnd, hwkey, hwvalue, hbegin, hwbegin]
    exact ⟨w.valid.2, w.valid.1, hredo.inserted w hw⟩
  · rw [← hfp] at hremoved
    have hcount : count city (r.revertEntry.fp city) (commitWrites storage segments now) = 0 := by
      omega
    rw [(not_written hcount _).1, hlookup] at hstate
    obtain ⟨e', he', hr'⟩ := Option.map_eq_some_iff.mp hstate.symm
    obtain ⟨e, he, rfl⟩ := Option.map_eq_some_iff.mp he'
    obtain ⟨hkey, hvalue⟩ := unselectTimes_key_value selectedRatioIsLow
      (shownTimes city (r.revertEntry.fp city) results)
      (linked (historyLink storage segments now) (r.revertEntry.fp city) e)
    rw [hr', (linked_key_value ..).1] at hkey
    rw [hr', (linked_key_value ..).2] at hvalue
    obtain ⟨hlen, hvalid⟩ := hredo.unselected _ e he hremoved
    simpa [RevertRecord.valueEnd, hkey, hvalue, hbegin, hzero] using ⟨hvalid.1, hvalid.2, hlen⟩

/-- Entries that are put back in their places. -/
theorem lookup_foldl_assign {target : UserHistoryStorage city}
    {step : UserHistoryStorage city → RevertRecord → UserHistoryStorage city} :
    ∀ {records : List RevertRecord} {current : UserHistoryStorage city},
      (∀ r ∈ records, (∀ current, step current r = current.assign r.revertEntry) ∧
        target.lookup (r.revertEntry.fp city) = some r.revertEntry.1) →
      (records.foldl step current).lookup fp = (current.lookup fp).bind fun e =>
        if ∃ r ∈ records, r.revertEntry.fp city = fp then target.lookup fp else some e
  | [], current, _ => by
    cases h : current.lookup fp <;> simp [h]
  | r :: records, current, h => by
    obtain ⟨hstep, htarget⟩ := h r List.mem_cons_self
    have hrest := (List.forall_mem_cons.mp h).2
    rw [List.foldl_cons, hstep, lookup_foldl_assign hrest, lookup_assign]
    cases he : current.lookup fp with
    | none => split <;> rfl
    | some e =>
      by_cases hlater : ∃ r' ∈ records, r'.revertEntry.fp city = fp
      · have hcons : ∃ r' ∈ r :: records, r'.revertEntry.fp city = fp := by
          obtain ⟨r', hr', hfp⟩ := hlater
          exact ⟨r', List.mem_cons_of_mem _ hr', hfp⟩
        simp only [if_pos hlater, if_pos hcons]
        split <;> rfl
      · by_cases hfp : fp = r.revertEntry.fp city
        · have hcons : ∃ r' ∈ r :: records, r'.revertEntry.fp city = fp :=
            ⟨r, List.mem_cons_self, hfp.symm⟩
          simp only [if_neg hlater, if_pos hcons, if_pos hfp]
          simp [hfp, htarget]
        · have hcons : ¬∃ r' ∈ r :: records, r'.revertEntry.fp city = fp := by
            rintro ⟨r', hr', hfp'⟩
            rcases List.mem_cons.mp hr' with rfl | hr'
            · exact hfp hfp'.symm
            · exact hlater ⟨r', hr', hfp'⟩
          simp only [if_neg hlater, if_neg hcons, if_neg hfp]

theorem insertNextEntries_of_keeps {nextFps : List UInt64} {e : Entry}
    (h : nextFps.foldl insertNextEntry e.nextEntryFps = e.nextEntryFps) :
    insertNextEntries nextFps e = e := by
  unfold insertNextEntries
  rw [h]

/-- What is recorded has a value. -/
theorem Committed.offset_ne_zero (h : Committed storage segments now results state)
    (hredo : Redoable storage segments now results offset)
    (hne : state.revertEntries.entries ≠ []) : offset ≠ 0 := by
  obtain ⟨r, hr⟩ := List.exists_mem_of_ne_nil _ hne
  rcases h.offsets r hr with ⟨w, hw, -⟩ | ⟨-, hremoved⟩
  · have hle := hredo.inserted w hw
    have hpos := List.length_pos_of_ne_nil w.nonempty.2
    omega
  · have hsum := hredo.once (r.revertEntry.fp city)
    unfold recordings at hsum
    have hcount : count city (r.revertEntry.fp city) (commitWrites storage segments now) = 0 := by
      omega
    have hsome := hremoved
    unfold removalsAt at hsome
    rw [(not_written hcount _).1] at hsome
    cases he : storage.lookup (r.revertEntry.fp city) with
    | none =>
      simp [he] at hsome
    | some e =>
      have hle := (hredo.unselected _ e he hremoved).1
      have hpos := List.length_pos_of_ne_nil (value_ne_nil he)
      omega

/-- An entry that is not recorded is behind the revert what it was behind the commit. -/
theorem Committed.lookup_undone_of_unrecorded (h : Committed storage segments now results state)
    (hredo : Redoable storage segments now results offset)
    (hnil : Prediction.recordedAt city fp state.revertEntries.entries = []) :
    (undone state).lookup fp = state.storage.lookup fp := by
  have hloop : (state.revertEntries.entries.foldl undo (state.storage, [])).1.lookup fp =
      state.storage.lookup fp := by
    rw [lookup_undone, hnil]
    simp
  have hrecordings := h.length_records fp
  rw [hnil, List.length_nil] at hrecordings
  have hcount : count city fp (commitWrites storage segments now) = 0 :=
    Nat.eq_zero_of_add_eq_zero_right hrecordings.symm
  unfold undone
  dsimp only
  split
  · exact hloop
  · next e he =>
    rw [lookup_assign, hloop]
    split
    · next hfp =>
      obtain ⟨link, hlink, hefp⟩ := h.fp_historyEntry e he
      obtain rfl : fp = link.fp := hfp.trans hefp
      rcases hredo.link link hlink with hone | ⟨hkeeps, hshown⟩
      · omega
      · -- neither the link nor a look at the results has changed it
        have hstate := h.lookup link.fp
        rw [(not_written hcount _).1, hlink, linked_self, hshown] at hstate
        have hhistory := h.historyEntry
        have hconversion : count city link.fp (acceptedConversionWrites city segments now) = 0 := by
          unfold count commitWrites at hcount
          rw [List.countP_append] at hcount
          exact Nat.eq_zero_of_add_eq_zero_right hcount
        rw [he, hlink, Option.bind_some, (not_written hconversion _).1, Option.map_some] at hhistory
        rw [← hhistory] at hstate
        have hsame := insertNextEntries_of_keeps (hkeeps e.1 hhistory.symm)
        simp only [Option.map_some, hsame, unselectTimes] at hstate
        simp [hstate]
    · rfl

theorem Committed.lookup_ne_none (h : Committed storage segments now results state)
    (hne : Prediction.recordedAt city fp state.revertEntries.entries ≠ []) :
    state.storage.lookup fp ≠ none := by
  rw [h.lookup]
  rw [h.records] at hne
  cases hx : writtenAt city fp (commitWrites storage segments now) (storage.lookup fp) with
  | some x => simp
  | none =>
    refine absurd ?_ hne
    have hcount : count city fp (commitWrites storage segments now) = 0 := by
      by_contra hcount
      obtain ⟨e, he, -⟩ := exists_writtenAt (storage.lookup fp) hcount
      simp [hx] at he
    rw [(not_written hcount _).2, hx]
    rfl

theorem undone_ne_none (h : state.storage.lookup fp ≠ none) : (undone state).lookup fp ≠ none := by
  have hloop : (state.revertEntries.entries.foldl undo (state.storage, [])).1.lookup fp ≠ none := by
    rw [lookup_undone]
    simpa using h
  unfold undone
  dsimp only
  split
  · exact hloop
  · rw [lookup_assign]
    split
    · simpa using hloop
    · exact hloop

/-- **The commit comes back.** -/
theorem Committed.redone (h : Committed storage segments now results state)
    (hredo : Redoable storage segments now results offset) (fp : UInt64) :
    ((state.revertEntries.entries.foldl undo (state.storage, [])).2.foldl
      (recommit modules last offset) (undone state)).lookup fp = state.storage.lookup fp := by
  have honce : ∀ fp, (Prediction.recordedAt city fp state.revertEntries.entries).length ≤ 1 := by
    intro fp
    rw [h.length_records]
    exact hredo.once fp
  have hkept : ∀ r ∈ (state.revertEntries.entries.foldl undo (state.storage, [])).2,
      (∀ current : UserHistoryStorage city,
        recommit modules last offset current r = current.assign r.revertEntry) ∧
        state.storage.lookup (r.revertEntry.fp city) = some r.revertEntry.1 := by
    intro r hr
    rcases mem_undone honce hr with hr | ⟨r', hr', hbegin, hfp, hlookup⟩
    · cases hr
    · exact ⟨h.recommitted hredo hr' hbegin hfp hlookup, hlookup⟩
  rw [lookup_foldl_assign hkept]
  by_cases hrecorded : Prediction.recordedAt city fp state.revertEntries.entries = []
  · rw [h.lookup_undone_of_unrecorded hredo hrecorded]
    cases he : state.storage.lookup fp with
    | none => rfl
    | some e => simp
  · obtain ⟨e, he⟩ := List.exists_mem_of_ne_nil _ hrecorded
    obtain ⟨r, hr, rfl⟩ := List.mem_map.mp he
    obtain ⟨hr, hfp⟩ := List.mem_filter.mp hr
    have hfp : r.revertEntry.fp city = fp := of_decide_eq_true hfp
    have hthere := h.lookup_ne_none hrecorded
    have hexists : ∃ r' ∈ (state.revertEntries.entries.foldl undo (state.storage, [])).2,
        r'.revertEntry.fp city = fp := by
      obtain ⟨r', hr', hfp'⟩ := @exists_undone city _ (state.storage, []) r hr (by rwa [hfp])
      exact ⟨r', hr', hfp'.trans hfp⟩
    obtain ⟨e', he'⟩ := Option.ne_none_iff_exists'.mp (undone_ne_none hthere)
    simp [he', hexists]

end

/-! ## Finish, Revert and the next request -/

section

variable (p : UserHistoryPredictor city) (modules : Modules) (request : LearningRequest)
  (results : List Result) (revertId : UInt32) (now : Nat)

def committedValue (results : List Result) : Bytes := (results.head?.map (·.value)).getD []

def isLearned (request : LearningRequest) (results : List Result) : Bool :=
  historyIsLearned request && mayRemember results

/-- The commit, and its revert. -/
def reverted : UserHistoryPredictor city :=
  (p.finish modules request results revertId now).revert revertId

structure RevertsExactly : Prop where
  restored : Restored p.storage (reverted p modules request results revertId now).storage
  redone : request.reversibleExternalLearning = false →
    ∀ text, committedValue results <:+ text → ∀ fp,
      ((reverted p modules request results revertId now).maybeProcessPartialRevertEntry modules
        text).storage.lookup fp =
          (p.finish modules request results revertId now).storage.lookup fp
  final : request.reversibleExternalLearning = true → ∀ text,
    ((reverted p modules request results revertId now).maybeProcessPartialRevertEntry modules
      text).storage = (reverted p modules request results revertId now).storage

/-- When a revert is exact. -/
structure RevertCondition : Prop where
  undoable : isLearned request results = true →
    Undoable p.storage (makeLearningSegments modules p.storage request results) now results
  redoable : isLearned request results = true → request.reversibleExternalLearning = false →
    ∀ text, committedValue results <:+ text →
      Redoable p.storage (makeLearningSegments modules p.storage request results) now results
        (guessRevertedValueOffset (committedValue results) text)
  /-- No older commit waits for the next request. -/
  pending : historyIsLearned request = true ∨ p.lastCommittedEntries = none

theorem reversible_learn {storage : UserHistoryStorage city}
    (h : EvictsNothing storage
      (commitWrites storage (makeLearningSegments modules storage request results) now)) :
    (learn modules storage request results now).revertEntries.reversibleExternalLearning =
      request.reversibleExternalLearning := by
  unfold learn
  rw [(historyEntry_unselected _ _).2]
  exact (insertHistory_spec h.within fun _ hw => mem_entriesOf hw).reversible

variable {p modules} in
theorem maybeProcess_of_none {text : Bytes} (h : p.lastCommittedEntries = none) :
    p.maybeProcessPartialRevertEntry modules text = p := by
  unfold UserHistoryPredictor.maybeProcessPartialRevertEntry
  rw [h]

/-- A commit that teaches nothing, and its revert. -/
theorem reverted_of_not_learned (hid : p.revertCache revertId = none)
    (h : isLearned request results = false) :
    (p.finish modules request results revertId now).storage = p.storage ∧
      reverted p modules request results revertId now =
        p.finish modules request results revertId now ∧
      (historyIsLearned request = true ∨ p.lastCommittedEntries = none →
        (p.finish modules request results revertId now).lastCommittedEntries = none) := by
  unfold reverted
  unfold UserHistoryPredictor.finish
  unfold isLearned at h
  cases hhistory : historyIsLearned request with
  | false =>
    simp only [Bool.not_false, if_true]
    refine ⟨trivial, ?_, fun hpending => hpending.resolve_left (by simp)⟩
    unfold UserHistoryPredictor.revert
    rw [hid]
  | true =>
    rw [hhistory, Bool.true_and] at h
    simp only [h, Bool.not_true, Bool.not_false, Bool.false_eq_true, if_false, if_true]
    refine ⟨trivial, ?_, fun _ => trivial⟩
    unfold UserHistoryPredictor.revert
    dsimp only
    rw [hid]

/-- A commit of which nothing is recorded. -/
theorem reverted_of_unrecorded (hid : p.revertCache revertId = none)
    (h : isLearned request results = true)
    (hnil : (learn modules p.storage request results now).revertEntries.entries = []) :
    (p.finish modules request results revertId now).storage =
        (learn modules p.storage request results now).storage ∧
      reverted p modules request results revertId now =
        p.finish modules request results revertId now ∧
      (p.finish modules request results revertId now).lastCommittedEntries = none := by
  obtain ⟨hhistory, hmay⟩ := Bool.and_eq_true_iff.mp h
  unfold reverted
  unfold UserHistoryPredictor.finish
  dsimp only
  rw [hhistory, hmay, hnil]
  refine ⟨rfl, ?_, rfl⟩
  unfold UserHistoryPredictor.revert
  dsimp only
  simp only [Bool.not_true, Bool.false_eq_true, if_false, List.isEmpty_nil, if_true]
  rw [hid]

theorem reverted_of_recorded (h : isLearned request results = true)
    (hne : (learn modules p.storage request results now).revertEntries.entries ≠ []) :
    (p.finish modules request results revertId now).storage =
        (learn modules p.storage request results now).storage ∧
      (reverted p modules request results revertId now).storage =
        undone (learn modules p.storage request results now) ∧
      (reverted p modules request results revertId now).lastCommittedEntries =
        if (learn modules p.storage request results
          now).revertEntries.reversibleExternalLearning then none
        else some
          { resultValue := committedValue results
            historyEntry := (learn modules p.storage request results
              now).revertEntries.historyEntry.bind fun e =>
                ((learn modules p.storage request results now).revertEntries.entries.foldl undo
                  ((learn modules p.storage request results now).storage, [])).1.lookupKept
                    (e.fp city)
            entries := ((learn modules p.storage request results now).revertEntries.entries.foldl
              undo ((learn modules p.storage request results now).storage, [])).2 } := by
  obtain ⟨hhistory, hmay⟩ := Bool.and_eq_true_iff.mp h
  have hempty : (learn modules p.storage request results now).revertEntries.entries.isEmpty =
      false := by simpa using hne
  unfold reverted
  unfold UserHistoryPredictor.finish
  dsimp only
  rw [hhistory, hmay, hempty]
  simp only [Bool.not_true, Bool.false_eq_true, if_false]
  refine ⟨trivial, ?_, ?_⟩
  · unfold UserHistoryPredictor.revert
    dsimp only
    rw [if_pos rfl]
    rfl
  · unfold UserHistoryPredictor.revert
    dsimp only
    rw [if_pos rfl]
    rfl

end

/-- **When a revert restores the history.** Exactly when the commit is undoable, and then the commit
comes back if all of it is in what is left of the value. -/
theorem revert_exact (p : UserHistoryPredictor city) (modules : Modules) (request : LearningRequest)
    (results : List Result) (revertId : UInt32) (now : Nat) (hid : p.revertCache revertId = none)
    (hroom : EvictsNothing p.storage (commitWrites p.storage
      (makeLearningSegments modules p.storage request results) now)) :
    (Restored p.storage (reverted p modules request results revertId now).storage ↔
      (isLearned request results = true →
        Undoable p.storage (makeLearningSegments modules p.storage request results) now results)) ∧
    (RevertCondition p modules request results now →
      RevertsExactly p modules request results revertId now) := by
  have hcommitted := committed_learn hroom
  cases hlearned : isLearned request results with
  | false =>
    obtain ⟨hstorage, hreverted, hlast⟩ :=
      reverted_of_not_learned p modules request results revertId now hid hlearned
    have hrestored :
        Restored p.storage (reverted p modules request results revertId now).storage := by
      rw [hreverted, hstorage]
      exact fun fp => RestoredAt.refl _
    refine ⟨⟨fun _ h => Bool.noConfusion h, fun _ => hrestored⟩, fun hcondition => ?_⟩
    have hnone := hlast hcondition.pending
    rw [← hreverted] at hnone
    refine ⟨hrestored, fun _ text _ fp => ?_, fun _ text => ?_⟩
    · rw [maybeProcess_of_none hnone, hreverted]
    · rw [maybeProcess_of_none hnone]
  | true =>
    by_cases hnil : (learn modules p.storage request results now).revertEntries.entries = []
    · obtain ⟨hstorage, hreverted, hlast⟩ :=
        reverted_of_unrecorded p modules request results revertId now hid
        hlearned hnil
      have hiff := hcommitted.restored_unrecorded_iff hnil
      rw [← hstorage, ← hreverted] at hiff
      rw [← hreverted] at hlast
      refine ⟨⟨fun h _ => hiff.mp h, fun h => hiff.mpr (h rfl)⟩, fun hcondition => ?_⟩
      refine ⟨hiff.mpr (hcondition.undoable hlearned), fun _ text _ fp => ?_, fun _ text => ?_⟩
      · rw [maybeProcess_of_none hlast, hreverted]
      · rw [maybeProcess_of_none hlast]
    · obtain ⟨hstorage, hreverted, hlast⟩ :=
        reverted_of_recorded p modules request results revertId now hlearned
        hnil
      have hiff := hcommitted.restored_recorded_iff hnil
      rw [← hreverted] at hiff
      rw [reversible_learn modules request results now hroom] at hlast
      refine ⟨⟨fun h _ => hiff.mp h, fun h => hiff.mpr (h rfl)⟩, fun hcondition => ?_⟩
      refine ⟨hiff.mpr (hcondition.undoable hlearned), fun hordinary text hends fp => ?_,
        fun hexternal text => ?_⟩
      · have hredo := hcondition.redoable hlearned hordinary text hends
        rw [hordinary, if_neg (by simp)] at hlast
        unfold UserHistoryPredictor.maybeProcessPartialRevertEntry
        rw [hlast]
        dsimp only
        rw [if_neg (hcommitted.offset_ne_zero hredo hnil), hreverted, hstorage]
        exact hcommitted.redone hredo fp
      · rw [hexternal, if_pos rfl] at hlast
        rw [maybeProcess_of_none hlast]

/-! ## A segment that is committed twice -/

def UserHistoryStorage.empty (city : City) (capacity : Nat) (hpos : 0 < capacity) :
    UserHistoryStorage city where
  items := { capacity, entries := [], positive := hpos, nodup := List.nodup_nil }
  stored fp entry h := by cases h

def twicePredictor : UserHistoryPredictor shortCity where
  storage := .empty shortCity 8 (by decide)
  revertCache := fun _ => none
  lastCommittedEntries := none

/-- "aa" is committed as "a" and "a". -/
def twiceResults : List Result :=
  [{ key := utf8 "aa", value := utf8 "AA", innerSegmentBoundary := [0x01010101, 0x01010101] }]

theorem not_restored_twice :
    twicePredictor.revertCache 1 = none ∧
      EvictsNothing twicePredictor.storage (commitWrites twicePredictor.storage
        (makeLearningSegments {} twicePredictor.storage {} twiceResults) 7) ∧
      ¬RevertsExactly twicePredictor {} {} twiceResults 1 7 := by
  refine ⟨rfl, by decide +kernel, fun h => ?_⟩
  have hbefore : twicePredictor.storage.lookup (abcFp "a" "A") = none := by decide +kernel
  have hafter : (reverted twicePredictor {} {} twiceResults 1 7).storage.lookup (abcFp "a" "A") =
      some { key := utf8 "a", value := utf8 "A", suggestionFreq := 1, lastAccessTime := 7
             allowPartialMatch := true } := by decide +kernel
  have hat := h.restored (abcFp "a" "A")
  rw [hbefore, hafter] at hat
  exact absurd hat.1 (by simp)

theorem revert_exact_twice :
    (Restored twicePredictor.storage (reverted twicePredictor {} {} twiceResults 1 7).storage ↔
      (isLearned {} twiceResults = true → Undoable twicePredictor.storage
        (makeLearningSegments {} twicePredictor.storage {} twiceResults) 7 twiceResults)) ∧
    (RevertCondition twicePredictor {} {} twiceResults 7 →
      RevertsExactly twicePredictor {} {} twiceResults 1 7) :=
  revert_exact twicePredictor {} {} twiceResults 1 7 rfl (by decide +kernel)

end Mozkey.Prediction
