import Mathlib.Data.List.Dedup
import Mozkey.Prediction.ChainRemoval
import Mozkey.Prediction.CommitRecords

/-!
# Undoing a commit

When `Revert` restores the history from before `Finish`: each entry may be recorded once only, and
the entry that is linked from the history not at all.

* `Committed.restored_recorded_iff` — exactly then it does
* `Committed.restored_unrecorded_iff` — and when nothing is recorded
-/

namespace Mozkey.Prediction

open Infra Base Converter UserHistoryStorage AcceptedWrite

variable {city : City} {fp : UInt64}

/-! ## What a revert should do -/

/-- An entry is as it was before, but for `shown_freq`. A new one is removed. -/
def RestoredAt (before after : Option Entry) : Prop :=
  match before, after with
  | some e, some e' => Same e' e
  | some _, none => False
  | none, some e' => e'.removed = true ∧ e'.suggestionFreq = 0
  | none, none => True

def Restored (before after : UserHistoryStorage city) : Prop :=
  ∀ fp, RestoredAt (before.lookup fp) (after.lookup fp)

/-- The entries that were there, and those that are written. -/
def entriesOf (storage : UserHistoryStorage city) (ws : List AcceptedWrite) : List UInt64 :=
  (storage.fps ++ ws.map (·.fp city)).dedup

/-- There is room for all the entries at once. -/
def EvictsNothing (storage : UserHistoryStorage city) (ws : List AcceptedWrite) : Prop :=
  (entriesOf storage ws).length ≤ storage.items.capacity

instance (storage : UserHistoryStorage city) (ws : List AcceptedWrite) :
    Decidable (EvictsNothing storage ws) := inferInstanceAs (Decidable (_ ≤ _))

/-! ## How often an entry is recorded -/

/-- How often the entry is removed because its results were not selected. -/
def removalsAt (storage : UserHistoryStorage city) (ws : List AcceptedWrite)
    (results : List Result) (fp : UInt64) : Nat :=
  match writtenAt city fp ws (storage.lookup fp) with
  | none => 0
  | some e =>
    removals selectedRatioIsLow e.suggestionFreq e.shownFreq (shownTimes city fp results)

def recordings (storage : UserHistoryStorage city) (ws : List AcceptedWrite)
    (results : List Result) (fp : UInt64) : Nat :=
  count city fp ws + removalsAt storage ws results fp

/-- The entry is recorded at most once, or it is removed again and again, which leaves what was
there. -/
def EntryUndoable (storage : UserHistoryStorage city) (ws : List AcceptedWrite)
    (results : List Result) (fp : UInt64) : Prop :=
  recordings storage ws results fp ≤ 1 ∨
    (2 ≤ removalsAt storage ws results fp ∧
      RestoredAt (storage.lookup fp) ((writtenAt city fp ws (storage.lookup fp)).map markRemoved))

def HistoryLink.KeepsLinks (storage : UserHistoryStorage city) (link : HistoryLink) : Prop :=
  ∀ e, storage.lookup link.fp = some e →
    link.nextFps.foldl insertNextEntry e.nextEntryFps = e.nextEntryFps

structure Undoable (storage : UserHistoryStorage city) (segments : SegmentsForLearning) (now : Nat)
    (results : List Result) : Prop where
  entry : ∀ fp, (∀ link, historyLink storage segments now = some link → fp ≠ link.fp) →
    EntryUndoable storage (commitWrites storage segments now) results fp
  /-- The linked entry is not a conversion segment, and something is recorded if a link is new. -/
  link : ∀ link, historyLink storage segments now = some link →
    count city link.fp (acceptedConversionWrites city segments now) = 0 ∧
      ((∃ fp, recordings storage (commitWrites storage segments now) results fp ≠ 0) ∨
        link.KeepsLinks storage)

/-! ## One entry -/

theorem RestoredAt.refl (e : Option Entry) : RestoredAt e e := by
  cases e with
  | none => exact trivial
  | some e => exact Same.refl e

theorem not_restoredAt_of_learnt {before : Option Entry} {e : Entry} (h : Learnt before e) :
    ¬RestoredAt before (some e) := by
  obtain ⟨hremoved, hfreq⟩ := h
  cases before with
  | none =>
    rintro ⟨htrue, -⟩
    simp [hremoved] at htrue
  | some b =>
    intro hsame
    exact Nat.lt_irrefl _ (hsame.suggestionFreq_eq ▸ hfreq)

theorem learnt_congr {before : Option Entry} {e e' : Entry} (h : Same e e')
    (he' : Learnt before e') : Learnt before e :=
  ⟨h.removed_eq.trans he'.1, h.suggestionFreq_eq ▸ he'.2⟩

theorem restoredAt_recorded (w : AcceptedWrite) (before : Option Entry) :
    RestoredAt before (some (w.recorded before)) := by
  cases before with
  | none => exact ⟨rfl, rfl⟩
  | some e => exact Same.refl e

/-- The state of an entry when its records are written back. -/
theorem restoredAt_iff (storage : UserHistoryStorage city) (ws : List AcceptedWrite)
    (results : List Result) (fp : UInt64) :
    RestoredAt (storage.lookup fp)
      (((writtenAt city fp ws (storage.lookup fp)).map
        (unselectTimes selectedRatioIsLow (shownTimes city fp results))).map fun e =>
          (recordsOf city fp ws (storage.lookup fp) ++
            ((writtenAt city fp ws (storage.lookup fp)).map
              (takenBack selectedRatioIsLow
                (shownTimes city fp results))).getD []).getLast?.getD e) ↔
      EntryUndoable storage ws results fp := by
  generalize hold : storage.lookup fp = old
  generalize hn : shownTimes city fp results = n
  unfold EntryUndoable recordings removalsAt
  rw [hold, hn]
  have hzero := selectedRatioIsLow_zero
  generalize selectedRatioIsLow = low at hzero
  cases hx : writtenAt city fp ws old with
  | none =>
    have hcount : count city fp ws = 0 := by
      by_contra hne
      obtain ⟨e, he, -⟩ := exists_writtenAt old hne
      simp [hx] at he
    obtain rfl : old = none := by rw [← hx, (not_written hcount old).1]
    simp [hcount, RestoredAt]
  | some x =>
    have hlen := length_takenBack hzero n x
    rcases takenBack_spec hzero n x with ⟨hnil, hsame⟩ | ⟨e', k, hsame, hcons⟩
    · -- never removed: the insertions alone decide
      rw [hnil, List.length_nil] at hlen
      simp only [Option.map_some, Option.getD_some, hnil, List.append_nil, ← hlen]
      by_cases hcount : count city fp ws = 0
      · obtain ⟨hwritten, hrecords⟩ := not_written hcount old
        obtain rfl : old = some x := by rw [← hx, hwritten]
        rw [hrecords, hcount]
        simp only [List.getLast?_nil, Option.getD_none]
        exact ⟨fun _ => .inl (Nat.zero_le _), fun _ => hsame⟩
      · obtain ⟨e, hlast, ⟨hone, w, rfl⟩ | ⟨hmany, hlearnt⟩⟩ := exists_last_record old hcount
        · rw [hlast, hone]
          exact ⟨fun _ => .inl (Nat.le_refl _), fun _ => restoredAt_recorded w old⟩
        · rw [hlast]
          refine ⟨fun h => absurd h (not_restoredAt_of_learnt hlearnt), ?_⟩
          rintro (h | ⟨h, -⟩)
          · omega
          · omega
    · rw [hcons, List.length_cons, List.length_replicate] at hlen
      simp only [Option.map_some, Option.getD_some, hcons, ← hlen]
      rw [List.getLast?_append, List.getLast?_cons]
      cases k with
      | zero =>
        -- the record is the state behind the insertions
        show RestoredAt old (some e') ↔ _
        by_cases hcount : count city fp ws = 0
        · obtain rfl : old = some x := by rw [← hx, (not_written hcount old).1]
          exact ⟨fun _ => .inl (by omega), fun _ => hsame⟩
        · obtain ⟨e, he, hlearnt⟩ := exists_writtenAt old hcount
          obtain rfl : x = e := by rw [hx] at he; exact Option.some.inj he
          refine ⟨fun h => absurd h (not_restoredAt_of_learnt (learnt_congr hsame hlearnt)), ?_⟩
          rintro (h | ⟨h, -⟩)
          · omega
          · omega
      | succ k =>
        have hlast : (List.replicate (k + 1) (markRemoved x)).getLast?.getD e' = markRemoved x := by
          simp [List.getLast?_replicate]
        show RestoredAt old (some ((List.replicate (k + 1) (markRemoved x)).getLast?.getD e')) ↔ _
        rw [hlast]
        refine ⟨fun h => .inr ⟨by omega, h⟩, ?_⟩
        rintro (h | ⟨-, h⟩)
        · omega
        · exact h

/-! ## The whole commit -/

section

variable {storage : UserHistoryStorage city} {ws : List AcceptedWrite}

theorem EvictsNothing.within (h : EvictsNothing storage ws) :
    storage.Within (entriesOf storage ws) where
  fits := h
  mem fp hfp := by
    rw [entriesOf, List.mem_dedup]
    exact List.mem_append_left _ (mem_fps_iff.mpr hfp)

theorem mem_entriesOf {w : AcceptedWrite} (hw : w ∈ ws) : w.fp city ∈ entriesOf storage ws := by
  rw [entriesOf, List.mem_dedup]
  exact List.mem_append_right _ (List.mem_map_of_mem hw)

/-- What a commit leaves and records, entry by entry. -/
structure Committed (storage : UserHistoryStorage city) (segments : SegmentsForLearning)
    (now : Nat) (results : List Result) (state : Learning city) : Prop where
  lookup : ∀ fp, state.storage.lookup fp =
    ((writtenAt city fp (commitWrites storage segments now) (storage.lookup fp)).map
      (linked (historyLink storage segments now) fp)).map
        (unselectTimes selectedRatioIsLow (shownTimes city fp results))
  records : ∀ fp, recordedAt city fp state.revertEntries.entries =
    recordsOf city fp (commitWrites storage segments now) (storage.lookup fp) ++
      (((writtenAt city fp (commitWrites storage segments now) (storage.lookup fp)).map
        (linked (historyLink storage segments now) fp)).map
          (takenBack selectedRatioIsLow (shownTimes city fp results))).getD []
  historyEntry : state.revertEntries.historyEntry.map Subtype.val =
    (historyLink storage segments now).bind fun link =>
      writtenAt city link.fp (acceptedConversionWrites city segments now) (storage.lookup link.fp)
  fp_historyEntry : ∀ e, state.revertEntries.historyEntry = some e →
    ∃ link, historyLink storage segments now = some link ∧ e.fp city = link.fp
  offsets : ∀ r ∈ state.revertEntries.entries,
    (∃ w ∈ commitWrites storage segments now, r.valueBegin = w.valueBegin ∧
      r.revertEntry.fp city = w.fp city) ∨
    (r.valueBegin = 0 ∧ removalsAt storage (commitWrites storage segments now) results
      (r.revertEntry.fp city) ≠ 0)

variable {modules : Modules} {request : LearningRequest} {results : List Result} {now : Nat}

theorem historyEntry_unselected (results : List Result) (state : Learning city) :
    (maybeRemoveUnselectedHistory results state).revertEntries.historyEntry =
      state.revertEntries.historyEntry ∧
    (maybeRemoveUnselectedHistory results state).revertEntries.reversibleExternalLearning =
      state.revertEntries.reversibleExternalLearning := by
  unfold maybeRemoveUnselectedHistory
  induction results.take kMaxHistorySize generalizing state with
  | nil => exact ⟨rfl, rfl⟩
  | cons r rest ih =>
    obtain ⟨hhistory, hreversible⟩ := ih (maybeRemoveUnselected state r)
    rw [List.foldl_cons, hhistory, hreversible]
    unfold maybeRemoveUnselected
    dsimp only
    split
    · exact ⟨rfl, rfl⟩
    · split <;> exact ⟨rfl, rfl⟩

theorem committed_learn
    (h : EvictsNothing storage
      (commitWrites storage (makeLearningSegments modules storage request results) now)) :
    Committed storage (makeLearningSegments modules storage request results) now results
      (learn modules storage request results now) := by
  unfold learn
  generalize makeLearningSegments modules storage request results = segments at h ⊢
  generalize hstart : ({ storage, revertEntries :=
    { reversibleExternalLearning := request.reversibleExternalLearning } } : Learning city) = start
  have hstorage : start.storage = storage := by rw [← hstart]
  have hentries : start.revertEntries.entries = [] := by rw [← hstart]
  have hnone : start.revertEntries.historyEntry = none := by rw [← hstart]
  subst hstorage
  have hws : ∀ w ∈ commitWrites start.storage segments now,
      w.fp city ∈ entriesOf start.storage (commitWrites start.storage segments now) :=
    fun _ hw => mem_entriesOf hw
  have hconversion : ∀ w ∈ acceptedConversionWrites city segments now,
      w.fp city ∈ entriesOf start.storage (commitWrites start.storage segments now) :=
    fun w hw => hws w (List.mem_append_left _ hw)
  have hinserted := insertHistory_spec h.within hws
  have hhistory := (historyEntry_unselected results (insertHistory segments now start)).1
  rw [hinserted.historyEntry] at hhistory
  have hlookup : ∀ fp, (insertHistory segments now start).storage.lookup fp =
      (writtenAt city fp (commitWrites start.storage segments now) (start.storage.lookup fp)).map
        (linked (historyLink start.storage segments now) fp) := by
    intro fp
    rw [hinserted.lookup, lookup_applyAll h.within hws]
  refine ⟨fun fp => ?_, fun fp => ?_, ?_, fun e he => ?_, fun r hr => ?_⟩
  · rw [lookup_unselected, hlookup]
  · rw [recordedAt_unselected, hinserted.entries, recordedAt_applyAll h.within hws, hentries,
      hlookup]
    rfl
  · rw [hhistory]
    cases historyLink start.storage segments now with
    | none => rw [hnone]; rfl
    | some link => exact map_lookupKept.trans (lookup_applyAll h.within hconversion)
  · rw [hhistory] at he
    cases hlink : historyLink start.storage segments now with
    | none =>
      rw [hlink] at he
      dsimp only at he
      simp [hnone] at he
    | some link =>
      rw [hlink] at he
      exact ⟨link, rfl, fp_of_lookupKept he⟩
  · obtain ⟨records, heq, hzero⟩ :=
      exists_unselected_records results (insertHistory segments now start)
    rw [heq] at hr
    rcases List.mem_append.mp hr with hr | hr
    · rw [hinserted.entries] at hr
      rcases mem_applyAll hr with hr | hw
      · simp [hentries] at hr
      · exact .inl hw
    · refine .inr ⟨hzero r hr, ?_⟩
      -- the records of the loop are those of the removals
      have htaken := @recordedAt_unselected city (r.revertEntry.fp city) results
        (insertHistory segments now start)
      rw [heq, recordedAt_append, List.append_cancel_left_eq, hlookup] at htaken
      have hpos := List.length_pos_of_ne_nil
        (recordedAt_ne_nil hr : recordedAt city _ records ≠ [])
      rw [htaken] at hpos
      unfold removalsAt
      cases hx : writtenAt city (r.revertEntry.fp city) (commitWrites start.storage segments now)
        (start.storage.lookup (r.revertEntry.fp city)) with
      | none => simp [hx] at hpos
      | some x =>
        simp only [hx, Option.map_some, Option.getD_some, length_takenBack selectedRatioIsLow_zero,
          suggestionFreq_linked, shownFreq_linked] at hpos
        exact Nat.pos_iff_ne_zero.mp hpos

theorem Committed.length_records {segments : SegmentsForLearning} {state : Learning city}
    (h : Committed storage segments now results state) (fp : UInt64) :
    (recordedAt city fp state.revertEntries.entries).length =
      recordings storage (commitWrites storage segments now) results fp := by
  rw [h.records, List.length_append, length_recordsOf, recordings, removalsAt]
  cases writtenAt city fp (commitWrites storage segments now) (storage.lookup fp) with
  | none => rfl
  | some e =>
    simp [length_takenBack selectedRatioIsLow_zero, suggestionFreq_linked, shownFreq_linked]

/-- Something is recorded of an entry. -/
theorem Committed.entries_ne_nil_iff {segments : SegmentsForLearning} {state : Learning city}
    (h : Committed storage segments now results state) :
    state.revertEntries.entries ≠ [] ↔
      ∃ fp, recordings storage (commitWrites storage segments now) results fp ≠ 0 := by
  constructor
  · intro hne
    obtain ⟨r, hr⟩ := List.exists_mem_of_ne_nil _ hne
    refine ⟨r.revertEntry.fp city, ?_⟩
    rw [← h.length_records]
    exact fun hlen => recordedAt_ne_nil hr (List.length_eq_zero_iff.mp hlen)
  · rintro ⟨fp, hfp⟩ hnil
    rw [← h.length_records, hnil] at hfp
    exact hfp rfl

/-- What `Revert` makes of the storage, when something was recorded. -/
def undone (state : Learning city) : UserHistoryStorage city :=
  let undone := (state.revertEntries.entries.foldl undo (state.storage, [])).1
  match state.revertEntries.historyEntry with
  | none => undone
  | some e => undone.assign e

variable {segments : SegmentsForLearning} {state : Learning city}

/-- Other entries than the linked one. -/
theorem Committed.restoredAt_entry_iff (h : Committed storage segments now results state)
    (hfp : ∀ link, historyLink storage segments now = some link → fp ≠ link.fp) :
    RestoredAt (storage.lookup fp) ((undone state).lookup fp) ↔
      EntryUndoable storage (commitWrites storage segments now) results fp := by
  have hlinked := linked_of_ne hfp
  have hundone : (undone state).lookup fp =
      (state.revertEntries.entries.foldl undo (state.storage, [])).1.lookup fp := by
    unfold undone
    dsimp only
    split
    · rfl
    · next e he =>
      obtain ⟨link, hlink, heq⟩ := h.fp_historyEntry e he
      rw [lookup_assign, if_neg (by rw [heq]; exact hfp link hlink)]
  simpa [hundone, lookup_undone, h.lookup, h.records, hlinked, id] using restoredAt_iff ..

/-- The linked entry is as it was behind the conversion segments. -/
theorem Committed.restoredAt_link_iff (h : Committed storage segments now results state)
    {link : HistoryLink} (hlink : historyLink storage segments now = some link) :
    RestoredAt (storage.lookup link.fp) ((undone state).lookup link.fp) ↔
      count city link.fp (acceptedConversionWrites city segments now) = 0 := by
  have hfound := historyLink_found hlink
  have hhistory := h.historyEntry
  rw [hlink, Option.bind_some] at hhistory
  cases he : state.revertEntries.historyEntry with
  | none =>
    rw [he] at hhistory
    exact absurd hhistory.symm hfound
  | some e =>
    rw [he, Option.map_some] at hhistory
    obtain ⟨_, hlink', hfp⟩ := h.fp_historyEntry e he
    obtain rfl := Option.some.inj (hlink.symm.trans hlink')
    have hthere : (state.revertEntries.entries.foldl undo (state.storage, [])).1.lookup link.fp
        ≠ none := by
      rw [lookup_undone, h.lookup, commitWrites, writtenAt_append]
      have hne : writtenAt city link.fp
          (((historyLink storage segments now).map (·.writes)).getD [])
          (writtenAt city link.fp (acceptedConversionWrites city segments now)
            (storage.lookup link.fp)) ≠ none := writtenAt_ne_none hfound
      simpa using hne
    have hundone : (undone state).lookup link.fp = some e.1 := by
      unfold undone
      dsimp only
      rw [he]
      dsimp only
      rw [lookup_assign, if_pos hfp.symm]
      obtain ⟨e', he'⟩ := Option.ne_none_iff_exists'.mp hthere
      simp [he']
    rw [hundone]
    constructor
    · intro hrestored
      by_contra hcount
      obtain ⟨e', he', hlearnt⟩ := exists_writtenAt (storage.lookup link.fp) hcount
      rw [← hhistory] at he'
      cases he'
      exact not_restoredAt_of_learnt hlearnt hrestored
    · intro hcount
      rw [hhistory, (not_written hcount _).1]
      exact RestoredAt.refl _

theorem Same.insertNextEntries_iff {nextFps : List UInt64} {e e' : Entry}
    (h : Same e' (insertNextEntries nextFps e)) :
    Same e' e ↔ nextFps.foldl insertNextEntry e.nextEntryFps = e.nextEntryFps := by
  constructor
  · intro hsame
    have heq : ({ insertNextEntries nextFps e with shownFreq := 0 } : Entry) =
        { e with shownFreq := 0 } := h.symm.trans hsame
    have hfps := congrArg Entry.nextEntryFps heq
    exact hfps
  · intro hfps
    refine h.trans ?_
    unfold insertNextEntries
    rw [hfps]
    exact Same.refl e

/-- Where nothing is recorded, at most a link is new. -/
theorem Committed.restored_unrecorded_iff (h : Committed storage segments now results state)
    (hnil : state.revertEntries.entries = []) :
    Restored storage state.storage ↔ Undoable storage segments now results := by
  have hrecordings :
      ∀ fp, recordings storage (commitWrites storage segments now) results fp = 0 := by
    intro fp
    rw [← h.length_records, hnil]
    rfl
  have hcount : ∀ fp, count city fp (commitWrites storage segments now) = 0 :=
    fun fp => Nat.eq_zero_of_add_eq_zero_right (hrecordings fp)
  have hlookup : ∀ fp, ∃ n, state.storage.lookup fp = ((storage.lookup fp).map
      (linked (historyLink storage segments now) fp)).map
        (unselectTimes selectedRatioIsLow n) ∧
      ∀ e, storage.lookup fp = some e → Same (unselectTimes selectedRatioIsLow n
        (linked (historyLink storage segments now) fp e))
          (linked (historyLink storage segments now) fp e) := by
    intro fp
    refine ⟨shownTimes city fp results, ?_, fun e he => ?_⟩
    · rw [h.lookup, (not_written (hcount fp) _).1]
    · have hrecords := h.records fp
      rw [hnil, (not_written (hcount fp) _).1, he] at hrecords
      have htaken := (List.append_eq_nil_iff.mp hrecords.symm).2
      rcases takenBack_spec selectedRatioIsLow_zero (shownTimes city fp results)
        (linked (historyLink storage segments now) fp e) with ⟨-, hsame⟩ | ⟨e', k, -, hcons⟩
      · exact hsame
      · simp [hcons] at htaken
  constructor
  · intro hrestored
    refine ⟨fun fp _ => .inl (by rw [hrecordings]; exact Nat.zero_le _), fun link hlink =>
      ⟨?_, .inr fun e he => ?_⟩⟩
    · have hzero := hcount link.fp
      unfold count commitWrites at hzero
      rw [List.countP_append] at hzero
      exact Nat.eq_zero_of_add_eq_zero_right hzero
    · obtain ⟨n, hstate, hsame⟩ := hlookup link.fp
      have hat := hrestored link.fp
      rw [hstate, he] at hat
      have hlinked := hsame e he
      rw [hlink, linked_self] at hat hlinked
      exact hlinked.insertNextEntries_iff.mp hat
  · intro hundoable fp
    obtain ⟨n, hstate, hsame⟩ := hlookup fp
    rw [hstate]
    cases he : storage.lookup fp with
    | none => exact trivial
    | some e =>
      show Same (unselectTimes selectedRatioIsLow n _) e
      have hlinked := hsame e he
      by_cases hlink : ∃ link, historyLink storage segments now = some link ∧ fp = link.fp
      · obtain ⟨link, hlink, rfl⟩ := hlink
        rw [hlink, linked_self] at hlinked ⊢
        refine hlinked.insertNextEntries_iff.mpr ?_
        rcases (hundoable.link link hlink).2 with ⟨fp', hfp'⟩ | hkeeps
        · exact absurd (hrecordings fp') hfp'
        · exact hkeeps e he
      · rw [linked_of_ne fun link hl hfp => hlink ⟨link, hl, hfp⟩] at hlinked ⊢
        exact hlinked

theorem Committed.restored_recorded_iff (h : Committed storage segments now results state)
    (hne : state.revertEntries.entries ≠ []) :
    Restored storage (undone state) ↔ Undoable storage segments now results := by
  constructor
  · intro hrestored
    exact
      { entry := fun fp hfp => (h.restoredAt_entry_iff hfp).mp (hrestored fp)
        link := fun link hlink =>
          ⟨(h.restoredAt_link_iff hlink).mp (hrestored link.fp),
            .inl (h.entries_ne_nil_iff.mp hne)⟩ }
  · intro hundoable fp
    by_cases hlink : ∃ link, historyLink storage segments now = some link ∧ fp = link.fp
    · obtain ⟨link, hlink, rfl⟩ := hlink
      exact (h.restoredAt_link_iff hlink).mpr (hundoable.link link hlink).1
    · have hfp : ∀ link, historyLink storage segments now = some link → fp ≠ link.fp :=
        fun link hl hfp => hlink ⟨link, hl, hfp⟩
      exact (h.restoredAt_entry_iff hfp).mpr (hundoable.entry fp hfp)

end

end Mozkey.Prediction
