import Mozkey.Prediction.CommitRedo

/-!
# Runs of the history

`AddHistoryEntry` of `prediction/user_history_predictor.cc`, and what happens to a predictor that
learns: commits, reverts, cleared entries and added ones.

What every such step keeps of every entry is proved once for all properties of entries: a property
is `Steady` when it does not depend on what the steps change in passing, and then it is enough to
look at what is written (`Keeps.finish`, `Keeps.revert`, `Keeps.clear`, `Keeps.add`).
-/

namespace Mozkey.Prediction

open Infra Base Converter

variable {city : City}

/-! ## AddHistoryEntry -/

/-- `absl::StripAsciiWhitespace` -/
def stripAsciiWhitespace (str : Bytes) : Bytes :=
  (stripTrailingAsciiWhitespace str).dropWhile isAsciiSpace

namespace UserHistoryStorage

/-- What is in the element that a new fingerprint gets. In a full cache it is the one of the entry
that was used least recently. -/
def reused (storage : UserHistoryStorage city) : Entry :=
  if storage.items.entries.length < storage.items.capacity then {}
  else (storage.items.entries.getLast?.map Prod.snd).getD {}

end UserHistoryStorage

/-- A pair that may be added. -/
structure AddedPair where
  key : Bytes
  value : Bytes
  nonempty : key ≠ [] ∧ value ≠ []

namespace AddedPair

def fp (city : City) (pair : AddedPair) : UInt64 := fingerprint city pair.key pair.value

/-- The element is not cleared. -/
def added (pair : AddedPair) (entry : Entry) (now : Nat) : KeptEntry :=
  ⟨{ entry with
      key := pair.key
      value := pair.value
      removed := false
      suggestionFreq := entry.suggestionFreq + 1
      lastAccessTime := now }, pair.nonempty⟩

end AddedPair

/-- The checks of `AddHistoryEntry`. -/
def acceptedPair (key value : Bytes) : Option AddedPair :=
  let key := stripAsciiWhitespace key
  let value := stripAsciiWhitespace value
  if h : key ≠ [] ∧ value ≠ [] then
    if !isValidUtf8 key || !isValidUtf8 value || kMaxStringLength < key.length ||
        kMaxStringLength < value.length || !startsWithValidLetter value ||
        endsWithPunctuation value then none
    else some ⟨key, value, h⟩
  else none

def addHistoryEntry (storage : UserHistoryStorage city) (key value : Bytes) (now : Nat) :
    UserHistoryStorage city :=
  match acceptedPair key value with
  | none => storage
  | some pair =>
    storage.put (pair.added ((storage.lookup (pair.fp city)).getD storage.reused) now)

/-! ## Steps -/

inductive HistoryEvent
  | finish (modules : Modules) (request : LearningRequest) (results : List Result)
      (revertId : UInt32) (now : Nat)
  | revert (revertId : UInt32)
  | clear (key value : Bytes)
  | add (key value : Bytes) (now : Nat)
  /-- Only some ids are still in `revert_cache_`. -/
  | forget (keeps : UInt32 → Bool)

def perform (p : UserHistoryPredictor city) : HistoryEvent → UserHistoryPredictor city
  | .finish modules request results revertId now => p.finish modules request results revertId now
  | .revert revertId => p.revert revertId
  | .clear key value => { p with storage := (clearHistoryEntry p.storage key value).2 }
  | .add key value now => { p with storage := addHistoryEntry p.storage key value now }
  | .forget keeps =>
    { p with revertCache := fun id => if keeps id then p.revertCache id else none }

abbrev Performs (p : UserHistoryPredictor city) (e : HistoryEvent) (q : UserHistoryPredictor city) :
    Prop :=
  perform p e = q

/-- What a `Finish` inserts, apart from an entry with a space in front. -/
def finishWrites (storage : UserHistoryStorage city) (modules : Modules) (request : LearningRequest)
    (results : List Result) (now : Nat) : List AcceptedWrite :=
  if historyIsLearned request && mayRemember results then
    acceptedConversionWrites city (makeLearningSegments modules storage request results) now
  else []

/-- The insertion of an entry with a space in front. -/
def insertedSpace (segments : SegmentsForLearning) (now : Nat) (state : Learning city) :
    Option AcceptedWrite :=
  match linkedSegments segments with
  | none => none
  | some (history, conversion) =>
    if segments.hasSpacePrefix ∧ conversion.key = conversion.contentKey ∧
        conversion.value = conversion.contentValue ∧
        state.storage.lookupKept (history.fp city) ≠ none then
      (spaceWrite conversion now).accept
    else none

/-- The state in front of the insertions. -/
def learningStart (storage : UserHistoryStorage city) (request : LearningRequest) : Learning city :=
  { storage
    revertEntries := { reversibleExternalLearning := request.reversibleExternalLearning } }

def finishSpace (storage : UserHistoryStorage city) (modules : Modules) (request : LearningRequest)
    (results : List Result) (now : Nat) : Option AcceptedWrite :=
  if historyIsLearned request && mayRemember results then
    insertedSpace (makeLearningSegments modules storage request results) now
      ((conversionWrites city (makeLearningSegments modules storage request results) now).foldl
        insert (learningStart storage request))
  else none

/-! ## What all entries have in common -/

/-- A property that does not depend on what is changed in passing. -/
structure Steady (P : Entry → Prop) : Prop where
  link : ∀ nextFps e, P e → P (insertNextEntries nextFps e)
  cut : ∀ fp e, P e → P (eraseNextEntries fp e)
  remove : ∀ e, P e → P (markRemoved e)
  shown : ∀ n e, P e → P { e with shownFreq := n }

def AllEntries (P : Entry → Prop) (storage : UserHistoryStorage city) : Prop :=
  ∀ fp e, storage.lookup fp = some e → P e

/-- The same of what was recorded. -/
structure AllRecords (P : Entry → Prop) (r : RevertEntries) : Prop where
  entries : ∀ x ∈ r.entries, P x.revertEntry.1
  history : ∀ e, r.historyEntry = some e → P e.1

structure Keeps (P : Entry → Prop) (p : UserHistoryPredictor city) : Prop where
  storage : AllEntries P p.storage
  cache : ∀ id r, p.revertCache id = some r → AllRecords P r

variable {P : Entry → Prop} {storage : UserHistoryStorage city}

/-! ### Changes of a storage -/

theorem AllEntries.put (h : AllEntries P storage) {e : KeptEntry} (he : P e.1) :
    AllEntries P (storage.put e) := by
  intro fp e' he'
  by_cases hfp : fp = e.fp city
  · subst hfp
    have hself : (storage.put e).lookup (e.fp city) = some e.1 := RecencyMap.get?_insert_self
    rw [hself] at he'
    rwa [← Option.some.inj he']
  · exact h fp e' (RecencyMap.get?_of_insert hfp he')

theorem AllEntries.assign (h : AllEntries P storage) {e : KeptEntry} (he : P e.1) :
    AllEntries P (storage.assign e) := by
  intro fp e' he'
  rw [UserHistoryStorage.lookup_assign] at he'
  split at he'
  · obtain ⟨old, -, rfl⟩ := Option.map_eq_some_iff.mp he'
    exact he
  · exact h fp e' he'

theorem AllEntries.modify (h : AllEntries P storage) {fp : UInt64} {f : Entry → Entry}
    {hf : ∀ entry, (f entry).key = entry.key ∧ (f entry).value = entry.value}
    (hP : ∀ e, P e → P (f e)) : AllEntries P (storage.modify fp f hf) := by
  intro fp' e' he'
  rw [UserHistoryStorage.lookup_modify] at he'
  split at he'
  · obtain ⟨old, hold, rfl⟩ := Option.map_eq_some_iff.mp he'
    exact hP old (h fp' old hold)
  · exact h fp' e' he'

theorem AllEntries.linkTo (hP : Steady P) (h : AllEntries P storage) (fp : UInt64)
    (nextFps : List UInt64) : AllEntries P (storage.linkTo fp nextFps) := by
  unfold UserHistoryStorage.linkTo
  exact h.modify fun e he => hP.link nextFps e he

theorem AllEntries.cutLink (hP : Steady P) (h : AllEntries P storage) (parent child : UInt64) :
    AllEntries P (storage.cutLink parent child) := by
  unfold UserHistoryStorage.cutLink
  exact h.modify fun e he => hP.cut child e he

theorem AllEntries.markRemovedAt (hP : Steady P) (h : AllEntries P storage) (fp : UInt64) :
    AllEntries P (storage.markRemovedAt fp) := by
  unfold UserHistoryStorage.markRemovedAt
  exact h.modify fun e he => hP.remove e he

/-! ### Insertions -/

/-- What an insertion makes of an entry that has the property has it, too. -/
def WritesWell (city : City) (P : Entry → Prop) (w : AcceptedWrite) : Prop :=
  (∀ old, (∀ e, old = some e → P e ∧ fingerprint city e.key e.value = w.fp city) →
      P (w.written old).1) ∧
    P { key := w.key, value := w.value, removed := true }

theorem AllRecords.record {r : RevertEntries} (h : AllRecords P r) {x : RevertRecord}
    (hx : P x.revertEntry.1) : AllRecords P { r with entries := r.entries ++ [x] } :=
  ⟨fun y hy => (List.mem_append.mp hy).elim (h.entries y) fun hy => List.mem_singleton.mp hy ▸ hx,
    h.history⟩

variable {state : Learning city}

theorem WritesWell.apply {w : AcceptedWrite} (hw : WritesWell city P w)
    (h : AllEntries P state.storage) : AllEntries P (w.apply state).storage :=
  h.put (hw.1 _ fun e he => ⟨h _ e he, UserHistoryStorage.fingerprint_of_lookup he⟩)

theorem WritesWell.record {w : AcceptedWrite} (hw : WritesWell city P w)
    (h : AllEntries P state.storage) (hr : AllRecords P state.revertEntries) :
    AllRecords P (w.apply state).revertEntries := by
  refine hr.record ?_
  show P (w.unwritten (state.storage.lookupKept (w.fp city))).1
  rw [AcceptedWrite.val_unwritten, AcceptedWrite.recorded]
  cases hold : state.storage.lookup (w.fp city) with
  | none => exact hw.2
  | some e => exact h _ e hold

theorem allEntries_applyAll : ∀ {ws : List AcceptedWrite}, (∀ w ∈ ws, WritesWell city P w) →
    ∀ {state : Learning city}, AllEntries P state.storage → AllRecords P state.revertEntries →
      AllEntries P (AcceptedWrite.applyAll ws state).storage ∧
        AllRecords P (AcceptedWrite.applyAll ws state).revertEntries
  | [], _, _, h, hr => ⟨h, hr⟩
  | w :: ws, hws, state, h, hr => by
    have hw := hws w List.mem_cons_self
    exact allEntries_applyAll (List.forall_mem_cons.mp hws).2 (hw.apply h)
      (hw.record h hr)

/-- The link from the history, and the entry with a space in front. -/
theorem allEntries_historySegments (hP : Steady P) {segments : SegmentsForLearning} {now : Nat}
    (hspace : ∀ w, insertedSpace segments now state = some w → WritesWell city P w)
    (h : AllEntries P state.storage) :
    AllEntries P (insertHistoryForHistorySegments segments now state).storage ∧
      (AllRecords P state.revertEntries →
        AllRecords P (insertHistoryForHistorySegments segments now state).revertEntries) := by
  unfold insertHistoryForHistorySegments
  unfold insertedSpace at hspace
  split
  · exact ⟨h, id⟩
  · next history conversion hlinked =>
    rw [hlinked] at hspace
    dsimp only at hspace
    split
    · exact ⟨h, id⟩
    · next historyEntry hhistory =>
      have hrecorded : AllRecords P state.revertEntries →
          AllRecords P { state.revertEntries with historyEntry := some historyEntry } := fun hr =>
        ⟨hr.entries, fun e he => by
          rw [← Option.some.inj he]
          exact h _ _ (UserHistoryStorage.lookupKept_eq_some.mp hhistory)⟩
      split
      · next hspaced =>
        split
        · next hcontent =>
          have hkept : state.storage.lookupKept (history.fp city) ≠ none := by
            simp [hhistory]
          rw [if_pos ⟨hspaced, hcontent.1, hcontent.2, hkept⟩] at hspace
          have hinserted : ∀ start : Learning city, start.storage = state.storage →
              AllEntries P (insert start (spaceWrite conversion now)).storage ∧
                (AllRecords P start.revertEntries →
                  AllRecords P (insert start (spaceWrite conversion now)).revertEntries) := by
            intro start hstart
            unfold insert
            split
            · exact ⟨hstart ▸ h, id⟩
            · next w hw =>
              exact ⟨(hspace w hw).apply (hstart ▸ h), (hspace w hw).record (hstart ▸ h)⟩
          obtain ⟨hstorage, hrecords⟩ := hinserted
            { state with
              revertEntries := { state.revertEntries with historyEntry := some historyEntry } } rfl
          exact ⟨hstorage.linkTo hP _ _, fun hr => hrecords (hrecorded hr)⟩
        · exact ⟨h, hrecorded⟩
      · exact ⟨h.linkTo hP _ _, hrecorded⟩

/-! ### Results that were not selected -/

theorem allEntries_unselected (hP : Steady P) (result : Result) (h : AllEntries P state.storage) :
    AllEntries P (maybeRemoveUnselected state result).storage ∧
      (AllRecords P state.revertEntries →
        AllRecords P (maybeRemoveUnselected state result).revertEntries) := by
  unfold maybeRemoveUnselected
  dsimp only
  split
  · exact ⟨h, id⟩
  · next entry hentry =>
    have hold := h _ _ (UserHistoryStorage.lookupKept_eq_some.mp hentry)
    split
    · exact ⟨h.markRemovedAt hP _, fun hr => hr.record (hP.shown _ _ hold)⟩
    · refine ⟨?_, id⟩
      dsimp only
      exact h.modify fun e he => hP.shown _ e he

theorem allEntries_unselectedHistory (hP : Steady P) (results : List Result)
    (h : AllEntries P state.storage) :
    AllEntries P (maybeRemoveUnselectedHistory results state).storage ∧
      (AllRecords P state.revertEntries →
        AllRecords P (maybeRemoveUnselectedHistory results state).revertEntries) := by
  unfold maybeRemoveUnselectedHistory
  generalize results.take kMaxHistorySize = shown
  induction shown generalizing state with
  | nil => exact ⟨h, id⟩
  | cons result shown ih =>
    obtain ⟨hstorage, hrecords⟩ := allEntries_unselected hP result h
    obtain ⟨hstorage', hrecords'⟩ := ih hstorage
    exact ⟨hstorage', fun hr => hrecords' (hrecords hr)⟩

/-! ### Steps -/

theorem AllRecords.empty (resultValue : Bytes) (reversible : Bool) :
    AllRecords P
      { resultValue := resultValue, reversibleExternalLearning := reversible } :=
  ⟨fun _ hx => absurd hx List.not_mem_nil, fun _ he => by cases he⟩

/-- The storage after a commit, from what it inserts on. -/
theorem allEntries_learn (hP : Steady P) {modules : Modules} {request : LearningRequest}
    {results : List Result} {now : Nat} {segments : SegmentsForLearning}
    (hsegments : makeLearningSegments modules storage request results = segments)
    (hspace : ∀ w, insertedSpace segments now ((conversionWrites city segments now).foldl insert
      (learningStart storage request)) = some w → WritesWell city P w)
    (h : AllEntries P (AcceptedWrite.applyAll (acceptedConversionWrites city segments now)
      (learningStart storage request)).storage) :
    AllEntries P (learn modules storage request results now).storage ∧
      (AllRecords P (AcceptedWrite.applyAll (acceptedConversionWrites city segments now)
        (learningStart storage request)).revertEntries →
        AllRecords P (learn modules storage request results now).revertEntries) := by
  rw [AcceptedWrite.foldl_insert] at hspace
  obtain ⟨hstorage, hrecords⟩ := allEntries_historySegments hP hspace h
  obtain ⟨hstorage', hrecords'⟩ := allEntries_unselectedHistory hP results hstorage
  unfold learn insertHistory
  rw [hsegments, AcceptedWrite.foldl_insert]
  exact ⟨hstorage', fun hr => hrecords' (hrecords hr)⟩

variable {p : UserHistoryPredictor city}

theorem Keeps.finish (hP : Steady P) (h : Keeps P p) {modules : Modules} {request : LearningRequest}
    {results : List Result} {revertId : UInt32} {now : Nat}
    (hspace : ∀ w, finishSpace p.storage modules request results now = some w → WritesWell city P w)
    (hwrites : ∀ w ∈ finishWrites p.storage modules request results now, WritesWell city P w) :
    Keeps P (p.finish modules request results revertId now) := by
  unfold UserHistoryPredictor.finish
  split
  · exact h
  · next hlearned =>
    dsimp only
    split
    · exact ⟨h.storage, h.cache⟩
    · next hremember =>
      rw [Bool.not_eq_true, Bool.not_eq_false'] at hlearned hremember
      rw [finishSpace, hlearned, hremember, if_pos (by rfl)] at hspace
      rw [finishWrites, hlearned, hremember, if_pos (by rfl)] at hwrites
      have hstart : AllEntries P (learningStart p.storage request).storage ∧
          AllRecords P (learningStart p.storage request).revertEntries := ⟨h.storage, .empty [] _⟩
      obtain ⟨happlied, hrecorded⟩ := allEntries_applyAll hwrites hstart.1 hstart.2
      obtain ⟨hstorage, hrecords⟩ := allEntries_learn hP rfl hspace happlied
      split
      · exact ⟨hstorage, h.cache⟩
      · refine ⟨hstorage, fun id r hr => ?_⟩
        dsimp only at hr
        split at hr
        · rw [← Option.some.inj hr]
          exact ⟨(hrecords hrecorded).entries, (hrecords hrecorded).history⟩
        · exact h.cache id r hr

theorem allEntries_undone : ∀ {records : List RevertRecord},
    (∀ r ∈ records, P r.revertEntry.1) →
    ∀ {state : UserHistoryStorage city × List RevertRecord}, AllEntries P state.1 →
      AllEntries P (records.foldl undo state).1
  | [], _, _, h => h
  | r :: records, hrecords, state, h => by
    refine allEntries_undone (List.forall_mem_cons.mp hrecords).2 ?_
    unfold undo
    split
    · exact h
    · exact h.assign (hrecords r List.mem_cons_self)

theorem Keeps.revert (h : Keeps P p) (revertId : UInt32) : Keeps P (p.revert revertId) := by
  unfold UserHistoryPredictor.revert
  split
  · exact h
  · next r hr =>
    have hrecords := h.cache revertId r hr
    have hundone := @allEntries_undone city P r.entries hrecords.entries (p.storage, []) h.storage
    refine ⟨?_, h.cache⟩
    dsimp only
    split
    · exact hundone
    · next e he => exact hundone.assign (hrecords.history e he)

theorem allEntries_clear (hP : Steady P) (key value : Bytes) (h : AllEntries P storage) :
    AllEntries P (clearHistoryEntry storage key value).2 := by
  unfold clearHistoryEntry
  dsimp only
  generalize normalizePrefixSpace key = key
  generalize normalizePrefixSpace value = value
  have hexact : AllEntries P (clearExact storage key value).2 := by
    unfold clearExact
    dsimp only
    split
    · split
      · exact h.markRemovedAt hP _
      · exact h
    · exact h
  generalize clearExact storage key value = state at hexact
  generalize storage.fps = fps
  induction fps generalizing state with
  | nil => exact hexact
  | cons fp fps ih =>
    refine ih _ ?_
    unfold clearEntry
    split
    · exact hexact
    · split
      · exact AllEntries.cutLink hP hexact _ _
      · split
        · exact AllEntries.markRemovedAt hP hexact _
        · exact hexact

theorem allEntries_add {key value : Bytes} {now : Nat} (h : AllEntries P storage)
    (hadd : ∀ pair, acceptedPair key value = some pair →
      P (pair.added ((storage.lookup (pair.fp city)).getD storage.reused) now).1) :
    AllEntries P (addHistoryEntry storage key value now) := by
  unfold addHistoryEntry
  split
  · exact h
  · next pair hpair => exact h.put (hadd pair hpair)

theorem Keeps.forget (h : Keeps P p) (keeps : UInt32 → Bool) :
    Keeps P (perform p (.forget keeps)) := by
  refine ⟨h.storage, fun id r hr => ?_⟩
  have hkept : (if keeps id then p.revertCache id else none) = some r := hr
  split at hkept
  · exact h.cache id r hkept
  · cases hkept

/-! ## Links -/

/-- At most six links, no two of them equal, and none of them 0. -/
structure LinksWell (e : Entry) : Prop where
  length : e.nextEntryFps.length ≤ kMaxNextEntriesSize
  nodup : e.nextEntryFps.Nodup
  nonzero : (0 : UInt64) ∉ e.nextEntryFps

theorem linksWell_insertNextEntry {fps : List UInt64} (fp : UInt64)
    (h : fps.length ≤ kMaxNextEntriesSize ∧ fps.Nodup ∧ (0 : UInt64) ∉ fps) :
    (insertNextEntry fps fp).length ≤ kMaxNextEntriesSize ∧ (insertNextEntry fps fp).Nodup ∧
      (0 : UInt64) ∉ insertNextEntry fps fp := by
  unfold insertNextEntry
  split
  · exact h
  · next hfp =>
    obtain ⟨-, hnodup, hnonzero⟩ := h
    have hlatest : (fps.filter (· ≠ fp) ++ [fp]).Nodup := by
      refine List.nodup_append.mpr ⟨hnodup.filter _, List.nodup_singleton fp, ?_⟩
      intro a ha b hb
      rw [List.mem_singleton.mp hb]
      simpa using (List.mem_filter.mp ha).2
    refine ⟨?_, hlatest.sublist (List.drop_sublist _ _), fun hzero => ?_⟩
    · simp
      omega
    · rcases List.mem_append.mp (List.mem_of_mem_drop hzero) with hzero | hzero
      · exact hnonzero (List.mem_filter.mp hzero).1
      · exact hfp (List.mem_singleton.mp hzero).symm

theorem LinksWell.insertNextEntries (nextFps : List UInt64) {e : Entry} (h : LinksWell e) :
    LinksWell (insertNextEntries nextFps e) := by
  have hfold : ∀ (nextFps fps : List UInt64),
      fps.length ≤ kMaxNextEntriesSize ∧ fps.Nodup ∧ (0 : UInt64) ∉ fps →
      (nextFps.foldl insertNextEntry fps).length ≤ kMaxNextEntriesSize ∧
        (nextFps.foldl insertNextEntry fps).Nodup ∧
        (0 : UInt64) ∉ nextFps.foldl insertNextEntry fps := by
    intro nextFps
    induction nextFps with
    | nil => exact fun _ hfps => hfps
    | cons fp nextFps ih => exact fun fps hfps => ih _ (linksWell_insertNextEntry fp hfps)
  obtain ⟨hlength, hnodup, hnonzero⟩ := hfold nextFps e.nextEntryFps ⟨h.length, h.nodup, h.nonzero⟩
  exact ⟨hlength, hnodup, hnonzero⟩

theorem LinksWell.of_eq {e e' : Entry} (h : LinksWell e) (heq : e'.nextEntryFps = e.nextEntryFps) :
    LinksWell e' :=
  ⟨heq ▸ h.length, heq ▸ h.nodup, heq ▸ h.nonzero⟩

theorem linksWell_of_nil {e : Entry} (h : e.nextEntryFps = []) : LinksWell e :=
  ⟨by rw [h]; exact Nat.zero_le _, by rw [h]; exact List.nodup_nil,
    by rw [h]; exact List.not_mem_nil⟩

theorem steady_linksWell : Steady LinksWell where
  link nextFps _ h := h.insertNextEntries nextFps
  cut fp e h :=
    ⟨Nat.le_trans (List.length_filter_le _ _) h.length, h.nodup.filter _,
      fun hzero => h.nonzero (List.mem_filter.mp hzero).1⟩
  remove _ h := h.of_eq rfl
  shown _ _ h := h.of_eq rfl

end Mozkey.Prediction
