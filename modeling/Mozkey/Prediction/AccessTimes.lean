import Mozkey.Prediction.HistoryResults
import Mozkey.Prediction.HistoryRuns

/-!
# Access times

Every insertion of a commit but one carries the time of the commit. The entry with a space in front
is inserted with its arguments in another order: its time is 0, and it allows partial matches
(`spaceWrite`). The score of such an entry is a number below 0, which an unsigned number is not.

## Main results

* `entries_are_stamped` — runs in which no such entry is inserted, and the links in all runs
* `space_entry_is_not_stamped` — a run in which one is
-/

namespace Mozkey.Prediction

open Infra Base Converter

variable {city : City} {P Q : Entry → Prop} {p q : UserHistoryPredictor city}

/-! ## What is inserted -/

theorem HistoryWrite.accept_some {w : HistoryWrite} {a : AcceptedWrite} (h : w.accept = some a) :
    a.lastAccessTime = w.lastAccessTime ∧ a.allowPartialMatch = w.allowPartialMatch := by
  unfold HistoryWrite.accept at h
  dsimp only at h
  split at h
  · split at h
    · split at h
      · cases h
      · split at h
        · cases h
        · rw [← Option.some.inj h]
          exact ⟨rfl, rfl⟩
    · cases h
  · cases h

/-- The time is the one of the commit, and partial matches are allowed only if `allow` is true. -/
def IsDated (now : Nat) (allow : Bool) (w : HistoryWrite) : Prop :=
  w.lastAccessTime = now ∧ (w.allowPartialMatch = true → allow = true)

theorem isDated_closeBracketWrite {key value description : Bytes} {now : Nat} (allow : Bool) :
    ∀ w ∈ closeBracketWrite key value description now, IsDated now allow w := by
  intro w hw
  unfold closeBracketWrite at hw
  split at hw
  · rw [← Option.some.inj hw]
    exact ⟨rfl, Bool.noConfusion⟩
  · cases hw

theorem isDated_segmentWrites (segment : SegmentForLearning) (prevValue : Bytes)
    (nextFps : List UInt64) (allow : Bool) (now : Nat) :
    ∀ w ∈ segmentWrites segment prevValue nextFps allow now, IsDated now allow w := by
  intro w hw
  unfold segmentWrites at hw
  dsimp only at hw
  rcases List.mem_append.mp hw with hw | hw
  · rcases List.mem_append.mp hw with hw | hw
    · split at hw
      · rw [List.mem_singleton.mp hw]
        exact ⟨rfl, id⟩
      · cases hw
    · rw [List.mem_singleton.mp hw]
      exact ⟨rfl, fun h => (Bool.and_eq_true _ _ ▸ h).1⟩
  · rw [Option.mem_toList] at hw
    rcases Option.or_eq_some_iff.mp hw with hw | ⟨-, hw⟩
    · exact isDated_closeBracketWrite allow w hw
    · split at hw
      · exact isDated_closeBracketWrite allow w hw
      · cases hw

theorem isDated_segmentsWrites (now : Nat) : ∀ (segments : List SegmentForLearning) (allow : Bool)
    (seen : List (List UInt64)) (thisWasSeen : Bool) (prevValue : Bytes),
    ∀ w ∈ segmentsWrites city now allow seen thisWasSeen prevValue segments, IsDated now allow w
  | [], _, _, _, _, _, hw => absurd hw List.not_mem_nil
  | segment :: rest, allow, seen, thisWasSeen, prevValue, w, hw => by
    rw [segmentsWrites] at hw
    rcases List.mem_append.mp hw with hw | hw
    · exact isDated_segmentWrites _ _ _ _ _ w hw
    · -- only the first segment may allow it
      obtain ⟨htime, hallow⟩ := isDated_segmentsWrites now rest false _ _ _ w hw
      exact ⟨htime, fun h => absurd (hallow h) Bool.false_ne_true⟩

theorem isDated_conversionWrites {segments : SegmentsForLearning} {now : Nat} :
    ∀ w ∈ conversionWrites city segments now, IsDated now segments.allowPartialMatch w := by
  intro w hw
  unfold conversionWrites at hw
  dsimp only at hw
  rcases List.mem_append.mp hw with hw | hw
  · split at hw
    · rw [List.mem_singleton.mp hw]
      exact ⟨rfl, id⟩
    · cases hw
  · exact isDated_segmentsWrites now _ _ _ _ _ w hw

variable {request : LearningRequest} {results : List Result}

theorem isDated_finishWrites {storage : UserHistoryStorage city} {modules : Modules} {now : Nat} :
    ∀ w ∈ finishWrites storage modules request results now,
      IsDated now (makeLearningSegments modules storage request results).allowPartialMatch
        w.toHistoryWrite := by
  intro w hw
  unfold finishWrites at hw
  split at hw
  · obtain ⟨v, hv, haccept⟩ := List.mem_filterMap.mp hw
    obtain ⟨htime, hallow⟩ := HistoryWrite.accept_some haccept
    obtain ⟨htime', hallow'⟩ := isDated_conversionWrites v hv
    exact ⟨htime.trans htime', fun h => hallow' (hallow ▸ h)⟩
  · cases hw

/-! ## Stamps -/

/-- The step commits or adds the pair at `time`. -/
def CommitsPair (x : Transition (UserHistoryPredictor city) HistoryEvent) (key value : Bytes)
    (time : Nat) : Prop :=
  match x.event with
  | .finish modules request results _ now =>
    time = now ∧ ∃ w ∈ finishWrites x.source.storage modules request results now,
      w.key = key ∧ w.value = value
  | .add k v now => time = now ∧ ∃ pair, acceptedPair k v = some pair ∧
      pair.key = key ∧ pair.value = value
  | _ => False

/-- `ShouldAllowPartialMatch` holds for the commit, and the commit inserts the entry. -/
def AllowsPartialMatch (x : Transition (UserHistoryPredictor city) HistoryEvent) (fp : UInt64) :
    Prop :=
  match x.event with
  | .finish modules request results _ now =>
    (makeLearningSegments modules x.source.storage request results).allowPartialMatch = true ∧
      ∃ w ∈ finishWrites x.source.storage modules request results now, w.fp city = fp
  | _ => False

structure Stamped (path : List (Transition (UserHistoryPredictor city) HistoryEvent))
    (e : Entry) : Prop where
  time : e.removed = false → ∃ x ∈ path, CommitsPair x e.key e.value e.lastAccessTime
  partialMatch : e.allowPartialMatch = true →
    ∃ x ∈ path, AllowsPartialMatch x (fingerprint city e.key e.value)

variable {path : List (Transition (UserHistoryPredictor city) HistoryEvent)}

theorem steady_stamped : Steady (Stamped path) where
  link _ _ h := ⟨h.time, h.partialMatch⟩
  cut _ _ h := ⟨h.time, h.partialMatch⟩
  remove _ h := ⟨Bool.noConfusion, h.partialMatch⟩
  shown _ _ h := ⟨h.time, h.partialMatch⟩

theorem Stamped.append {e : Entry} (h : Stamped path e)
    (x : Transition (UserHistoryPredictor city) HistoryEvent) : Stamped (path ++ [x]) e := by
  constructor
  · intro hlive
    obtain ⟨y, hy, hcommit⟩ := h.time hlive
    exact ⟨y, List.mem_append_left _ hy, hcommit⟩
  · intro hallow
    obtain ⟨y, hy, hcommit⟩ := h.partialMatch hallow
    exact ⟨y, List.mem_append_left _ hy, hcommit⟩

theorem Keeps.mono (h : Keeps P p) (hPQ : ∀ e, P e → Q e) : Keeps Q p :=
  ⟨fun fp e he => hPQ e (h.storage fp e he), fun id r hr =>
    ⟨fun x hx => hPQ _ ((h.cache id r hr).entries x hx),
      fun e he => hPQ _ ((h.cache id r hr).history e he)⟩⟩

/-! ## One step -/

/-- The times are 32-bit numbers that are not 0. -/
def InClock : HistoryEvent → Prop
  | .finish _ _ _ _ now => 0 < now ∧ now < 2 ^ 31
  | .add _ _ now => 0 < now ∧ now < 2 ^ 31
  | _ => True

/-- No entry with a space in front is inserted, no new pair is added in the element of an entry that
allows partial matches, and the time is no smaller than the values are long. -/
def IsProper (x : Transition (UserHistoryPredictor city) HistoryEvent) : Prop :=
  match x.event with
  | .finish modules request results _ now =>
    finishSpace x.source.storage modules request results now = none ∧
      ∀ w ∈ finishWrites x.source.storage modules request results now, charsLen w.value ≤ now
  | .add key value now => ∀ pair, acceptedPair key value = some pair →
      (x.source.storage.lookup (pair.fp city) = none →
        x.source.storage.reused.allowPartialMatch = false) ∧ charsLen pair.value ≤ now
  | _ => True

theorem stamped_fresh {key value : Bytes} :
    Stamped path { key := key, value := value, removed := true } :=
  ⟨Bool.noConfusion, Bool.noConfusion⟩

theorem stamped_added {key value : Bytes} {now : Nat} {pair : AddedPair}
    (hpair : acceptedPair key value = some pair) (h : AllEntries (Stamped path) p.storage)
    (hnew : p.storage.lookup (pair.fp city) = none → p.storage.reused.allowPartialMatch = false) :
    Stamped (path ++ [⟨p, .add key value now, q⟩])
      (pair.added ((p.storage.lookup (pair.fp city)).getD p.storage.reused) now).1 := by
  refine ⟨fun _ => ⟨_, List.mem_append_right _ (List.mem_singleton_self _), rfl, pair, hpair, rfl,
    rfl⟩, fun hallow => ?_⟩
  have hallowed :
      ((p.storage.lookup (pair.fp city)).getD p.storage.reused).allowPartialMatch = true := hallow
  cases hold : p.storage.lookup (pair.fp city) with
  | none =>
    simp [hold, hnew hold] at hallowed
  | some e =>
    rw [hold, Option.getD_some] at hallowed
    obtain ⟨x, hx, hby⟩ := (h _ e hold).partialMatch hallowed
    rw [UserHistoryStorage.fingerprint_of_lookup hold] at hby
    exact ⟨x, List.mem_append_left _ hx, hby⟩

theorem writesWell_stamped {modules : Modules} {revertId : UInt32} {now : Nat} :
    ∀ w ∈ finishWrites p.storage modules request results now,
      WritesWell city
        (Stamped (path ++ [⟨p, .finish modules request results revertId now, q⟩])) w := by
  intro w hw
  obtain ⟨htime, hallow⟩ := isDated_finishWrites w hw
  refine ⟨fun old hold => ⟨fun _ => ?_, fun hallowed => ?_⟩, stamped_fresh⟩
  · exact ⟨_, List.mem_append_right _ (List.mem_singleton_self _), htime, w, hw, rfl, rfl⟩
  · have heither : (w.allowPartialMatch || (old.getD {}).allowPartialMatch) = true := hallowed
    rcases (Bool.or_eq_true _ _).mp heither with hself | hold'
    · exact ⟨_, List.mem_append_right _ (List.mem_singleton_self _), hallow hself, w, hw, rfl⟩
    · cases old with
      | none => cases hold'
      | some e =>
        obtain ⟨hstamped, hfp⟩ := hold e rfl
        obtain ⟨x, hx, hby⟩ := hstamped.partialMatch hold'
        rw [hfp] at hby
        exact ⟨x, hx, hby⟩

/-- **What a proper step keeps.** -/
theorem Keeps.stamped {e : HistoryEvent} (h : Keeps (Stamped path) p) (hstep : Performs p e q)
    (hproper : IsProper (⟨p, e, q⟩ : Transition (UserHistoryPredictor city) HistoryEvent)) :
    Keeps (Stamped (path ++ [⟨p, e, q⟩])) q := by
  have hkept := h.mono fun _ he => Stamped.append he ⟨p, e, q⟩
  subst hstep
  cases e with
  | finish modules request results revertId now =>
    refine hkept.finish steady_stamped (fun w hw => ?_) writesWell_stamped
    simp [hproper.1] at hw
  | revert revertId => exact hkept.revert revertId
  | clear key value => exact ⟨allEntries_clear steady_stamped key value hkept.storage, hkept.cache⟩
  | add key value now =>
    exact ⟨allEntries_add hkept.storage fun pair hpair =>
      stamped_added hpair h.storage (hproper pair hpair).1, hkept.cache⟩
  | forget keeps => exact hkept.forget keeps

theorem writesWell_links (w : AcceptedWrite) : WritesWell city LinksWell w := by
  refine ⟨fun old hold => ?_, linksWell_of_nil rfl⟩
  refine LinksWell.insertNextEntries w.nextFps ?_
  cases old with
  | none => exact linksWell_of_nil rfl
  | some e => exact (hold e rfl).1.of_eq rfl

theorem linksWell_reused {storage : UserHistoryStorage city} (h : AllEntries LinksWell storage) :
    LinksWell storage.reused := by
  unfold UserHistoryStorage.reused
  split
  · exact linksWell_of_nil rfl
  · cases hlast : storage.items.entries.getLast? with
    | none => exact linksWell_of_nil rfl
    | some e =>
      obtain ⟨l, hentries⟩ : ∃ l, storage.items.entries = l ++ [e] :=
        List.getLast?_eq_some_iff.mp hlast
      have hnodup := storage.items.nodup
      rw [hentries] at hnodup
      refine h e.1 e.2 ?_
      show Recency.value? e.1 storage.items.entries = some e.2
      rw [hentries]
      exact Recency.value?_middle (Recency.not_mem_keys_of_nodup hnodup).1

/-- The links are kept well by every step. -/
theorem Keeps.links {e : HistoryEvent} (h : Keeps LinksWell p) (hstep : Performs p e q) :
    Keeps LinksWell q := by
  subst hstep
  cases e with
  | finish modules request results revertId now =>
    exact h.finish steady_linksWell (fun w _ => writesWell_links w) fun w _ => writesWell_links w
  | revert revertId => exact h.revert revertId
  | clear key value => exact ⟨allEntries_clear steady_linksWell key value h.storage, h.cache⟩
  | add key value now =>
    refine ⟨allEntries_add h.storage fun pair _ => ?_, h.cache⟩
    have hentry : LinksWell ((p.storage.lookup (pair.fp city)).getD p.storage.reused) := by
      cases hold : p.storage.lookup (pair.fp city) with
      | none => exact linksWell_reused h.storage
      | some e => exact h.storage _ e hold
    exact hentry.of_eq rfl
  | forget keeps => exact h.forget keeps

/-! ## What a step does to the times -/

/-- The fingerprints that a step writes, and when. -/
def writtenFps (x : Transition (UserHistoryPredictor city) HistoryEvent) : List UInt64 :=
  match x.event with
  | .finish modules request results _ now =>
    (finishWrites x.source.storage modules request results now).map (·.fp city)
  | .add key value _ => ((acceptedPair key value).map (·.fp city)).toList
  | _ => []

def writtenTime : HistoryEvent → Nat
  | .finish _ _ _ _ now => now
  | .add _ _ now => now
  | _ => 0

/-- What is written has the time `now`, and nothing else has another time than before. -/
structure Dated (storage : UserHistoryStorage city) (fps : List UInt64) (now : Nat) (e : Entry) :
    Prop where
  written : fingerprint city e.key e.value ∈ fps → e.lastAccessTime = now
  others : fingerprint city e.key e.value ∉ fps →
    ∃ old, storage.lookup (fingerprint city e.key e.value) = some old ∧
      e.lastAccessTime = old.lastAccessTime ∧ (e.removed = false → old.removed = false)

variable {storage : UserHistoryStorage city} {fps : List UInt64} {now : Nat}

theorem steady_dated : Steady (Dated storage fps now) where
  link _ _ h := ⟨h.written, h.others⟩
  cut _ _ h := ⟨h.written, h.others⟩
  remove e h :=
    ⟨h.written, fun hnot => by
      obtain ⟨old, hold, htime, -⟩ := h.others hnot
      exact ⟨old, hold, htime, Bool.noConfusion⟩⟩
  shown _ _ h := ⟨h.written, h.others⟩

theorem allEntries_dated_nil (storage : UserHistoryStorage city) (now : Nat) :
    AllEntries (Dated storage [] now) storage := by
  intro fp e he
  refine ⟨fun hmem => absurd hmem List.not_mem_nil, fun _ => ⟨e, ?_, rfl, id⟩⟩
  rw [UserHistoryStorage.fingerprint_of_lookup he]
  exact he

/-- An entry is put in front with the time `now`. -/
theorem allEntries_dated_put {state : UserHistoryStorage city}
    (h : AllEntries (Dated storage fps now) state) {e : KeptEntry} (he : e.1.lastAccessTime = now) :
    AllEntries (Dated storage (fps ++ [e.fp city]) now) (state.put e) := by
  intro fp e' he'
  have hfp' := UserHistoryStorage.fingerprint_of_lookup he'
  by_cases hfp : fp = e.fp city
  · subst hfp
    have hself : (state.put e).lookup (e.fp city) = some e.1 := RecencyMap.get?_insert_self
    rw [hself] at he'
    cases he'
    exact ⟨fun _ => he, fun hnot => absurd
      (List.mem_append_right _ (hfp' ▸ List.mem_singleton_self _)) hnot⟩
  · have hold := h fp e' (RecencyMap.get?_of_insert hfp he')
    refine ⟨fun hmem => ?_, fun hnot => hold.others fun hmem =>
      hnot (List.mem_append_left _ hmem)⟩
    rcases List.mem_append.mp hmem with hmem | hmem
    · exact hold.written hmem
    · rw [hfp'] at hmem
      exact absurd (List.mem_singleton.mp hmem) hfp

theorem allEntries_dated_applyAll : ∀ {ws : List AcceptedWrite} {fps : List UInt64}
    {state : Learning city}, (∀ w ∈ ws, w.lastAccessTime = now) →
    AllEntries (Dated storage fps now) state.storage →
    AllEntries (Dated storage (fps ++ ws.map (·.fp city)) now)
      (AcceptedWrite.applyAll ws state).storage
  | [], fps, state, _, h => by
    rw [List.map_nil, List.append_nil]
    exact h
  | w :: ws, fps, state, hws, h => by
    have hw := hws w List.mem_cons_self
    have hput : AllEntries (Dated storage (fps ++ [w.fp city]) now) (w.apply state).storage :=
      allEntries_dated_put h (e := w.written (state.storage.lookup (w.fp city))) hw
    have hrest := allEntries_dated_applyAll (List.forall_mem_cons.mp hws).2 hput
    rw [List.append_assoc] at hrest
    exact hrest

theorem allEntries_dated_finish {modules : Modules} {revertId : UInt32}
    (hspace : finishSpace p.storage modules request results now = none) :
    AllEntries (Dated p.storage
      ((finishWrites p.storage modules request results now).map (·.fp city)) now)
      (p.finish modules request results revertId now).storage := by
  unfold UserHistoryPredictor.finish
  split
  · next hlearned =>
    rw [Bool.not_eq_true'] at hlearned
    simpa [finishWrites, hlearned, Bool.false_ne_true] using allEntries_dated_nil p.storage now
  · next hlearned =>
    rw [Bool.not_eq_true, Bool.not_eq_false'] at hlearned
    dsimp only
    split
    · next hremember =>
      rw [Bool.not_eq_true'] at hremember
      simpa [finishWrites, hremember, Bool.false_ne_true] using allEntries_dated_nil p.storage now
    · next hremember =>
      rw [Bool.not_eq_true, Bool.not_eq_false'] at hremember
      have htimes : ∀ w ∈ finishWrites p.storage modules request results now,
          w.lastAccessTime = now := fun w hw => (isDated_finishWrites w hw).1
      rw [finishSpace, hlearned, hremember, if_pos (by rfl)] at hspace
      rw [finishWrites, hlearned, hremember, if_pos (by rfl)] at htimes ⊢
      have hstart : AllEntries (Dated p.storage [] now) (learningStart p.storage request).storage :=
        allEntries_dated_nil p.storage now
      have hlearn := (allEntries_learn steady_dated rfl
        (fun w hw => by rw [hspace] at hw; cases hw) (allEntries_dated_applyAll htimes hstart)).1
      split
      · exact hlearn
      · exact hlearn

/-- **What a proper step that is no revert does to the times.** -/
theorem allEntries_dated {e : HistoryEvent} (hstep : Performs p e q)
    (hproper : IsProper (⟨p, e, q⟩ : Transition (UserHistoryPredictor city) HistoryEvent))
    (hrevert : ∀ revertId, e ≠ .revert revertId) :
    AllEntries (Dated p.storage (writtenFps ⟨p, e, q⟩) (writtenTime e)) q.storage := by
  subst hstep
  cases e with
  | finish modules request results revertId now => exact allEntries_dated_finish hproper.1
  | revert revertId => exact absurd rfl (hrevert revertId)
  | clear key value => exact allEntries_clear steady_dated key value (allEntries_dated_nil _ _)
  | add key value now =>
    show AllEntries (Dated p.storage ((acceptedPair key value).map (·.fp city)).toList now)
      (addHistoryEntry p.storage key value now)
    unfold addHistoryEntry
    cases acceptedPair key value with
    | none => exact allEntries_dated_nil _ _
    | some pair => exact allEntries_dated_put (allEntries_dated_nil _ _) rfl
  | forget keeps => exact allEntries_dated_nil _ _

/-! ## Scores -/

/-- A time that the score does not wrap at. -/
def IsTimed (e : Entry) : Prop := charsLen e.value ≤ e.lastAccessTime ∧ e.lastAccessTime < 2 ^ 31

theorem getScore_eq {e : Entry} (h : IsTimed e) :
    getScore e = e.lastAccessTime - charsLen e.value +
      if e.has BIGRAM_BOOST then kBigramBoostAsTime else 0 := by
  obtain ⟨hlong, hsmall⟩ := h
  have hboost : (if e.has BIGRAM_BOOST then kBigramBoostAsTime else 0) ≤ 604800 := by
    split
    · exact Nat.le_refl _
    · exact Nat.zero_le _
  unfold getScore
  rw [Int.emod_eq_of_lt (by omega) (by omega)]
  omega

/-- The later entry has the higher score. -/
theorem getScore_lt {a b : Entry} (ha : IsTimed a) (hb : IsTimed b)
    (hboost : a.has BIGRAM_BOOST = b.has BIGRAM_BOOST)
    (hlater : b.lastAccessTime + charsLen a.value < a.lastAccessTime) :
    getScore b < getScore a := by
  rw [getScore_eq ha, getScore_eq hb, hboost]
  have := ha.1
  have := hb.1
  omega

theorem isTimed_of_stamped {e : Entry} (h : Stamped path e) (hlive : e.removed = false)
    (hclock : ∀ x ∈ path, InClock x.event) (hproper : ∀ x ∈ path, IsProper x) : IsTimed e := by
  obtain ⟨x, hx, hcommit⟩ := h.time hlive
  have hin := hclock x hx
  have hx := hproper x hx
  unfold CommitsPair at hcommit
  unfold IsProper at hx
  cases hevent : x.event with
  | finish modules request results revertId now =>
    rw [hevent] at hcommit hin hx
    obtain ⟨htime, w, hw, -, hvalue⟩ := hcommit
    exact ⟨by rw [htime, ← hvalue]; exact hx.2 w hw, by rw [htime]; exact hin.2⟩
  | revert revertId =>
    simp [hevent] at hcommit
  | clear key value =>
    simp [hevent] at hcommit
  | add key value now =>
    rw [hevent] at hcommit hin hx
    obtain ⟨htime, pair, hpair, -, hvalue⟩ := hcommit
    exact ⟨by rw [htime, ← hvalue]; exact (hx pair hpair).2, by rw [htime]; exact hin.2⟩
  | forget keeps =>
    simp [hevent] at hcommit

/-! ## The result -/

def emptyHistory (city : City) (capacity : Nat) (hpos : 0 < capacity) :
    UserHistoryPredictor city where
  storage := .empty city capacity hpos
  revertCache _ := none
  lastCommittedEntries := none

theorem keeps_emptyHistory {capacity : Nat} {hpos : 0 < capacity} :
    Keeps P (emptyHistory city capacity hpos) := by
  constructor
  · intro fp e he
    cases he
  · intro id r hr
    cases hr

/-- **In every run of proper steps the entries are stamped and ranked by recency**, and the links
are kept well in every run. -/
theorem entries_are_stamped {capacity : Nat} {hpos : 0 < capacity}
    (h : Path Performs (emptyHistory city capacity hpos) path p)
    (hclock : ∀ x ∈ path, InClock x.event) :
    AllEntries LinksWell p.storage ∧
      ((∀ x ∈ path, IsProper x) →
        AllEntries (Stamped path) p.storage ∧
          (∀ x ∈ path, (∀ revertId, x.event ≠ .revert revertId) →
            AllEntries (Dated x.source.storage (writtenFps x) (writtenTime x.event))
              x.target.storage) ∧
          (∀ fp e, p.storage.lookup fp = some e → e.removed = false →
            getScore e = e.lastAccessTime - charsLen e.value +
              if e.has BIGRAM_BOOST then kBigramBoostAsTime else 0) ∧
          ∀ fp fp' a b, p.storage.lookup fp = some a → p.storage.lookup fp' = some b →
            a.removed = false → b.removed = false → a.has BIGRAM_BOOST = b.has BIGRAM_BOOST →
            b.lastAccessTime + charsLen a.value < a.lastAccessTime → getScore b < getScore a) := by
  constructor
  · have hlinks : Keeps LinksWell p :=
      h.invariant (fun _ _ _ hkeeps hstep => Keeps.links hkeeps hstep) keeps_emptyHistory
    exact hlinks.storage
  · intro hproper
    have hstamped : Keeps (Stamped path) p := by
      clear hclock
      induction h with
      | refl => exact keeps_emptyHistory
      | tail hpath hstep ih =>
        exact (ih fun x hx => hproper x (List.mem_append_left _ hx)).stamped hstep
          (hproper _ (List.mem_append_right _ (List.mem_singleton_self _)))
    have htimed : ∀ fp e, p.storage.lookup fp = some e → e.removed = false → IsTimed e :=
      fun fp e he hlive => isTimed_of_stamped (hstamped.storage fp e he) hlive hclock hproper
    refine ⟨hstamped.storage, fun x hx hrevert => ?_, fun fp e he hlive =>
      getScore_eq (htimed fp e he hlive), fun fp fp' a b ha hb halive hblive hboost hlater =>
      getScore_lt (htimed fp a ha halive) (htimed fp' b hb hblive) hboost hlater⟩
    obtain ⟨before, after, rfl⟩ := List.append_of_mem hx
    obtain ⟨-, hstep, -⟩ := h.of_mem
    exact allEntries_dated hstep (hproper x hx) hrevert

def ramenResults : List Result :=
  [{ key := utf8 "らーめん", value := utf8 "ラーメン", innerSegmentBoundary := [0x0C0C0C0C] }]

def ramen : HistoryEvent := .finish {} {} ramenResults 1 1000000000

def shibuyaResults : List Result :=
  [{ key := utf8 "しぶや", value := utf8 "渋谷", innerSegmentBoundary := [0x09060906] }]

def afterRamen : LearningRequest := { precedingText := utf8 "ラーメン " }

/-- "渋谷" is committed after "ラーメン" and a space. -/
def shibuya : HistoryEvent := .finish {} afterRamen shibuyaResults 2 2000000000

def ramenHistory : UserHistoryPredictor shortCity :=
  perform (emptyHistory shortCity 8 (Nat.le_add_left 1 7)) ramen

theorem entries_are_stamped_ramen :
    InClock ramen ∧
      IsProper (⟨emptyHistory shortCity 8 (by decide), ramen, ramenHistory⟩ :
        Transition (UserHistoryPredictor shortCity) HistoryEvent) ∧
      AllEntries (Stamped [⟨emptyHistory shortCity 8 (by decide), ramen, ramenHistory⟩])
        ramenHistory.storage := by
  have hclock : InClock ramen := ⟨by decide, by decide⟩
  have hproper : IsProper (⟨emptyHistory shortCity 8 (by decide), ramen, ramenHistory⟩ :
      Transition (UserHistoryPredictor shortCity) HistoryEvent) := by
    refine ⟨by decide +kernel, ?_⟩
    dsimp only
    decide +kernel
  have hpath : Path Performs (emptyHistory shortCity 8 (by decide))
      [⟨emptyHistory shortCity 8 (by decide), ramen, ramenHistory⟩] ramenHistory :=
    .tail .refl rfl
  have hresult := entries_are_stamped hpath
    (fun x hx => by rw [List.mem_singleton.mp hx]; exact hclock)
  exact ⟨hclock, hproper,
    (hresult.2 fun x hx => by rw [List.mem_singleton.mp hx]; exact hproper).1⟩

theorem CommitsPair.pos {x : Transition (UserHistoryPredictor city) HistoryEvent}
    {key value : Bytes} {time : Nat} (h : CommitsPair x key value time) (hclock : InClock x.event) :
    0 < time := by
  unfold CommitsPair at h
  unfold InClock at hclock
  split at h
  · next hevent =>
    rw [hevent] at hclock
    rw [h.1]
    exact hclock.1
  · next hevent =>
    rw [hevent] at hclock
    rw [h.1]
    exact hclock.1
  · exact h.elim

def shibuyaPath : List (Transition (UserHistoryPredictor shortCity) HistoryEvent) :=
  [⟨emptyHistory shortCity 8 (Nat.le_add_left 1 7), ramen, ramenHistory⟩,
    ⟨ramenHistory, shibuya, perform ramenHistory shibuya⟩]

def shibuyaEntry : Entry :=
  { key := utf8 "しぶや", value := utf8 "渋谷", suggestionFreq := 1, shownFreq := 1
    lastAccessTime := 2000000000 }

def spacedShibuyaEntry : Entry :=
  { key := kPrefixZeroSpace ++ utf8 "しぶや", value := kPrefixZeroSpace ++ utf8 "渋谷"
    suggestionFreq := 1, allowPartialMatch := true }

/-- The entry with a space in front is not stamped and is ranked in front of the one without. -/
theorem space_entry_is_not_stamped :
    ∃ (path : List (Transition (UserHistoryPredictor shortCity) HistoryEvent))
      (p : UserHistoryPredictor shortCity) (fp fp' : UInt64) (spaced plain : Entry),
      Path Performs (emptyHistory shortCity 8 (by decide)) path p ∧
        path.map (writtenTime ·.event) = [1000000000, 2000000000] ∧
        (∀ x ∈ path, InClock x.event) ∧
        p.storage.lookup fp = some spaced ∧ p.storage.lookup fp' = some plain ∧
        spaced.removed = false ∧ plain.removed = false ∧
        (∀ x ∈ path, ¬CommitsPair x spaced.key spaced.value spaced.lastAccessTime) ∧
        (spaced.allowPartialMatch = true ∧ ∀ x ∈ path, ¬AllowsPartialMatch x fp) ∧
        spaced.has BIGRAM_BOOST = plain.has BIGRAM_BOOST ∧
        spaced.lastAccessTime + charsLen spaced.value + charsLen plain.value <
          plain.lastAccessTime ∧
        getScore plain < getScore spaced := by
  have hclock : ∀ x ∈ shibuyaPath, InClock x.event := by
    intro x hx
    rcases List.mem_cons.mp hx with rfl | hx
    · exact ⟨by decide, by decide⟩
    · rw [List.mem_singleton.mp hx]
      exact ⟨by decide, by decide⟩
  refine ⟨shibuyaPath, perform ramenHistory shibuya, 9262750738913210551, 9514389368092537015,
    spacedShibuyaEntry, shibuyaEntry, (.tail (.tail .refl rfl) rfl), rfl, hclock,
    by decide +kernel, by decide +kernel, rfl, rfl, ?_, ⟨rfl, ?_⟩, rfl, by decide +kernel,
    by decide +kernel⟩
  · intro x hx hcommits
    exact Nat.lt_irrefl 0 (hcommits.pos (hclock x hx))
  · intro x hx hallows
    unfold AllowsPartialMatch at hallows
    rcases List.mem_cons.mp hx with rfl | hx
    · have hnone : ¬∃ w ∈ finishWrites (emptyHistory shortCity 8 (by decide)).storage {} {}
          ramenResults 1000000000, w.fp shortCity = 9262750738913210551 := by decide +kernel
      exact hnone hallows.2
    · rw [List.mem_singleton.mp hx] at hallows
      have hnone : ¬∃ w ∈ finishWrites ramenHistory.storage {} afterRamen shibuyaResults 2000000000,
          w.fp shortCity = 9262750738913210551 := by decide +kernel
      exact hnone hallows.2

end Mozkey.Prediction
