import Mozkey.Prediction.RemovedHistory

/-!
# Removed entries in the results

Two lookups of `CreateEntryQueueFromHistoryForPrediction` do not look at what is removed: the one
for a misspelled romanised key, and the one for the rest of a longer entry.

* `removed_never_shown` — when no result of `Predict` was removed, and that none of `Convert` was
* `removed_shown_again` — two removed entries that come back
-/

namespace Mozkey.Prediction

open Infra Base Converter UserHistoryStorage

variable {city : City} {storage : UserHistoryStorage city} {fp : UInt64} {entry prev : Entry}
  {prevEntry : Option Entry} {modules : HistoryModules} {request : ConversionRequest}
  {queue : EntryPriorityQueue}

/-! ## Which visits are careless -/

/-- The entry is left to the lookups behind `LookupEntry`. -/
def passesLookup (storage : UserHistoryStorage city) (modules : HistoryModules)
    (request : ConversionRequest) (prevEntry : Option Entry) (entry : Entry)
    (queue : EntryPriorityQueue) : Bool :=
  isValidEntryIgnoringRemovedField modules entry &&
    !(lookupEntry storage modules request request.stringForPreedit request.queryBase
      (expandedTrie request.expandedSet) entry prevEntry false queue).2 &&
    !isLowFreqFullSentenceEntry request entry

def romanMatches (modules : HistoryModules) (request : ConversionRequest) (entry : Entry) : Bool :=
  !(getRomanMisspelledKey modules request).isEmpty &&
    romanFuzzyPrefixMatch (modules.toRoman entry.key) (getRomanMisspelledKey modules request)

def zeroQueryMatches (request : ConversionRequest) (entry prev : Entry) : Bool :=
  (request.zeroQuerySuggestion && request.stringForPreedit.isEmpty &&
    prev.key.length < entry.key.length && prev.value.length < entry.value.length &&
    prev.key.isPrefixOf entry.key && prev.value.isPrefixOf entry.value) &&
    startsWithValidLetter (entry.value.drop prev.value.length)

/-- What has to hold of an entry that is visited with `queue`. A value that was already seen is
not pushed. -/
structure VisitCondition (storage : UserHistoryStorage city) (modules : HistoryModules)
    (request : ConversionRequest) (prevEntry : Option Entry) (entry : Entry)
    (queue : EntryPriorityQueue) : Prop where
  roman : passesLookup storage modules request prevEntry entry queue = true →
    romanMatches modules request entry = true → modules.hashOf entry.value ∉ queue.seen →
    entry.removed = false ∧ 0 < entry.suggestionFreq
  zeroQuery : passesLookup storage modules request prevEntry entry queue = true →
    romanMatches modules request entry = false → ∀ prev, prevEntry = some prev →
    zeroQueryMatches request entry prev = true →
    modules.hashOf (entry.value.drop prev.value.length) ∉ queue.seen →
    ¬StoredRemoved storage (entry.key.drop prev.key.length) (entry.value.drop prev.value.length)

theorem VisitCondition.of_not_passes
    (h : passesLookup storage modules request prevEntry entry queue = false) :
    VisitCondition storage modules request prevEntry entry queue where
  roman hpasses := by simp [h] at hpasses
  zeroQuery hpasses := by simp [h] at hpasses

theorem romanFuzzyLookupEntry_eq :
    romanFuzzyLookupEntry modules (getRomanMisspelledKey modules request) entry queue =
      if romanMatches modules request entry then
        (queue.newEntry.push modules (entry.setAttribute SPELLING_CORRECTION) entry, true)
      else (queue, false) := by
  unfold romanFuzzyLookupEntry romanMatches
  cases (getRomanMisspelledKey modules request).isEmpty with
  | true => rfl
  | false =>
    cases romanFuzzyPrefixMatch (modules.toRoman entry.key)
      (getRomanMisspelledKey modules request) <;> rfl

theorem zeroQueryLookupEntry_eq :
    zeroQueryLookupEntry modules request request.stringForPreedit entry (some prev) queue =
      if zeroQueryMatches request entry prev then
        (queue.newEntry.push modules (zeroQueryEntry entry prev) entry, true)
      else (queue, false) := by
  unfold zeroQueryLookupEntry zeroQueryMatches
  dsimp only
  split
  · next h =>
    rw [h]
    cases startsWithValidLetter (entry.value.drop prev.value.length) <;> rfl
  · next h =>
    rw [Bool.not_eq_true] at h
    rw [h]
    rfl

/-! ## What the careless visits push -/

theorem safe_roman (hentry : storage.lookup fp = some entry) (allocation : Nat) :
    Safe storage ⟨entry.setAttribute SPELLING_CORRECTION, entry, allocation⟩ ↔
      entry.removed = false ∧ 0 < entry.suggestionFreq := by
  constructor
  · intro h
    exact h.copied rfl rfl
  · intro h
    refine ⟨⟨fp, hentry⟩, ?_, fun _ _ => h⟩
    intro hremoved
    rw [(storedRemoved_self hentry).mp hremoved] at h
    cases h.1

/-- The rest of an entry is no copy of it, as the word in front is not empty. -/
theorem safe_zeroQuery (hentry : storage.lookup fp = some entry) {fp' : UInt64}
    (hprev : storage.lookup fp' = some prev) (allocation : Nat) :
    Safe storage ⟨zeroQueryEntry entry prev, entry, allocation⟩ ↔
      ¬StoredRemoved storage (entry.key.drop prev.key.length)
        (entry.value.drop prev.value.length) := by
  constructor
  · intro h
    exact h.notRemoved
  · intro h
    refine ⟨⟨fp, hentry⟩, h, ?_⟩
    intro hkey
    have hlength : (entry.key.drop prev.key.length).length = entry.key.length :=
      congrArg List.length hkey
    have hprevPos := List.length_pos_iff.mpr (key_ne_nil hprev)
    have hentryPos := List.length_pos_iff.mpr (key_ne_nil hentry)
    simp at hlength
    omega

/-- **One visit: what was safe stays safe, exactly when the entry meets its condition.** -/
theorem allSafe_visitForPrediction (hentry : storage.lookup fp = some entry)
    (hprev : ∀ prev, prevEntry = some prev → ∃ fp, storage.lookup fp = some prev) :
    AllSafe storage (visitForPrediction storage modules request prevEntry entry queue) ↔
      AllSafe storage queue ∧ VisitCondition storage modules request prevEntry entry queue := by
  have hlooked : AllSafe storage (lookupEntry storage modules request request.stringForPreedit
      request.queryBase (expandedTrie request.expandedSet) entry prevEntry false queue).1 ↔
        AllSafe storage queue := allSafe_lookupEntry hentry
  unfold visitForPrediction
  dsimp only
  split
  · next hvalid =>
    exact (and_iff_left (.of_not_passes (by simp_all [passesLookup]))).symm
  split
  · next hmatched =>
    exact hlooked.trans
      (and_iff_left (.of_not_passes (by simp_all [passesLookup]))).symm
  split
  · next hlow =>
    exact hlooked.trans
      (and_iff_left (.of_not_passes (by simp_all [passesLookup]))).symm
  next hvalid hmatched hlow =>
  have hpasses : passesLookup storage modules request prevEntry entry queue = true := by
    simp_all [passesLookup]
  have hsame : SameElements queue (lookupEntry storage modules request request.stringForPreedit
      request.queryBase (expandedTrie request.expandedSet) entry prevEntry false queue).1 :=
    sameElements_lookupEntry hentry (by simpa using hmatched)
  generalize (lookupEntry storage modules request request.stringForPreedit
      request.queryBase (expandedTrie request.expandedSet) entry prevEntry false queue).1 =
    looked at hlooked hsame
  rw [romanFuzzyLookupEntry_eq]
  cases hroman : romanMatches modules request entry with
  | true =>
    rw [if_pos rfl]
    dsimp only
    rw [if_pos rfl, allSafe_push, allSafe_newEntry, hlooked]
    refine and_congr_right fun _ => ?_
    rw [safe_roman hentry]
    show (modules.hashOf entry.value ∉ looked.seen → _) ↔ _
    rw [hsame.seen]
    exact ⟨fun h => ⟨fun _ _ => h, fun _ hfalse => by simp [hroman] at hfalse⟩,
      fun h => h.roman hpasses hroman⟩
  | false =>
    simp only [Bool.false_eq_true, if_false]
    have hcorrected : AllSafe storage (lookupCorrected storage modules request entry prevEntry
        (getTypingCorrectedQueries modules request) looked) ↔ AllSafe storage looked :=
      allSafe_lookupCorrected hentry _ looked
    cases prevEntry with
    | none =>
      exact (hcorrected.trans hlooked).trans (and_iff_left ⟨fun _ h => by simp [hroman] at h,
        fun _ _ prev hnone => by cases hnone⟩).symm
    | some prev =>
      obtain ⟨fp', hfp'⟩ := hprev prev rfl
      rw [zeroQueryLookupEntry_eq]
      cases hzero : zeroQueryMatches request entry prev with
      | true =>
        simp only [if_true]
        rw [allSafe_push, allSafe_newEntry, hlooked]
        refine and_congr_right fun _ => ?_
        rw [safe_zeroQuery hentry hfp']
        show (modules.hashOf (entry.value.drop prev.value.length) ∉ looked.seen → _) ↔ _
        rw [hsame.seen]
        constructor
        · intro h
          refine ⟨fun _ hr => by simp [hroman] at hr, ?_⟩
          rintro - - prev' hprev' -
          rw [← Option.some.inj hprev']
          exact h
        · intro h
          exact h.zeroQuery hpasses hroman prev rfl hzero
      | false =>
        simp only [Bool.false_eq_true, if_false]
        refine (hcorrected.trans hlooked).trans (and_iff_left ⟨fun _ h => by simp [hroman] at h,
          ?_⟩).symm
        rintro - - prev' hprev' hzero'
        simp [← Option.some.inj hprev', hzero] at hzero'

/-! ## The whole scan -/

/-- The entries that `ForEach` visits, each with the queue in front of its visit. -/
def visits (storage : UserHistoryStorage city) (maxEntryQueueSize : Nat)
    (visit : Entry → EntryPriorityQueue → EntryPriorityQueue) :
    List UInt64 → EntryPriorityQueue → List (Entry × EntryPriorityQueue)
  | [], _ => []
  | fp :: fps, queue =>
    if maxEntryQueueSize ≤ queue.size then []
    else
      match storage.lookup fp with
      | none => visits storage maxEntryQueueSize visit fps queue
      | some entry =>
        (entry, queue) :: visits storage maxEntryQueueSize visit fps (visit entry queue)

theorem allSafe_forEach {maxEntryQueueSize : Nat}
    {visit : Entry → EntryPriorityQueue → EntryPriorityQueue}
    {condition : Entry → EntryPriorityQueue → Prop}
    (hvisit : ∀ fp entry queue, storage.lookup fp = some entry →
      (AllSafe storage (visit entry queue) ↔ AllSafe storage queue ∧ condition entry queue)) :
    ∀ (fps : List UInt64) (queue : EntryPriorityQueue),
      AllSafe storage (forEach storage maxEntryQueueSize visit fps queue) ↔
        AllSafe storage queue ∧
          ∀ v ∈ visits storage maxEntryQueueSize visit fps queue, condition v.1 v.2
  | [], queue => by simp [forEach, visits]
  | fp :: fps, queue => by
    unfold forEach visits
    split
    · simp
    · cases hentry : storage.lookup fp with
      | none => exact allSafe_forEach hvisit fps queue
      | some entry =>
        dsimp only
        rw [allSafe_forEach hvisit fps (visit entry queue), hvisit fp entry queue hentry, and_assoc]
        simp [forall_eq_or_imp]

theorem allSafe_empty : AllSafe storage {} := fun q hq => by cases hq

theorem lookupPrevEntry_stored (h : lookupPrevEntry storage modules request = some prev) :
    ∃ fp, storage.lookup fp = some prev := by
  unfold lookupPrevEntry at h
  dsimp only at h
  split at h
  · cases h
  · have hcontext : ∀ contexts : List (Bytes × Bytes),
        (contexts.findSome? fun c => storage.lookup (fingerprint city c.1 c.2)) = some prev →
          ∃ fp, storage.lookup fp = some prev := fun contexts hfound => by
      obtain ⟨c, -, hc⟩ := List.exists_of_findSome?_eq_some hfound
      exact ⟨_, hc⟩
    split at h
    · rcases Option.or_eq_some_iff.mp h with hfound | ⟨-, hfound⟩
      · obtain ⟨fp, -, hfp⟩ := List.exists_of_findSome?_eq_some hfound
        exact ⟨fp, (Option.filter_eq_some_iff.mp hfp).1⟩
      · exact hcontext _ hfound
    · exact hcontext _ h

/-- The visits of `Predict`. -/
def predictionVisits (storage : UserHistoryStorage city) (modules : HistoryModules)
    (request : ConversionRequest) : List (Entry × EntryPriorityQueue) :=
  visits storage (maxPredictionSize request * 5)
    (visitForPrediction storage modules request (lookupPrevEntry storage modules request))
    storage.fps {}

theorem allSafe_predictionQueue : AllSafe storage (predictionQueue storage modules request) ↔
    ∀ v ∈ predictionVisits storage modules request,
      VisitCondition storage modules request (lookupPrevEntry storage modules request) v.1 v.2 :=
  (allSafe_forEach (fun _ _ _ hentry => allSafe_visitForPrediction hentry
    fun _ hprev => lookupPrevEntry_stored hprev) storage.fps {}).trans (and_iff_right allSafe_empty)

theorem allSafe_conversionQueue : AllSafe storage (conversionQueue storage modules request) := by
  have hvisit : ∀ fp entry queue, storage.lookup fp = some entry →
      (AllSafe storage (visitForConversion storage modules request
        (lookupPrevEntry storage modules request) entry queue) ↔
          AllSafe storage queue ∧ True) := fun fp entry queue hentry => by
    unfold visitForConversion
    dsimp only
    rw [and_true]
    split
    · exact Iff.rfl
    · exact allSafe_lookupEntry hentry
  exact (allSafe_forEach hvisit storage.fps {}).mpr
    ⟨allSafe_empty, fun _ _ => trivial⟩

/-! ## Results -/

variable {maxPredictionCharCoverage : Nat}

theorem mem_selectEntries {maxPredictionSize : Nat} {q : Queued} :
    ∀ (popped : List Queued) (s : Selection),
      q ∈ selectEntries maxPredictionSize maxPredictionCharCoverage popped s →
        q ∈ s.entries ∨ q ∈ popped
  | [], _, h => .inl h
  | q' :: popped, s, h => by
    unfold selectEntries at h
    dsimp only at h
    have hrest : ∀ s' : Selection, (∀ q, q ∈ s'.entries → q ∈ s.entries ∨ q = q') →
        q ∈ selectEntries maxPredictionSize maxPredictionCharCoverage popped s' →
          q ∈ s.entries ∨ q ∈ q' :: popped := fun s' hs' hq => by
      rcases mem_selectEntries popped s' hq with hmem | hmem
      · rcases hs' q hmem with hold | rfl
        · exact .inl hold
        · exact .inr List.mem_cons_self
      · exact .inr (List.mem_cons_of_mem _ hmem)
    split at h
    · exact .inl h
    split at h
    · exact hrest s (fun _ hq => .inl hq) h
    split at h
    · exact hrest s (fun _ hq => .inl hq) h
    split at h
    · exact hrest _ (fun _ hq => List.mem_or_eq_of_mem_set hq) h
    split at h
    · exact .inl h
    · refine hrest _ (fun _ hq => ?_) h
      rcases List.mem_append.mp hq with hold | hnew
      · exact .inl hold
      · exact .inr (List.mem_singleton.mp hnew)

theorem exists_of_mem_makeResults {maxPredictionSize : Nat} {r : DisplayedResult}
    (h : r ∈ makeResults modules request maxPredictionSize maxPredictionCharCoverage queue) :
    ∃ q ∈ queue.agenda, r = toResult modules request q.entry := by
  obtain ⟨q, hq, rfl⟩ := List.mem_map.mp h
  rcases mem_selectEntries _ _ hq with hnone | hmem
  · cases hnone
  · exact ⟨q, (List.mem_insertionSort _).mp hmem, rfl⟩

/-- The result is made from an element of the queue that may be shown. -/
def ShownSafely (storage : UserHistoryStorage city) (modules : HistoryModules)
    (request : ConversionRequest) (queue : EntryPriorityQueue) (r : DisplayedResult) : Prop :=
  ∃ q ∈ queue.agenda, r = toResult modules request q.entry ∧ Safe storage q

theorem AllSafe.shownSafely (h : AllSafe storage queue) {r : DisplayedResult}
    {maxPredictionSize : Nat}
    (hr : r ∈ makeResults modules request maxPredictionSize maxPredictionCharCoverage queue) :
    ShownSafely storage modules request queue r := by
  obtain ⟨q, hq, hresult⟩ := exists_of_mem_makeResults hr
  exact ⟨q, hq, hresult, h q hq⟩

/-- **Everything in the queue of `Predict` is safe, exactly when every visit meets its condition.
Then so are its results, and those of `Convert` always are.** -/
theorem removed_never_shown (p : UserHistoryPredictor city) (modules : HistoryModules)
    (request : ConversionRequest) :
    (AllSafe (p.beforePredict modules request).storage
        (predictionQueue (p.beforePredict modules request).storage modules request) ↔
      ∀ v ∈ predictionVisits (p.beforePredict modules request).storage modules request,
        VisitCondition (p.beforePredict modules request).storage modules request
          (lookupPrevEntry (p.beforePredict modules request).storage modules request) v.1 v.2) ∧
    ((∀ v ∈ predictionVisits (p.beforePredict modules request).storage modules request,
        VisitCondition (p.beforePredict modules request).storage modules request
          (lookupPrevEntry (p.beforePredict modules request).storage modules request) v.1 v.2) →
      ∀ r ∈ (p.predict modules request).2,
        ShownSafely (p.predict modules request).1.storage modules request
          (predictionQueue (p.predict modules request).1.storage modules request) r) ∧
    ∀ r ∈ p.convert modules request,
      ShownSafely p.storage modules request (conversionQueue p.storage modules request) r := by
  refine ⟨allSafe_predictionQueue, fun hvisits r hr => ?_, fun r hr => ?_⟩
  · unfold UserHistoryPredictor.predict at hr ⊢
    dsimp only at hr ⊢
    split at hr
    · cases hr
    split at hr
    · cases hr
    · exact (allSafe_predictionQueue.mpr hvisits).shownSafely hr
  · unfold UserHistoryPredictor.convert at hr
    split at hr
    · cases hr
    · exact allSafe_conversionQueue.shownSafely hr

/-! ## Two entries that come back -/

theorem not_shownSafely (key value : Bytes) {r : DisplayedResult}
    (hqueue : queue.agenda.map (fun q => (q.entry.key, q.entry.value)) = [(key, value)])
    (hremoved : StoredRemoved storage key value) :
    ¬ShownSafely storage modules request queue r := by
  rintro ⟨q, hq, -, hsafe⟩
  have hpair : (q.entry.key, q.entry.value) ∈ [(key, value)] :=
    hqueue ▸ List.mem_map_of_mem (f := fun q : Queued => (q.entry.key, q.entry.value)) hq
  obtain ⟨rfl, rfl⟩ := Prod.mk.inj (List.mem_singleton.mp hpair)
  exact hsafe.notRemoved hremoved

/-- "b" is removed, and the end of "ab". -/
def zeroQueryPredictor : UserHistoryPredictor shortCity where
  storage := ofEntries shortCity
    [{ key := utf8 "a", value := utf8 "a", suggestionFreq := 1 },
      { key := utf8 "ab", value := utf8 "ab", suggestionFreq := 1 },
      { key := utf8 "b", value := utf8 "b", removed := true }]
    (by decide +kernel) (by decide +kernel)
  revertCache _ := none
  lastCommittedEntries := none

def lengthHash : HistoryModules where
  hashOf s := s.length.toUInt64

/-- "a" was committed, and nothing is typed yet. -/
def zeroQueryRequest : ConversionRequest where
  zeroQuerySuggestion := true
  historyResult :=
    { key := utf8 "a", value := utf8 "a", innerSegmentBoundary := [0x01010101] }

/-- "ばあ" is removed. -/
def romanPredictor : UserHistoryPredictor shortCity where
  storage := ofEntries shortCity
    [{ key := utf8 "ばあ", value := utf8 "婆", suggestionFreq := 1, removed := true }]
    (by decide +kernel) (by decide +kernel)
  revertCache _ := none
  lastCommittedEntries := none

def romanModules : HistoryModules where
  hashOf s := s.length.toUInt64
  toRoman s := if s = utf8 "ばあ" then utf8 "baa" else utf8 "ab"

/-- "あb" is typed in place of "ばあ". -/
def romanRequest : ConversionRequest where
  key := utf8 "あb"
  stringForPreedit := utf8 "あb"
  queryBase := utf8 "あ"
  expandedSet := ["ば", "び", "ぶ", "べ", "ぼ"].map utf8

theorem removed_shown_again :
    (¬∀ r ∈ (zeroQueryPredictor.predict lengthHash zeroQueryRequest).2,
      ShownSafely (zeroQueryPredictor.predict lengthHash zeroQueryRequest).1.storage lengthHash
        zeroQueryRequest (predictionQueue
          (zeroQueryPredictor.predict lengthHash zeroQueryRequest).1.storage lengthHash
          zeroQueryRequest) r) ∧
    ¬∀ r ∈ (romanPredictor.predict romanModules romanRequest).2,
      ShownSafely (romanPredictor.predict romanModules romanRequest).1.storage romanModules
        romanRequest (predictionQueue
          (romanPredictor.predict romanModules romanRequest).1.storage romanModules
          romanRequest) r := by
  constructor
  · have hresults : (zeroQueryPredictor.predict lengthHash zeroQueryRequest).2.length = 1 := by
      decide +kernel
    obtain ⟨r, hr⟩ := List.length_eq_one_iff.mp hresults
    intro hsafe
    refine not_shownSafely (utf8 "b") (utf8 "b") ?_ ?_ (hsafe r (by simp [hr]))
    · decide +kernel
    · exact ⟨abcFp "b" "b", { key := utf8 "b", value := utf8 "b", removed := true },
        by decide +kernel, rfl, rfl, rfl⟩
  · have hresults : (romanPredictor.predict romanModules romanRequest).2.length = 1 := by
      decide +kernel
    obtain ⟨r, hr⟩ := List.length_eq_one_iff.mp hresults
    intro hsafe
    refine not_shownSafely (utf8 "ばあ") (utf8 "婆") ?_ ?_ (hsafe r (by simp [hr]))
    · decide +kernel
    · exact ⟨abcFp "ばあ" "婆",
        { key := utf8 "ばあ", value := utf8 "婆", suggestionFreq := 1, removed := true },
        by decide +kernel, rfl, rfl, rfl⟩

end Mozkey.Prediction
