import Mozkey.Prediction.ChainRemoval
import Mozkey.Prediction.HistoryResults

/-!
# Removed entries in the queue

A removed entry stays in the storage, and is still visited, so that chains can pass through it.
Nothing that `LookupEntry` pushes was removed (`allSafe_lookupEntry`).
-/

namespace Mozkey.Prediction

open Infra Base Converter UserHistoryStorage

variable {city : City} {storage : UserHistoryStorage city} {fp : UInt64} {entry result : Entry}
  {modules : HistoryModules} {request : ConversionRequest} {queue : EntryPriorityQueue}

/-! ## What must not be shown -/

/-- The pair is stored as removed. -/
def StoredRemoved (storage : UserHistoryStorage city) (key value : Bytes) : Prop :=
  ∃ fp entry, storage.lookup fp = some entry ∧ entry.key = key ∧ entry.value = value ∧
    entry.removed = true

/-- What an element of the queue has to be. -/
structure Safe (storage : UserHistoryStorage city) (q : Queued) : Prop where
  scanned : ∃ fp, storage.lookup fp = some q.scanned
  notRemoved : ¬StoredRemoved storage q.entry.key q.entry.value
  /-- A plain copy comes from an entry that is in use. -/
  copied : q.entry.key = q.scanned.key → q.entry.value = q.scanned.value →
    q.scanned.removed = false ∧ 0 < q.scanned.suggestionFreq

def AllSafe (storage : UserHistoryStorage city) (queue : EntryPriorityQueue) : Prop :=
  ∀ q ∈ queue.agenda, Safe storage q

theorem StoredRemoved.lookup {key value : Bytes} (h : StoredRemoved storage key value) :
    (storage.lookup (fingerprint city key value)).any (·.removed) = true := by
  obtain ⟨fp, entry, hentry, rfl, rfl, hremoved⟩ := h
  rw [fingerprint_of_lookup hentry, hentry]
  exact hremoved

theorem storedRemoved_self (hentry : storage.lookup fp = some entry) :
    StoredRemoved storage entry.key entry.value ↔ entry.removed = true := by
  constructor
  · intro h
    have hlookup := h.lookup
    simpa [fingerprint_of_lookup hentry, hentry] using hlookup
  · intro h
    exact ⟨fp, entry, hentry, rfl, rfl, h⟩

/-! ## The queue -/

/-- Nothing was pushed. -/
structure SameElements (queue queue' : EntryPriorityQueue) : Prop where
  agenda : queue'.agenda = queue.agenda
  seen : queue'.seen = queue.seen

namespace SameElements

variable {queue' queue'' : EntryPriorityQueue}

theorem refl (queue : EntryPriorityQueue) : SameElements queue queue := ⟨rfl, rfl⟩

theorem allSafe (h : SameElements queue queue') :
    AllSafe storage queue' ↔ AllSafe storage queue := by
  unfold AllSafe
  rw [h.agenda]

end SameElements

theorem allSafe_push : AllSafe storage (queue.push modules result entry) ↔
    AllSafe storage queue ∧ (modules.hashOf result.value ∉ queue.seen →
      Safe storage ⟨result, entry, queue.allocated⟩) := by
  unfold AllSafe EntryPriorityQueue.push
  dsimp only
  split
  · next h => simp [h]
  · next h =>
    simp only [List.mem_append, List.mem_singleton, or_imp, forall_and, forall_eq]
    exact and_congr_right fun _ => ⟨fun hq _ => hq, fun hq => hq h⟩

theorem allSafe_newEntry : AllSafe storage queue.newEntry ↔ AllSafe storage queue := Iff.rfl

/-! ## What is made from an entry -/

/-- What `result` keeps of `entry`, and when it may be shown. -/
structure Made (storage : UserHistoryStorage city) (entry result : Entry) : Prop where
  starts : entry.key <+: result.key
  freq : result.suggestionFreq = entry.suggestionFreq
  notRemoved : result.removed = false → ¬StoredRemoved storage result.key result.value

namespace Made

theorem safe (h : Made storage entry result) (hentry : storage.lookup fp = some entry)
    (hremoved : result.removed = false) (hfreq : 0 < result.suggestionFreq) (allocation : Nat) :
    Safe storage ⟨result, entry, allocation⟩ where
  scanned := ⟨fp, hentry⟩
  notRemoved := h.notRemoved hremoved
  copied hkey hvalue := by
    have hnot := h.notRemoved hremoved
    rw [show result.key = entry.key from hkey, show result.value = entry.value from hvalue,
      storedRemoved_self hentry, Bool.not_eq_true] at hnot
    exact ⟨hnot, by rwa [← h.freq]⟩

theorem copy (hentry : storage.lookup fp = some entry) : Made storage entry (addEntry entry) := by
  have hself : Made storage entry entry :=
    { starts := List.prefix_refl _
      freq := rfl
      notRemoved := fun h hremoved => by
        rw [(storedRemoved_self hentry).mp hremoved] at h
        cases h }
  unfold addEntry
  split
  · exact ⟨hself.starts, hself.freq, hself.notRemoved⟩
  · exact hself

theorem withNewKeyValue {key value : Bytes} {boundary : List UInt32} (hkey : entry.key <+: key) :
    Made storage entry (addEntryWithNewKeyValue storage key value boundary entry) where
  starts := hkey
  freq := by
    unfold addEntryWithNewKeyValue addEntry
    dsimp only
    split <;> rfl
  notRemoved h hremoved := by
    have hlookup := hremoved.lookup
    unfold addEntryWithNewKeyValue at h hlookup
    simp [hlookup] at h

theorem setAttribute (h : Made storage entry result) (v : UInt32) :
    Made storage entry (result.setAttribute v) := ⟨h.starts, h.freq, h.notRemoved⟩

/-- The time and the boost do not matter. -/
theorem boosted (h : Made storage entry result) (request : ConversionRequest)
    (prevEntry : Option Entry) (mtype : MatchType) :
    Made storage entry (boosted city request entry prevEntry mtype result) := by
  unfold Prediction.boosted
  dsimp only
  repeat' split
  all_goals exact ⟨h.starts, h.freq, h.notRemoved⟩

end Made

theorem Chain.startsWith_extend {requestKey : Bytes} {preferExactMatch : Bool} :
    ∀ (rounds : Nat) (chain : Chain),
      chain.key <+: (Chain.extend storage requestKey preferExactMatch rounds chain).key
  | 0, _ => List.prefix_refl _
  | rounds + 1, chain => by
    unfold Chain.extend
    split
    · exact List.prefix_refl _
    · split
      · exact List.prefix_refl _
      · split
        · exact List.prefix_refl _
        · next next _ =>
          split
          · exact List.prefix_refl _
          · split
            · exact List.prefix_refl _
            · exact (List.prefix_append chain.key next.key).trans
                (startsWith_extend rounds (chain.append next))

theorem mem_of_latest : ∀ (found : List Entry) (latest : Option Entry) (next : Entry),
    found.foldl (fun (latest : Option Entry) e =>
      if latest.all fun l => l.lastAccessTime < e.lastAccessTime then some e else latest) latest =
        some next →
    next ∈ found ∨ latest = some next
  | [], _, _, h => .inr h
  | e :: found, latest, next, h => by
    rcases mem_of_latest found _ next h with hmem | hlatest
    · exact .inl (List.mem_cons_of_mem _ hmem)
    · dsimp only at hlatest
      split at hlatest
      · rw [← Option.some.inj hlatest]
        exact .inl List.mem_cons_self
      · exact .inr hlatest

theorem key_ne_nil_of_nextEntry {accepts : Entry → Bool} {left leftMost : Nat} {fps : List UInt64}
    {next : Entry} (h : nextEntry storage accepts left leftMost fps = some next) :
    next.key ≠ [] := by
  unfold nextEntry at h
  dsimp only at h
  generalize hfound : ((fps.filterMap storage.lookup).filter fun e => !e.key.isEmpty && accepts e) =
    found at h
  suffices hmem : next ∈ found by
    rw [← hfound, List.mem_filter, Bool.and_eq_true] at hmem
    simpa using hmem.2.1
  have hsameTime : ∀ time, (found.filter fun e => e.lastAccessTime = time).getLast? = some next →
      next ∈ found := fun time hlast => (List.mem_filter.mp (List.mem_of_getLast? hlast)).1
  rcases Option.or_eq_some_iff.mp h with hleftMost | ⟨-, h⟩
  · exact hsameTime _ hleftMost
  · rcases Option.or_eq_some_iff.mp h with hleft | ⟨-, hlatest⟩
    · exact hsameTime _ hleft
    · exact (mem_of_latest found none next hlatest).resolve_right (by simp)

theorem startsWith_getChain {requestKey : Bytes} {preferExactMatch : Bool}
    {lastEntry : Option Entry} {left leftMost : Nat} :
    entry.key <+:
      (getChain storage requestKey preferExactMatch entry lastEntry left leftMost).2.key := by
  exact Chain.startsWith_extend (requestKey.length + 1)
    { key := entry.key
      value := entry.value
      builder := appendInnerBoundary {} entry
      currentEntry := entry
      lastEntry
      leftLastAccessTime := left
      leftMostLastAccessTime := leftMost
      seen := [(entry.key, entry.value)] }

theorem getPartialMatch_spec (modules : HistoryModules) (request : ConversionRequest)
    (requestKey : Bytes) (entry : Entry) (queue : EntryPriorityQueue) :
    SameElements queue (getPartialMatch modules request requestKey entry queue).1 ∧
      ∀ m, (getPartialMatch modules request requestKey entry queue).2 = some m →
        entry.key <+: m.key := by
  unfold getPartialMatch
  dsimp only
  split
  · exact ⟨.refl _, by simp⟩
  · split
    · exact ⟨⟨rfl, rfl⟩, by simp⟩
    · split
      · exact ⟨⟨rfl, rfl⟩, by simp⟩
      · split
        · exact ⟨⟨rfl, rfl⟩, by simp⟩
        · split
          · split
            · refine ⟨⟨rfl, rfl⟩, ?_⟩
              rintro m hm
              simp [← Option.some.inj hm]
            · exact ⟨⟨rfl, rfl⟩, by simp⟩
          · exact ⟨⟨rfl, rfl⟩, by simp⟩

/-- Every case of the `switch` makes its result from the entry, and pushes nothing. -/
theorem lookUpMatch_spec (modules : HistoryModules) (request : ConversionRequest)
    (requestKey : Bytes) (prevEntry : Option Entry) (exactMatchOnly : Bool) (mtype : MatchType)
    (queue : EntryPriorityQueue) (hentry : storage.lookup fp = some entry) :
    SameElements queue (lookUpMatch storage modules request requestKey entry prevEntry
      exactMatchOnly mtype queue).queue ∧
    ∀ result, (lookUpMatch storage modules request requestKey entry prevEntry exactMatchOnly mtype
      queue).result = some result → Made storage entry result := by
  have hcopy := Made.copy hentry
  unfold lookUpMatch
  dsimp only
  generalize (if isContentWord entry.value = true then entry.lastAccessTime else 0) = leftMost
  cases mtype with
  | noMatch => exact ⟨.refl _, by simp⟩
  | leftEmptyMatch =>
    dsimp only
    split
    · exact ⟨⟨rfl, rfl⟩, fun _ h => Option.some.inj h ▸ hcopy⟩
    · exact ⟨.refl _, by simp⟩
  | leftPrefixMatch => exact ⟨⟨rfl, rfl⟩, fun _ h => Option.some.inj h ▸ hcopy⟩
  | rightPrefixMatch =>
    dsimp only
    split
    · exact ⟨by cases exactMatchOnly <;> exact ⟨rfl, rfl⟩,
        fun _ h => Option.some.inj h ▸ .withNewKeyValue startsWith_getChain⟩
    · have hmatch := getPartialMatch_spec modules request requestKey entry queue
      split
      · next queue' hm =>
        rw [hm] at hmatch
        refine ⟨⟨hmatch.1.agenda, hmatch.1.seen⟩, ?_⟩
        cases exactMatchOnly <;> simp [Looked.withChain]
      · next queue' m hm =>
        rw [hm] at hmatch
        exact ⟨⟨hmatch.1.agenda, hmatch.1.seen⟩,
          fun _ h => Option.some.inj h ▸ (Made.withNewKeyValue (hmatch.2 m rfl)).setAttribute _⟩
  | exactMatch =>
    dsimp only
    split
    · exact ⟨⟨rfl, rfl⟩, fun _ h => Option.some.inj h ▸ hcopy⟩
    · split
      · exact ⟨⟨rfl, rfl⟩, fun _ h => Option.some.inj h ▸ .withNewKeyValue startsWith_getChain⟩
      · exact ⟨⟨rfl, rfl⟩, by simp [Looked.withChain]⟩

/-- The second result is longer than the entry. -/
theorem joinedResult_spec (h : Made storage entry result) {requestKey : Bytes} {looked : Looked}
    {result2 : Entry} (hjoined : joinedResult storage requestKey looked result = some result2) :
    entry.key.length < result2.key.length ∧
      (result2.removed = false → ¬StoredRemoved storage result2.key result2.value) := by
  unfold joinedResult at hjoined
  obtain ⟨lastEntry, -, hjoined⟩ := Option.bind_eq_some_iff.mp hjoined
  split at hjoined
  · obtain ⟨next, hnext, hjoined⟩ := Option.bind_eq_some_iff.mp hjoined
    dsimp only at hjoined
    split at hjoined
    · rw [← Option.some.inj hjoined]
      refine ⟨?_, (Made.withNewKeyValue (List.prefix_append result.key next.key)).notRemoved⟩
      have hlength := h.starts.length_le
      have hpos := List.length_pos_iff.mpr (key_ne_nil_of_nextEntry hnext)
      show entry.key.length < (result.key ++ next.key).length
      simp
      omega
    · cases hjoined
  · cases hjoined

/-! ## LookupEntry -/

theorem allSafe_pushResult (hentry : storage.lookup fp = some entry)
    (h : Made storage entry result) :
    AllSafe storage (if !result.removed && 0 < result.suggestionFreq then
      queue.push modules result entry else queue) ↔ AllSafe storage queue := by
  split
  · next hpush =>
    rw [Bool.and_eq_true, Bool.not_eq_true', decide_eq_true_eq] at hpush
    exact allSafe_push.trans
      (and_iff_left fun _ => h.safe hentry hpush.1 hpush.2 queue.allocated)
  · exact Iff.rfl

section

variable {requestKey keyBase : Bytes} {keyExpanded : Option KeyExpanded}
  {prevEntry : Option Entry} {exactMatchOnly : Bool}

theorem allSafe_pushJoined (hentry : storage.lookup fp = some entry)
    (h : Made storage entry result) (looked : Looked) :
    AllSafe storage (if request.mixedConversion || exactMatchOnly then (queue, true)
      else
        match joinedResult storage requestKey looked result with
        | none => (queue, true)
        | some result2 =>
          (if !result2.removed then queue.newEntry.push modules result2 entry
            else queue.newEntry, true)).1 ↔ AllSafe storage queue := by
  split
  · exact Iff.rfl
  split
  · exact Iff.rfl
  · next result2 hjoined =>
    obtain ⟨hlength, hnot⟩ := joinedResult_spec h hjoined
    dsimp only
    split
    · next hremoved =>
      rw [allSafe_push, allSafe_newEntry]
      refine and_iff_left fun _ => ⟨⟨fp, hentry⟩, hnot (by simpa using hremoved), ?_⟩
      intro hkey
      have hsmaller : result2.key.length = entry.key.length := congrArg List.length hkey
      omega
    · exact allSafe_newEntry

/-- **What `LookupEntry` pushes is safe.** -/
theorem allSafe_lookupEntry (hentry : storage.lookup fp = some entry) :
    AllSafe storage (lookupEntry storage modules request requestKey keyBase keyExpanded entry
      prevEntry exactMatchOnly queue).1 ↔ AllSafe storage queue := by
  unfold lookupEntry
  dsimp only
  split
  · exact Iff.rfl
  split
  · exact Iff.rfl
  split
  · exact Iff.rfl
  obtain ⟨hsame, hmade⟩ := lookUpMatch_spec modules request requestKey prevEntry exactMatchOnly
    (getMatchTypeFromInput requestKey keyBase keyExpanded entry.key) queue hentry
  split
  · exact hsame.allSafe
  · next result hresult =>
    have hboosted := (hmade result hresult).boosted request prevEntry
      (getMatchTypeFromInput requestKey keyBase keyExpanded entry.key)
    exact (allSafe_pushJoined hentry hboosted _).trans
      ((allSafe_pushResult hentry hboosted).trans hsame.allSafe)

/-- An entry that did not match pushes nothing. -/
theorem sameElements_lookupEntry (hentry : storage.lookup fp = some entry)
    (hfalse : (lookupEntry storage modules request requestKey keyBase keyExpanded entry
      prevEntry exactMatchOnly queue).2 = false) :
    SameElements queue (lookupEntry storage modules request requestKey keyBase keyExpanded entry
      prevEntry exactMatchOnly queue).1 := by
  unfold lookupEntry at hfalse ⊢
  dsimp only at hfalse ⊢
  split
  · exact .refl _
  split
  · exact .refl _
  split
  · exact .refl _
  split
  · exact (lookUpMatch_spec modules request requestKey prevEntry exactMatchOnly
      (getMatchTypeFromInput requestKey keyBase keyExpanded entry.key) queue hentry).1
  · next hnoMatch hexact hlow _ result hresult =>
    rw [if_neg hnoMatch, if_neg hexact, if_neg hlow, hresult] at hfalse
    dsimp only at hfalse
    split at hfalse
    · cases hfalse
    · split at hfalse <;> cases hfalse

theorem allSafe_lookupCorrected (hentry : storage.lookup fp = some entry) :
    ∀ (corrected : List TypeCorrectedQuery) (queue : EntryPriorityQueue),
      AllSafe storage (lookupCorrected storage modules request entry prevEntry corrected queue) ↔
        AllSafe storage queue
  | [], _ => Iff.rfl
  | c :: corrected, queue => by
    unfold lookupCorrected
    dsimp only
    split
    · split
      · exact allSafe_lookupEntry hentry
      · exact (allSafe_lookupCorrected hentry corrected _).trans (allSafe_lookupEntry hentry)
    · exact allSafe_lookupCorrected hentry corrected queue

end

end Mozkey.Prediction
