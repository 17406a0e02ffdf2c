import Mozkey.Prediction.HistoryRevert

/-!
# What a commit records

Everything that a commit writes and records, entry by entry. The storage has room for all entries.

* `AcceptedWrite.exists_last_record` — the last record of an entry that was inserted
* `insertHistory_spec` — the insertions and the link from the history
* `lookup_unselected`, `recordedAt_unselected` — the results that were not selected
* `lookup_undone` — an entry ends as the last record of it
-/

namespace Mozkey.Prediction

open Infra Base Converter

variable {city : City} {fp fp' : UInt64}

/-- The same, but for `shown_freq`. -/
def Same (e e' : Entry) : Prop := { e with shownFreq := 0 } = { e' with shownFreq := 0 }

theorem Same.refl (e : Entry) : Same e e := rfl

theorem Same.symm {e e' : Entry} (h : Same e e') : Same e' e := Eq.symm h

theorem Same.trans {e e' e'' : Entry} (h : Same e e') (h' : Same e' e'') : Same e e'' :=
  Eq.trans h h'

theorem Same.suggestionFreq_eq {e e' : Entry} (h : Same e e') :
    e.suggestionFreq = e'.suggestionFreq := by
  have heq : ({ e with shownFreq := 0 } : Entry) = { e' with shownFreq := 0 } := h
  have hfreq := congrArg Entry.suggestionFreq heq
  exact hfreq

theorem Same.removed_eq {e e' : Entry} (h : Same e e') : e.removed = e'.removed := by
  have heq : ({ e with shownFreq := 0 } : Entry) = { e' with shownFreq := 0 } := h
  have hremoved := congrArg Entry.removed heq
  exact hremoved

/-! ## Room -/

namespace UserHistoryStorage

variable {storage : UserHistoryStorage city} {fps : List UInt64} {e : KeptEntry}

/-- All entries are from a list that there is room for. -/
def Within (storage : UserHistoryStorage city) (fps : List UInt64) : Prop :=
  storage.items.Within fps

theorem Within.lookup_put (h : storage.Within fps) (he : e.fp city ∈ fps) :
    (storage.put e).lookup fp = if fp = e.fp city then some e.1 else storage.lookup fp :=
  RecencyMap.get?_insert (RecencyMap.Within.roomFor h he)

theorem Within.put (h : storage.Within fps) (he : e.fp city ∈ fps) :
    (storage.put e).Within fps :=
  RecencyMap.Within.insert h he

theorem Within.modify (f : Entry → Entry)
    (hf : ∀ entry, (f entry).key = entry.key ∧ (f entry).value = entry.value)
    (h : storage.Within fps) : (storage.modify fp f hf).Within fps := by
  refine ⟨h.fits, fun fp' hfp' => h.mem fp' fun hnone => hfp' ?_⟩
  show ((storage.modify fp f hf).lookup fp') = none
  rw [lookup_modify, show storage.lookup fp' = none from hnone]
  simp

theorem map_lookupKept : (storage.lookupKept fp).map Subtype.val = storage.lookup fp := by
  cases h : storage.lookupKept fp with
  | none => exact (lookupKept_eq_none.mp h).symm
  | some e => exact (lookupKept_eq_some.mp h).symm

theorem fp_of_lookupKept (h : storage.lookupKept fp = some e) : e.fp city = fp :=
  fingerprint_of_lookup (lookupKept_eq_some.mp h)

end UserHistoryStorage

open UserHistoryStorage

/-! ## The records of one entry -/

/-- The states of an entry that were recorded. -/
def recordedAt (city : City) (fp : UInt64) (records : List RevertRecord) : List Entry :=
  (records.filter fun r => r.revertEntry.fp city = fp).map (·.revertEntry.1)

@[simp] theorem recordedAt_nil : recordedAt city fp [] = [] := rfl

theorem recordedAt_append (l l' : List RevertRecord) :
    recordedAt city fp (l ++ l') = recordedAt city fp l ++ recordedAt city fp l' := by
  simp [recordedAt]

theorem recordedAt_singleton (r : RevertRecord) :
    recordedAt city fp [r] = if r.revertEntry.fp city = fp then [r.revertEntry.1] else [] := by
  unfold recordedAt
  by_cases h : r.revertEntry.fp city = fp <;> simp [h]

variable {records : List RevertRecord}

theorem recordedAt_ne_nil {r : RevertRecord} (h : r ∈ records) :
    recordedAt city (r.revertEntry.fp city) records ≠ [] := by
  intro hnil
  have hmem : r.revertEntry.1 ∈ recordedAt city (r.revertEntry.fp city) records :=
    List.mem_map_of_mem (List.mem_filter.mpr ⟨h, by simp⟩)
  simp [hnil] at hmem

/-! ## Insertions -/

namespace AcceptedWrite

variable (w : AcceptedWrite)

/-- How often the entry is written. -/
def count (city : City) (fp : UInt64) (ws : List AcceptedWrite) : Nat :=
  ws.countP fun w => w.fp city = fp

/-- What becomes of an entry that is written by `ws`. -/
def writtenAt (city : City) (fp : UInt64) (ws : List AcceptedWrite) (old : Option Entry) :
    Option Entry :=
  ws.foldl (fun old w => if w.fp city = fp then some (w.written old).1 else old) old

@[simp] theorem fp_written (old : Option Entry) : (w.written old).fp city = w.fp city := rfl

theorem fp_unwritten {storage : UserHistoryStorage city} :
    (w.unwritten (storage.lookupKept (w.fp city))).fp city = w.fp city := by
  unfold unwritten
  cases h : storage.lookupKept (w.fp city) with
  | none => rfl
  | some e => exact fp_of_lookupKept h

/-- What `Insert` records of an entry. -/
def recorded (old : Option Entry) : Entry :=
  old.getD { key := w.key, value := w.value, removed := true }

theorem val_unwritten {storage : UserHistoryStorage city} :
    (w.unwritten (storage.lookupKept (w.fp city))).1 = w.recorded (storage.lookup (w.fp city)) := by
  unfold unwritten recorded
  rw [← map_lookupKept]
  cases storage.lookupKept (w.fp city) <;> rfl

/-! ### One call -/

variable {state : Learning city} {fps : List UInt64}

theorem lookup_apply (h : state.storage.Within fps) (hw : w.fp city ∈ fps) :
    (w.apply state).storage.lookup fp =
      if w.fp city = fp then some (w.written (state.storage.lookup fp)).1
      else state.storage.lookup fp := by
  show (state.storage.put _).lookup fp = _
  rw [h.lookup_put (by rwa [fp_written]), fp_written]
  by_cases hfp : fp = w.fp city
  · subst hfp
    simp
  · rw [if_neg hfp, if_neg (Ne.symm hfp)]

theorem recordedAt_apply :
    recordedAt city fp (w.apply state).revertEntries.entries =
      recordedAt city fp state.revertEntries.entries ++
        if w.fp city = fp then [w.recorded (state.storage.lookup fp)] else [] := by
  show recordedAt city fp (state.revertEntries.entries ++ [_]) = _
  rw [recordedAt_append, recordedAt_singleton, fp_unwritten, val_unwritten]
  by_cases hfp : w.fp city = fp
  · subst hfp
    simp
  · simp [hfp]

theorem within_apply (h : state.storage.Within fps) (hw : w.fp city ∈ fps) :
    (w.apply state).storage.Within fps :=
  Within.put h (by rwa [fp_written])

/-! ### All calls -/

theorem foldl_insert (ws : List HistoryWrite) (state : Learning city) :
    ws.foldl insert state =
      (ws.filterMap HistoryWrite.accept).foldl (fun s w => w.apply s) state := by
  induction ws generalizing state with
  | nil => rfl
  | cons w ws ih =>
    rw [List.foldl_cons, ih, List.filterMap_cons]
    unfold insert
    cases w.accept <;> rfl

/-- The state behind all insertions. -/
def applyAll (ws : List AcceptedWrite) (state : Learning city) : Learning city :=
  ws.foldl (fun s w => w.apply s) state

variable {ws : List AcceptedWrite}

theorem applyAll_append (ws' : List AcceptedWrite) :
    applyAll (ws ++ ws') state = applyAll ws' (applyAll ws state) := List.foldl_append

@[simp] theorem historyEntry_applyAll :
    (applyAll ws state).revertEntries.historyEntry = state.revertEntries.historyEntry := by
  induction ws generalizing state with
  | nil => rfl
  | cons w ws ih => exact ih

@[simp] theorem reversible_applyAll :
    (applyAll ws state).revertEntries.reversibleExternalLearning =
      state.revertEntries.reversibleExternalLearning := by
  induction ws generalizing state with
  | nil => rfl
  | cons w ws ih => exact ih

theorem within_applyAll (h : state.storage.Within fps) (hws : ∀ w ∈ ws, w.fp city ∈ fps) :
    (applyAll ws state).storage.Within fps := by
  induction ws generalizing state with
  | nil => exact h
  | cons w ws ih =>
    refine ih ?_ (List.forall_mem_cons.mp hws).2
    exact w.within_apply h (hws w List.mem_cons_self)

theorem lookup_applyAll (h : state.storage.Within fps) (hws : ∀ w ∈ ws, w.fp city ∈ fps) :
    (applyAll ws state).storage.lookup fp = writtenAt city fp ws (state.storage.lookup fp) := by
  induction ws generalizing state with
  | nil => rfl
  | cons w ws ih =>
    have hw := hws w List.mem_cons_self
    show (applyAll ws (w.apply state)).storage.lookup fp = _
    rw [ih (w.within_apply h hw) (List.forall_mem_cons.mp hws).2,
      w.lookup_apply h hw]
    rfl

/-- What is recorded of an entry while `ws` is written. -/
def recordsOf (city : City) (fp : UInt64) : List AcceptedWrite → Option Entry → List Entry
  | [], _ => []
  | w :: ws, old =>
    if w.fp city = fp then w.recorded old :: recordsOf city fp ws (some (w.written old).1)
    else recordsOf city fp ws old

theorem recordedAt_applyAll (h : state.storage.Within fps) (hws : ∀ w ∈ ws, w.fp city ∈ fps) :
    recordedAt city fp (applyAll ws state).revertEntries.entries =
      recordedAt city fp state.revertEntries.entries ++
        recordsOf city fp ws (state.storage.lookup fp) := by
  induction ws generalizing state with
  | nil => simp [recordsOf, applyAll]
  | cons w ws ih =>
    have hw := hws w List.mem_cons_self
    show recordedAt city fp (applyAll ws (w.apply state)).revertEntries.entries = _
    rw [ih (w.within_apply h hw) (List.forall_mem_cons.mp hws).2,
      w.lookup_apply h hw,
      w.recordedAt_apply, recordsOf]
    by_cases hfp : w.fp city = fp <;> simp [hfp]

theorem length_recordsOf (old : Option Entry) :
    (recordsOf city fp ws old).length = count city fp ws := by
  induction ws generalizing old with
  | nil => rfl
  | cons w ws ih =>
    unfold count at ih ⊢
    rw [recordsOf]
    by_cases hw : w.fp city = fp
    · rw [if_pos hw, List.countP_cons_of_pos (by simpa using hw), List.length_cons, ih]
    · rw [if_neg hw, List.countP_cons_of_neg (by simpa using hw), ih]

/-! ### The last record -/

theorem not_written (h : count city fp ws = 0) (old : Option Entry) :
    writtenAt city fp ws old = old ∧ recordsOf city fp ws old = [] := by
  induction ws with
  | nil => exact ⟨rfl, rfl⟩
  | cons w ws ih =>
    unfold count at h ih
    rw [List.countP_cons] at h
    have hw : w.fp city ≠ fp := by
      intro hfp
      simp [hfp] at h
    obtain ⟨hwritten, hrecords⟩ := ih (by omega)
    refine ⟨?_, ?_⟩
    · show writtenAt city fp ws (if w.fp city = fp then _ else old) = old
      rw [if_neg hw, hwritten]
    · rw [recordsOf, if_neg hw, hrecords]

theorem writtenAt_append (ws' : List AcceptedWrite) (old : Option Entry) :
    writtenAt city fp (ws ++ ws') old = writtenAt city fp ws' (writtenAt city fp ws old) :=
  List.foldl_append

theorem writtenAt_ne_none {old : Option Entry} (h : old ≠ none) :
    writtenAt city fp ws old ≠ none := by
  induction ws generalizing old with
  | nil => exact h
  | cons w ws ih =>
    refine ih ?_
    dsimp only
    split
    · simp
    · exact h

/-- Written once, an entry is what that call makes of it. -/
theorem writtenAt_of_once {w : AcceptedWrite} (hcount : count city fp ws = 1) (hw : w ∈ ws)
    (hfp : w.fp city = fp) (old : Option Entry) :
    writtenAt city fp ws old = some (w.written old).1 := by
  induction ws with
  | nil => cases hw
  | cons w' ws ih =>
    show writtenAt city fp ws (if w'.fp city = fp then _ else old) = _
    by_cases hfp' : w'.fp city = fp
    · have hws : count city fp ws = 0 := by
        unfold count at hcount ⊢
        rw [List.countP_cons_of_pos (by simpa using hfp')] at hcount
        exact Nat.succ.inj hcount
      rcases List.mem_cons.mp hw with rfl | hw
      · rw [if_pos hfp', (not_written hws _).1]
      · have hnot := List.countP_eq_zero.mp hws w hw
        simp [hfp] at hnot
    · rw [if_neg hfp']
      rcases List.mem_cons.mp hw with rfl | hw
      · exact absurd hfp hfp'
      · refine ih ?_ hw
        unfold count at hcount ⊢
        rwa [List.countP_cons_of_neg (by simpa using hfp')] at hcount

theorem mem_applyAll {r : RevertRecord} (h : r ∈ (applyAll ws state).revertEntries.entries) :
    r ∈ state.revertEntries.entries ∨
      ∃ w ∈ ws, r.valueBegin = w.valueBegin ∧ r.revertEntry.fp city = w.fp city := by
  induction ws generalizing state with
  | nil => exact .inl h
  | cons w ws ih =>
    have hrest : r ∈ (applyAll ws (w.apply state)).revertEntries.entries := h
    rcases ih hrest with h | ⟨w', hw', hr⟩
    · rcases List.mem_append.mp h with h | h
      · exact .inl h
      · obtain rfl := List.mem_singleton.mp h
        exact .inr ⟨w, List.mem_cons_self, rfl, w.fp_unwritten⟩
    · exact .inr ⟨w', List.mem_cons_of_mem _ hw', hr⟩

/-- It is live, and was committed more often than before. -/
def Learnt (old : Option Entry) (e : Entry) : Prop :=
  e.removed = false ∧ (old.getD {}).suggestionFreq < e.suggestionFreq

theorem exists_writtenAt (old : Option Entry) (h : count city fp ws ≠ 0) :
    ∃ e, writtenAt city fp ws old = some e ∧ Learnt old e := by
  induction ws generalizing old with
  | nil => exact absurd rfl h
  | cons w ws ih =>
    by_cases hw : w.fp city = fp
    · show ∃ e, writtenAt city fp ws (if w.fp city = fp then _ else old) = some e ∧ _
      rw [if_pos hw]
      by_cases hws : count city fp ws = 0
      · rw [(not_written hws _).1]
        exact ⟨_, rfl, rfl, Nat.lt_succ_self _⟩
      · obtain ⟨e, he, hremoved, hfreq⟩ := ih (some (w.written old).1) hws
        refine ⟨e, he, hremoved, Nat.lt_trans ?_ hfreq⟩
        exact Nat.lt_succ_self _
    · have hws : count city fp ws ≠ 0 := by
        unfold count at h ⊢
        rwa [List.countP_cons_of_neg (by simpa using hw)] at h
      show ∃ e, writtenAt city fp ws (if w.fp city = fp then _ else old) = some e ∧ _
      simpa [hw] using ih old hws

/-- **The last record of an entry.** It is the state before the commit only if the entry was
written once. -/
theorem exists_last_record (old : Option Entry) (h : count city fp ws ≠ 0) :
    ∃ e, (recordsOf city fp ws old).getLast? = some e ∧
      ((count city fp ws = 1 ∧ ∃ w : AcceptedWrite, e = w.recorded old) ∨
        (count city fp ws ≠ 1 ∧ Learnt old e)) := by
  induction ws generalizing old with
  | nil => exact absurd rfl h
  | cons w ws ih =>
    by_cases hw : w.fp city = fp
    · have hcount : count city fp (w :: ws) = count city fp ws + 1 :=
        List.countP_cons_of_pos (by simpa using hw)
      rw [recordsOf, if_pos hw, hcount]
      by_cases hws : count city fp ws = 0
      · rw [(not_written hws _).2, hws]
        exact ⟨_, rfl, .inl ⟨rfl, w, rfl⟩⟩
      · obtain ⟨e, hlast, hcase⟩ := ih (some (w.written old).1) hws
        refine ⟨e, ?_, .inr ⟨by omega, ?_⟩⟩
        · simp [List.getLast?_cons, hlast]
        · rcases hcase with ⟨-, w', rfl⟩ | ⟨-, hremoved, hfreq⟩
          · exact ⟨rfl, Nat.lt_succ_self _⟩
          · exact ⟨hremoved, Nat.lt_trans (Nat.lt_succ_self _) hfreq⟩
    · have hcount : count city fp (w :: ws) = count city fp ws :=
        List.countP_cons_of_neg (by simpa using hw)
      rw [hcount] at h ⊢
      simpa [recordsOf, hw] using ih old h

end AcceptedWrite

/-! ## Results that were not selected -/

section

variable (low : Nat → Nat → Bool)

/-- What a look at the ratio makes of an entry. -/
def unselect (e : Entry) : Entry :=
  if low e.suggestionFreq (e.shownFreq + 1) then markRemoved e else incrementShown e

def unselectTimes : Nat → Entry → Entry
  | 0, e => e
  | n + 1, e => unselectTimes n (unselect low e)

/-- The states in which the entry is removed, when it is shown `n` times. -/
def takenBack : Nat → Entry → List Entry
  | 0, _ => []
  | n + 1, e =>
    if low e.suggestionFreq (e.shownFreq + 1) then e :: takenBack n (markRemoved e)
    else takenBack n (incrementShown e)

/-- How often an entry is removed, when it is shown `n` times. -/
def removals : Nat → Nat → Nat → Nat
  | _, _, 0 => 0
  | suggestionFreq, shownFreq, n + 1 =>
    if low suggestionFreq (shownFreq + 1) then n + 1
    else removals suggestionFreq (shownFreq + 1) n

variable {low} (hlow : ∀ shownFreq, low 0 shownFreq = true)

include hlow

theorem takenBack_removed (n : Nat) (e : Entry) :
    takenBack low n (markRemoved e) = List.replicate n (markRemoved e) := by
  induction n with
  | zero => rfl
  | succ n ih =>
    have hremoved : low (markRemoved e).suggestionFreq ((markRemoved e).shownFreq + 1) = true :=
      hlow _
    rw [takenBack, if_pos hremoved, List.replicate_succ]
    exact congrArg _ ih

/-- Behind the first removal, every further one records the removed entry. -/
theorem takenBack_spec (n : Nat) (e : Entry) :
    (takenBack low n e = [] ∧ Same (unselectTimes low n e) e) ∨
      ∃ e' k, Same e' e ∧ takenBack low n e = e' :: List.replicate k (markRemoved e) := by
  induction n generalizing e with
  | zero => exact .inl ⟨rfl, Same.refl e⟩
  | succ n ih =>
    by_cases h : low e.suggestionFreq (e.shownFreq + 1) = true
    · refine .inr ⟨e, n, Same.refl e, ?_⟩
      rw [takenBack, if_pos h, takenBack_removed hlow]
    · have hunselect : unselect low e = incrementShown e := if_neg h
      rw [takenBack, if_neg h, unselectTimes, hunselect]
      exact ih (incrementShown e)

theorem length_takenBack (n : Nat) (e : Entry) :
    (takenBack low n e).length = removals low e.suggestionFreq e.shownFreq n := by
  induction n generalizing e with
  | zero => rfl
  | succ n ih =>
    rw [takenBack, removals]
    split
    · simp [takenBack_removed hlow]
    · exact ih (incrementShown e)

omit hlow in
theorem takenBack_succ (n : Nat) (e : Entry) :
    takenBack low (n + 1) e = takenBack low 1 e ++ takenBack low n (unselect low e) := by
  have hone : takenBack low 1 e = if low e.suggestionFreq (e.shownFreq + 1) then [e] else [] := rfl
  rw [takenBack, hone, unselect]
  split <;> rfl

end

theorem selectedRatioIsLow_zero (shownFreq : Nat) : selectedRatioIsLow 0 shownFreq = true := by
  simp [selectedRatioIsLow]

/-- How often a result of the entry is among the first ones. -/
def shownTimes (city : City) (fp : UInt64) (results : List Result) : Nat :=
  (results.take kMaxHistorySize).countP fun r => fingerprint city r.key r.value = fp

section

variable {state : Learning city} (result : Result)

theorem lookup_maybeRemoveUnselected : (maybeRemoveUnselected state result).storage.lookup fp =
    if fingerprint city result.key result.value = fp then
      (state.storage.lookup fp).map (unselect selectedRatioIsLow)
    else state.storage.lookup fp := by
  unfold maybeRemoveUnselected
  dsimp only
  split
  · next h =>
    have hnone := lookupKept_eq_none.mp h
    split
    · next hfp => rw [← hfp, hnone]; rfl
    · rfl
  · next e h =>
    have hsome := lookupKept_eq_some.mp h
    unfold unselect
    split
    · next hlow =>
      rw [markRemovedAt, lookup_modify]
      split
      · next hfp => rw [if_pos hfp.symm, hfp, hsome]; simp [hlow]
      · next hfp => rw [if_neg (Ne.symm hfp)]
    · next hlow =>
      rw [lookup_modify]
      split
      · next hfp => rw [if_pos hfp.symm, hfp, hsome]; simp [hlow]
      · next hfp => rw [if_neg (Ne.symm hfp)]

theorem recordedAt_maybeRemoveUnselected :
    recordedAt city fp (maybeRemoveUnselected state result).revertEntries.entries =
      recordedAt city fp state.revertEntries.entries ++
        if fingerprint city result.key result.value = fp then
          ((state.storage.lookup fp).map (takenBack selectedRatioIsLow 1)).getD []
        else [] := by
  unfold maybeRemoveUnselected
  dsimp only
  split
  · next h =>
    have hnone := lookupKept_eq_none.mp h
    split
    · next hfp => rw [← hfp, hnone]; simp
    · simp
  · next e h =>
    have hsome := lookupKept_eq_some.mp h
    have hfp' : e.fp city = fingerprint city result.key result.value := fp_of_lookupKept h
    split
    · next hlow =>
      show recordedAt city fp (state.revertEntries.entries ++ [⟨0, 0, e⟩]) = _
      rw [recordedAt_append, recordedAt_singleton, hfp']
      split
      · next hfp => rw [← hfp, hsome]; simp [takenBack, hlow]
      · rfl
    · next hlow =>
      split
      · next hfp => rw [← hfp, hsome]; simp [takenBack, hlow]
      · simp

end

/-- What the loop does to an entry follows from what a round does. -/
theorem foldl_of_round {low : Nat → Nat → Bool} {round : Learning city → Result → Learning city}
    (hlookup : ∀ state result, (round state result).storage.lookup fp =
      if fingerprint city result.key result.value = fp then
        (state.storage.lookup fp).map (unselect low)
      else state.storage.lookup fp)
    (hrecorded : ∀ state result, recordedAt city fp (round state result).revertEntries.entries =
      recordedAt city fp state.revertEntries.entries ++
        if fingerprint city result.key result.value = fp then
          ((state.storage.lookup fp).map (takenBack low 1)).getD []
        else [])
    (results : List Result) (state : Learning city) :
    ((results.foldl round state).storage.lookup fp = (state.storage.lookup fp).map
      (unselectTimes low (results.countP fun r => fingerprint city r.key r.value = fp))) ∧
    recordedAt city fp (results.foldl round state).revertEntries.entries =
      recordedAt city fp state.revertEntries.entries ++ ((state.storage.lookup fp).map
        (takenBack low (results.countP fun r => fingerprint city r.key r.value = fp))).getD [] := by
  induction results generalizing state with
  | nil =>
    cases h : state.storage.lookup fp <;> simp [h, unselectTimes, takenBack]
  | cons r results ih =>
    obtain ⟨hl, hr⟩ := ih (round state r)
    rw [List.foldl_cons, hl, hr, hlookup, hrecorded]
    by_cases hfp : fingerprint city r.key r.value = fp
    · rw [List.countP_cons_of_pos (by simpa using hfp), if_pos hfp, if_pos hfp]
      cases state.storage.lookup fp with
      | none => simp
      | some e =>
        refine ⟨rfl, ?_⟩
        simp only [Option.map_some, Option.getD_some]
        simp [← takenBack_succ]
    · rw [List.countP_cons_of_neg (by simpa using hfp), if_neg hfp, if_neg hfp, List.append_nil]
      exact ⟨rfl, rfl⟩

section

variable (results : List Result) (state : Learning city)

theorem lookup_unselected : (maybeRemoveUnselectedHistory results state).storage.lookup fp =
    (state.storage.lookup fp).map
      (unselectTimes selectedRatioIsLow (shownTimes city fp results)) :=
  (foldl_of_round (fun _ => lookup_maybeRemoveUnselected)
    (fun _ => recordedAt_maybeRemoveUnselected) _ state).1

theorem recordedAt_unselected :
    recordedAt city fp (maybeRemoveUnselectedHistory results state).revertEntries.entries =
      recordedAt city fp state.revertEntries.entries ++ ((state.storage.lookup fp).map
        (takenBack selectedRatioIsLow (shownTimes city fp results))).getD [] :=
  (foldl_of_round (fun _ => lookup_maybeRemoveUnselected)
    (fun _ => recordedAt_maybeRemoveUnselected) _ state).2

end

theorem unselectTimes_key_value (low : Nat → Nat → Bool) (n : Nat) (e : Entry) :
    (unselectTimes low n e).key = e.key ∧ (unselectTimes low n e).value = e.value := by
  induction n generalizing e with
  | zero => exact ⟨rfl, rfl⟩
  | succ n ih =>
    obtain ⟨hkey, hvalue⟩ := ih (unselect low e)
    rw [unselectTimes, hkey, hvalue, unselect]
    split <;> exact ⟨rfl, rfl⟩

/-- The records of the loop have no offset. -/
theorem exists_unselected_records (results : List Result) (state : Learning city) :
    ∃ records, (maybeRemoveUnselectedHistory results state).revertEntries.entries =
      state.revertEntries.entries ++ records ∧ ∀ r ∈ records, r.valueBegin = 0 := by
  unfold maybeRemoveUnselectedHistory
  induction results.take kMaxHistorySize generalizing state with
  | nil => exact ⟨[], by simp, by simp⟩
  | cons result rest ih =>
    obtain ⟨records, heq, hzero⟩ := ih (maybeRemoveUnselected state result)
    rw [List.foldl_cons, heq]
    unfold maybeRemoveUnselected
    dsimp only
    split
    · exact ⟨records, rfl, hzero⟩
    · next e he =>
      split
      · refine ⟨⟨0, 0, e⟩ :: records, List.append_assoc .., fun r hr => ?_⟩
        rcases List.mem_cons.mp hr with rfl | hr
        · rfl
        · exact hzero r hr
      · exact ⟨records, rfl, hzero⟩

/-! ## The link from the history -/

/-- The link of a commit, and what is inserted for it. -/
structure HistoryLink where
  fp : UInt64
  nextFps : List UInt64
  writes : List AcceptedWrite

def acceptedConversionWrites (city : City) (segments : SegmentsForLearning) (now : Nat) :
    List AcceptedWrite :=
  (conversionWrites city segments now).filterMap HistoryWrite.accept

/-- The last history segment has an entry, if not from before then from this commit. -/
def historyLink (storage : UserHistoryStorage city) (segments : SegmentsForLearning) (now : Nat) :
    Option HistoryLink :=
  match linkedSegments segments with
  | none => none
  | some (history, conversion) =>
    if AcceptedWrite.writtenAt city (history.fp city) (acceptedConversionWrites city segments now)
        (storage.lookup (history.fp city)) = none then none
    else if segments.hasSpacePrefix then
      if conversion.key = conversion.contentKey ∧ conversion.value = conversion.contentValue then
        let w := spaceWrite conversion now
        some ⟨history.fp city, [fingerprint city w.key w.value], w.accept.toList⟩
      else some ⟨history.fp city, [], []⟩
    else some ⟨history.fp city, conversion.fps city, []⟩

theorem historyLink_found {storage : UserHistoryStorage city} {segments : SegmentsForLearning}
    {now : Nat} {link : HistoryLink} (h : historyLink storage segments now = some link) :
    AcceptedWrite.writtenAt city link.fp (acceptedConversionWrites city segments now)
      (storage.lookup link.fp) ≠ none := by
  unfold historyLink at h
  split at h
  · cases h
  · split at h
    · cases h
    · next hfound =>
      split at h
      · split at h
        · cases h
          exact hfound
        · cases h
          exact hfound
      · cases h
        exact hfound

/-- All insertions of a commit. -/
def commitWrites (storage : UserHistoryStorage city) (segments : SegmentsForLearning) (now : Nat) :
    List AcceptedWrite :=
  acceptedConversionWrites city segments now ++
    ((historyLink storage segments now).map (·.writes)).getD []

/-- What the link makes of the entry under `fp`. -/
def linked (link : Option HistoryLink) (fp : UInt64) (e : Entry) : Entry :=
  match link with
  | none => e
  | some link => if fp = link.fp then insertNextEntries link.nextFps e else e

@[simp] theorem suggestionFreq_linked (link : Option HistoryLink) (e : Entry) :
    (linked link fp e).suggestionFreq = e.suggestionFreq := by
  unfold linked
  split
  · rfl
  · split <;> rfl

@[simp] theorem shownFreq_linked (link : Option HistoryLink) (e : Entry) :
    (linked link fp e).shownFreq = e.shownFreq := by
  unfold linked
  split
  · rfl
  · split <;> rfl

theorem linked_key_value (link : Option HistoryLink) (e : Entry) :
    (linked link fp e).key = e.key ∧ (linked link fp e).value = e.value := by
  unfold linked
  split
  · exact ⟨rfl, rfl⟩
  · split <;> exact ⟨rfl, rfl⟩

theorem linked_self (link : HistoryLink) :
    linked (some link) link.fp = insertNextEntries link.nextFps := funext fun _ => if_pos rfl

theorem linked_of_ne {link : Option HistoryLink} (h : ∀ l, link = some l → fp ≠ l.fp) :
    linked link fp = id := by
  funext e
  unfold linked
  split
  · rfl
  · next l => exact if_neg (h l rfl)

/-- What `InsertHistory` did, in view of the insertions alone. -/
structure Inserted (fps : List UInt64) (segments : SegmentsForLearning) (now : Nat)
    (start state : Learning city) : Prop where
  entries : state.revertEntries.entries =
    (AcceptedWrite.applyAll (commitWrites start.storage segments now) start).revertEntries.entries
  historyEntry : state.revertEntries.historyEntry =
    match historyLink start.storage segments now with
    | none => start.revertEntries.historyEntry
    | some link =>
      (AcceptedWrite.applyAll (acceptedConversionWrites city segments now)
        start).storage.lookupKept link.fp
  reversible : state.revertEntries.reversibleExternalLearning =
    start.revertEntries.reversibleExternalLearning
  within : state.storage.Within fps
  lookup : ∀ fp, state.storage.lookup fp =
    ((AcceptedWrite.applyAll (commitWrites start.storage segments now) start).storage.lookup
      fp).map (linked (historyLink start.storage segments now) fp)

section

open AcceptedWrite

variable {segments : SegmentsForLearning} {now : Nat} {fps : List UInt64} {start : Learning city}

/-- Without a link there are only the conversion segments. -/
theorem Inserted.of_none (h : start.storage.Within fps)
    (hws : ∀ w ∈ commitWrites start.storage segments now, w.fp city ∈ fps)
    (hlink : historyLink start.storage segments now = none) :
    Inserted fps segments now start
      (applyAll (acceptedConversionWrites city segments now) start) := by
  have hcommit : commitWrites start.storage segments now =
      acceptedConversionWrites city segments now := by
    rw [commitWrites, hlink]
    exact List.append_nil _
  rw [hcommit] at hws
  exact
    { entries := by rw [hcommit]
      historyEntry := by rw [hlink, historyEntry_applyAll]
      reversible := reversible_applyAll
      within := within_applyAll h hws
      lookup := fun fp => by
        rw [hcommit, hlink, linked_of_ne (by simp)]
        simp }

theorem linkTo_nil (storage : UserHistoryStorage city) : storage.linkTo fp [] = storage := by
  have hentries : ∀ e : UInt64 × Entry,
      (if e.1 = fp then (e.1, insertNextEntries [] e.2) else e) = e := fun e => ite_self e
  obtain ⟨⟨capacity, entries, hpos, hbounded, hnodup⟩, hstored⟩ := storage
  unfold linkTo UserHistoryStorage.modify RecencyMap.adjust
  simp [hentries]

/-- With a link the entry of the history is recorded before it changes. -/
theorem insertHistory_of_some {link : HistoryLink} {s t : Learning city}
    (h : start.storage.Within fps)
    (hws : ∀ w ∈ commitWrites start.storage segments now, w.fp city ∈ fps)
    (hlink : historyLink start.storage segments now = some link)
    (hs : s = applyAll (acceptedConversionWrites city segments now) start)
    (ht : t = applyAll link.writes s) :
    insertHistory segments now start =
      { storage := t.storage.linkTo link.fp link.nextFps
        revertEntries :=
          { t.revertEntries with historyEntry := s.storage.lookupKept link.fp } } := by
  have hwithin : ∀ w ∈ acceptedConversionWrites city segments now, w.fp city ∈ fps :=
    fun w hw => hws w (List.mem_append_left _ hw)
  unfold insertHistory
  rw [foldl_insert, ← applyAll]
  rw [← acceptedConversionWrites, ← hs]
  unfold insertHistoryForHistorySegments
  unfold historyLink at hlink
  cases hl : linkedSegments segments with
  | none =>
    simp [hl] at hlink
  | some linked =>
    obtain ⟨history, conversion⟩ := linked
    rw [hl] at hlink
    dsimp only at hlink ⊢
    rw [← lookup_applyAll h hwithin, ← hs] at hlink
    split at hlink
    · cases hlink
    · next hfound =>
      cases hk : s.storage.lookupKept (history.fp city) with
      | none => exact absurd (lookupKept_eq_none.mp hk) hfound
      | some e =>
        dsimp only
        split at hlink
        · next hspace =>
          rw [if_pos hspace]
          split at hlink
          · next hsame =>
            cases hlink
            rw [if_pos hsame, ← hk]
            subst ht
            unfold insert
            cases (spaceWrite conversion now).accept <;> rfl
          · next hsame =>
            cases hlink
            rw [if_neg hsame, linkTo_nil, ← hk]
            subst ht
            rfl
        · next hspace =>
          cases hlink
          rw [if_neg hspace, ← hk]
          subst ht
          rfl

theorem insertHistory_of_none (h : start.storage.Within fps)
    (hws : ∀ w ∈ commitWrites start.storage segments now, w.fp city ∈ fps)
    (hlink : historyLink start.storage segments now = none) :
    insertHistory segments now start =
      applyAll (acceptedConversionWrites city segments now) start := by
  have hwithin : ∀ w ∈ acceptedConversionWrites city segments now, w.fp city ∈ fps :=
    fun w hw => hws w (List.mem_append_left _ hw)
  unfold insertHistory
  rw [foldl_insert, ← applyAll, ← acceptedConversionWrites]
  unfold insertHistoryForHistorySegments
  unfold historyLink at hlink
  cases hl : linkedSegments segments with
  | none => rfl
  | some linked =>
    obtain ⟨history, conversion⟩ := linked
    rw [hl] at hlink
    dsimp only at hlink ⊢
    rw [← lookup_applyAll h hwithin] at hlink
    split at hlink
    · next hnone => rw [lookupKept_eq_none.mpr hnone]
    · split at hlink
      · split at hlink <;> cases hlink
      · cases hlink

theorem insertHistory_spec (h : start.storage.Within fps)
    (hws : ∀ w ∈ commitWrites start.storage segments now, w.fp city ∈ fps) :
    Inserted fps segments now start (insertHistory segments now start) := by
  cases hlink : historyLink start.storage segments now with
  | none =>
    rw [insertHistory_of_none h hws hlink]
    exact .of_none h hws hlink
  | some link =>
    have hcommit : applyAll (commitWrites start.storage segments now) start =
        applyAll link.writes (applyAll (acceptedConversionWrites city segments now) start) := by
      rw [commitWrites, hlink]
      exact applyAll_append link.writes
    rw [insertHistory_of_some h hws hlink rfl rfl, ← hcommit]
    exact
      { entries := rfl
        historyEntry := by rw [hlink]
        reversible := reversible_applyAll
        within := Within.modify (insertNextEntries link.nextFps) (fun _ => ⟨rfl, rfl⟩)
          (within_applyAll h hws)
        lookup := fun fp => by
          rw [hlink, linkTo, lookup_modify]
          unfold linked
          by_cases hfp : fp = link.fp <;> simp [hfp] }

end

/-! ## Undoing -/

theorem lookup_undo (state : UserHistoryStorage city × List RevertRecord) (r : RevertRecord) :
    (undo state r).1.lookup fp =
      if r.revertEntry.fp city = fp then (state.1.lookup fp).map fun _ => r.revertEntry.1
      else state.1.lookup fp := by
  unfold undo
  split
  · next h =>
    have hnone := lookupKept_eq_none.mp h
    split
    · next hfp => rw [← hfp, hnone]; rfl
    · rfl
  · next e h =>
    rw [lookup_assign]
    by_cases hfp : fp = r.revertEntry.fp city
    · rw [if_pos hfp, if_pos hfp.symm]
    · rw [if_neg hfp, if_neg (Ne.symm hfp)]

/-- **An entry ends as the last record of it.** -/
theorem lookup_undone (records : List RevertRecord)
    (state : UserHistoryStorage city × List RevertRecord) :
    (records.foldl undo state).1.lookup fp =
      (state.1.lookup fp).map fun e => (recordedAt city fp records).getLast?.getD e := by
  induction records generalizing state with
  | nil => simp
  | cons r records ih =>
    have hcons : recordedAt city fp (r :: records) =
        (if r.revertEntry.fp city = fp then [r.revertEntry.1] else []) ++
          recordedAt city fp records := by
      simp [← recordedAt_singleton, ← recordedAt_append]
    rw [List.foldl_cons, ih, lookup_undo, hcons, List.getLast?_append]
    by_cases hfp : r.revertEntry.fp city = fp
    · rw [if_pos hfp, if_pos hfp, Option.map_map]
      congr 1
      funext e
      cases (recordedAt city fp records).getLast? <;> rfl
    · simp [hfp]

/-- What is kept for making the commit again: each entry as the commit left it. -/
theorem mem_undone {state : UserHistoryStorage city × List RevertRecord} {r : RevertRecord}
    (honce : ∀ fp, (recordedAt city fp records).length ≤ 1) (h : r ∈ (records.foldl undo state).2) :
    r ∈ state.2 ∨ ∃ r' ∈ records, r.valueBegin = r'.valueBegin ∧
      r.revertEntry.fp city = r'.revertEntry.fp city ∧
      state.1.lookup (r.revertEntry.fp city) = some r.revertEntry.1 := by
  induction records generalizing state with
  | nil => exact .inl h
  | cons first records ih =>
    have hcons : ∀ fp, recordedAt city fp (first :: records) =
        recordedAt city fp [first] ++ recordedAt city fp records :=
          fun fp => recordedAt_append [first] _
    have honce' : ∀ fp, (recordedAt city fp records).length ≤ 1 := by
      intro fp
      have hle := honce fp
      simp [hcons] at hle
      omega
    rcases ih honce' h with h | ⟨r', hr', hbegin, hfp, hlookup⟩
    · unfold undo at h
      split at h
      · exact .inl h
      · next e he =>
        rcases List.mem_append.mp h with h | h
        · exact .inl h
        · obtain rfl := List.mem_singleton.mp h
          have hfp : e.fp city = first.revertEntry.fp city := fp_of_lookupKept he
          refine .inr ⟨first, List.mem_cons_self, rfl, hfp, ?_⟩
          show state.1.lookup (e.fp city) = some e.1
          rw [hfp]
          exact lookupKept_eq_some.mp he
    · refine .inr ⟨r', List.mem_cons_of_mem _ hr', hbegin, hfp, ?_⟩
      -- the first record is of another entry
      have hne : first.revertEntry.fp city ≠ r.revertEntry.fp city := by
        intro heq
        have hle := honce (r.revertEntry.fp city)
        have hpos :=
          List.length_pos_of_ne_nil (recordedAt_ne_nil hr' : recordedAt city _ records ≠ [])
        rw [hcons, List.length_append, recordedAt_singleton, if_pos heq] at hle
        rw [← hfp] at hpos
        simp only [List.length_singleton] at hle
        omega
      simpa [lookup_undo, hne] using hlookup

theorem subset_undone {state : UserHistoryStorage city × List RevertRecord} :
    state.2 ⊆ (records.foldl undo state).2 := by
  induction records generalizing state with
  | nil => exact List.Subset.refl _
  | cons first records ih =>
    refine List.Subset.trans ?_ ih
    unfold undo
    split
    · exact List.Subset.refl _
    · exact List.subset_append_left _ _

theorem exists_undone {state : UserHistoryStorage city × List RevertRecord} {r : RevertRecord}
    (h : r ∈ records) (hthere : state.1.lookup (r.revertEntry.fp city) ≠ none) :
    ∃ r' ∈ (records.foldl undo state).2, r'.revertEntry.fp city = r.revertEntry.fp city := by
  induction records generalizing state with
  | nil => cases h
  | cons first records ih =>
    rcases List.mem_cons.mp h with rfl | h
    · cases he : state.1.lookupKept (r.revertEntry.fp city) with
      | none => exact absurd (lookupKept_eq_none.mp he) hthere
      | some e =>
        have hundo : (undo state r).2 = state.2 ++ [{ r with revertEntry := e }] := by
          unfold undo
          rw [he]
        have hmem : { r with revertEntry := e } ∈ (undo state r).2 := by
          rw [hundo]
          exact List.mem_append_right _ List.mem_cons_self
        have hkept : { r with revertEntry := e } ∈ (records.foldl undo (undo state r)).2 :=
          subset_undone hmem
        exact ⟨_, hkept, fp_of_lookupKept he⟩
    · refine ih h ?_
      rw [lookup_undo]
      split
      · simpa using hthere
      · exact hthere

end Mozkey.Prediction
