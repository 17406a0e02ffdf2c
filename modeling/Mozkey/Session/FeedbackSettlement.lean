import Mozkey.Session.FeedbackPrivacy

/-!
# Every acceptance is settled once

The ids of what an acceptance has taught the history are held by the pending record, until all of
them are confirmed or all of them are reverted.

* `settled_where_kept` — nothing else becomes of them, as long as no record is prepared while there
  are ids
* `handle_is_dropped` — the ids are lost where a record is prepared over them
-/

namespace Mozkey.Session.FeedbackSession

open Infra Zenz Relation

/-! ## What is expected -/

/-- The ids that were held, the newest first. -/
def handles (calls : List FeedbackCall) : List UInt64 := calls.filterMap (·.handle)

def confirmations (calls : List FeedbackCall) : List UInt64 := calls.filterMap (·.confirmed)

def reversions (calls : List FeedbackCall) : List UInt64 := calls.filterMap (·.reverted)

/-- Each id of a record was confirmed once, or each was reverted once and the last one first, or all
of them are held. -/
def IsSettled (calls : List FeedbackCall) (held : List UInt64) : Prop :=
  (confirmations calls = handles calls ∧ reversions calls = [] ∧ held = []) ∨
    (confirmations calls = [] ∧ reversions calls = (handles calls).reverse ∧ held = []) ∨
    (confirmations calls = [] ∧ reversions calls = [] ∧ held = (handles calls).reverse)

/-- What the pending record holds of a record's ids. -/
def heldBy (number : Nat) (s : FeedbackSession) : List UInt64 :=
  if number = s.prepared.number then s.pendingZenzFeedback.mozcHistoryRevertIds else []

/-- A rollback takes back what was appended, and only once. A comparison gives one verdict at most,
of a final value that was observed. -/
def IsJustified (before : List FeedbackEntry) (entry : FeedbackEntry) : Prop :=
  ∀ record, entry.record = some record →
    (∀ key contextClass value reason,
      entry.call = .recordAcceptedRollback key contextClass value reason →
      record.feedback.action = .accepted ∧
        .recordAccepted key contextClass value true ∈ callsOf record.number before ∧
        ∀ call ∈ callsOf record.number before, call.isRollback = false) ∧
    (record.feedback.action = .compareFinalCommit → entry.call.isVerdict = true →
      (∀ call ∈ callsOf record.number before, call.isVerdict = false) ∧
        ∃ value key, .observe value key ∈ callsOf record.number before ∧
          (record.feedback.requireFinalCommittedKeyMatch = true → key = record.feedback.key))

/-! ## The journal of a record -/

variable {keeps : FeedbackSession → Prop} {services : LearningServices} {s t : FeedbackSession}
  {number : Nat} {call : FeedbackCall}

@[simp] theorem callsOf_log_self :
    callsOf s.prepared.number (s.log call).journal =
      call :: callsOf s.prepared.number s.journal :=
  callsOf_cons_self rfl _ _ _

theorem callsOf_log_other (h : number ≠ s.prepared.number) :
    callsOf number (s.log call).journal = callsOf number s.journal := by
  refine callsOf_cons_other (fun record hrecord => ?_) _
  cases hrecord
  exact h.symm

@[simp] theorem callsOf_logAll_self (calls : List FeedbackCall) :
    callsOf s.prepared.number (s.logAll calls).journal =
      calls.reverse ++ callsOf s.prepared.number s.journal := by
  induction calls generalizing s with
  | nil => rfl
  | cons call calls ih =>
    rw [show s.logAll (call :: calls) = (s.log call).logAll calls from rfl]
    have := @ih (s.log call)
    rw [show (s.log call).prepared = s.prepared from rfl] at this
    simp [this, callsOf_log_self]

theorem callsOf_logAll_other (h : number ≠ s.prepared.number) (calls : List FeedbackCall) :
    callsOf number (s.logAll calls).journal = callsOf number s.journal := by
  induction calls generalizing s with
  | nil => rfl
  | cons call calls ih =>
    rw [show s.logAll (call :: calls) = (s.log call).logAll calls from rfl]
    exact (@ih (s.log call) h).trans (callsOf_log_other h)

/-- Nothing was asked on behalf of a record that was not prepared yet. -/
theorem callsOf_new (hs : s.IsCoherent) (h : s.prepared.number < number) :
    callsOf number s.journal = [] := by
  refine List.eq_nil_iff_forall_not_mem.mpr fun call hcall => ?_
  obtain ⟨entry, hentry, record, hrecord, rfl, -⟩ := mem_callsOf.mp hcall
  exact absurd (hs.number_le entry hentry record hrecord) (Nat.not_le.mpr h)

theorem confirmations_confirm (ids : List UInt64) :
    confirmations (ids.map .confirmLearning) = ids := by
  simp [confirmations, List.filterMap_map, FeedbackCall.confirmed]

theorem handles_confirm (ids : List UInt64) : handles (ids.map .confirmLearning) = [] := by
  simp [handles, FeedbackCall.handle]

theorem reversions_confirm (ids : List UInt64) : reversions (ids.map .confirmLearning) = [] := by
  simp [reversions, FeedbackCall.reverted]

theorem reversions_revert (ids : List UInt64) :
    reversions (ids.map .revertLearning) = ids := by
  simp [reversions, List.filterMap_map, FeedbackCall.reverted]

theorem handles_revert (ids : List UInt64) : handles (ids.map .revertLearning) = [] := by
  simp [handles, FeedbackCall.handle]

theorem confirmations_revert (ids : List UInt64) :
    confirmations (ids.map .revertLearning) = [] := by
  simp [confirmations, FeedbackCall.confirmed]

/-! ## The invariant -/

/-- A record that is not pending anymore. -/
def IsClosed (calls : List FeedbackCall) : Prop :=
  (confirmations calls = handles calls ∧ reversions calls = []) ∨
    (confirmations calls = [] ∧ reversions calls = (handles calls).reverse)

structure IsAccounted (s : FeedbackSession) : Prop where
  closed : ∀ number, number ≠ s.prepared.number ∨ s.pendingZenzFeedback.pending = false →
    IsClosed (callsOf number s.journal)
  current : s.pendingZenzFeedback.pending = true →
    confirmations (callsOf s.prepared.number s.journal) = [] ∧
      reversions (callsOf s.prepared.number s.journal) = [] ∧
      s.pendingZenzFeedback.mozcHistoryRevertIds =
        (handles (callsOf s.prepared.number s.journal)).reverse

/-- What the pending record says of its own journal. -/
structure IsRecorded (s : FeedbackSession) : Prop where
  accepted : s.pendingZenzFeedback.pending = true → s.pendingZenzFeedback.action = .accepted →
    (∀ call ∈ callsOf s.prepared.number s.journal, call.isRollback = false) ∧
      (s.pendingZenzFeedback.feedbackAcceptanceWriteSucceeded = true →
        .recordAccepted s.pendingZenzFeedback.key s.pendingZenzFeedback.contextClass
          s.pendingZenzFeedback.value true ∈ callsOf s.prepared.number s.journal)
  compared : s.pendingZenzFeedback.pending = true →
    s.pendingZenzFeedback.action = .compareFinalCommit →
    (∀ call ∈ callsOf s.prepared.number s.journal, call.isVerdict = false) ∧
      (s.pendingZenzFeedback.hasFinalCommittedValue = true →
        .observe s.pendingZenzFeedback.finalCommittedValue s.pendingZenzFeedback.finalCommittedKey
          ∈ callsOf s.prepared.number s.journal)
  permitted : Permitted IsJustified s.journal

/-! ## Ids -/

/-- A call of the pending record that neither confirms nor reverts. -/
theorem IsAccounted.of_log (hs : s.IsAccounted) (hp : s.pendingZenzFeedback.pending = true)
    (hconfirmed : call.confirmed = none) (hreverted : call.reverted = none)
    (hjournal : t.journal = (s.log call).journal) (hprepared : t.prepared = s.prepared)
    (hpending : t.pendingZenzFeedback.pending = true)
    (hids : t.pendingZenzFeedback.mozcHistoryRevertIds =
      s.pendingZenzFeedback.mozcHistoryRevertIds ++ call.handle.toList) : t.IsAccounted where
  closed := by
    rintro number (hnumber | hpending')
    · rw [hprepared] at hnumber
      rw [hjournal, callsOf_log_other hnumber]
      exact hs.closed number (.inl hnumber)
    · simp [hpending] at hpending'
  current := by
    intro _
    obtain ⟨hc, hr, hh⟩ := hs.current hp
    rw [hprepared, hjournal, callsOf_log_self, hids, hh]
    simp only [confirmations, reversions, handles, List.filterMap_cons, hconfirmed, hreverted]
      at hc hr ⊢
    refine ⟨hc, hr, ?_⟩
    cases call.handle with
    | none => simp
    | some id => simp

/-- The pending record is left. -/
theorem IsAccounted.of_closed (hs : s.IsAccounted) (hprepared : t.prepared = s.prepared)
    (hpending : t.pendingZenzFeedback.pending = false)
    (hother : ∀ number, number ≠ s.prepared.number →
      callsOf number t.journal = callsOf number s.journal)
    (hown : IsClosed (callsOf s.prepared.number t.journal)) : t.IsAccounted where
  closed := by
    intro number _
    rcases eq_or_ne number s.prepared.number with rfl | hnumber
    · exact hown
    · rw [hother number hnumber]
      exact hs.closed number (.inl hnumber)
  current := by
    intro hp
    simp [hpending] at hp

/-- Without ids there is nothing left to be done. -/
theorem IsAccounted.closed_of_nil (hs : s.IsAccounted)
    (hids : s.pendingZenzFeedback.mozcHistoryRevertIds = []) :
    IsClosed (callsOf s.prepared.number s.journal) := by
  cases hp : s.pendingZenzFeedback.pending with
  | false => exact hs.closed _ (.inr hp)
  | true =>
    obtain ⟨hc, hr, hh⟩ := hs.current hp
    rw [hids] at hh
    have hnil : handles (callsOf s.prepared.number s.journal) = [] :=
      List.reverse_eq_nil_iff.mp hh.symm
    exact .inl ⟨hc.trans hnil.symm, hr⟩

theorem confirm_accounted (hs : s.IsAccounted) (hcoherent : s.IsCoherent) :
    s.confirmAll.clear.IsAccounted := by
  refine hs.of_closed (logAll_prepared _) rfl (fun number h => callsOf_logAll_other h _) ?_
  rw [show s.confirmAll.clear.journal = s.confirmAll.journal from rfl, confirmAll,
    callsOf_logAll_self]
  by_cases hids : s.pendingZenzFeedback.mozcHistoryRevertIds = []
  · rw [hids]
    exact hs.closed_of_nil hids
  · obtain ⟨hp, -, -⟩ := hcoherent.holder hids
    obtain ⟨hc, hr, hh⟩ := hs.current hp
    refine .inl ⟨?_, ?_⟩
    · have hnew := confirmations_confirm s.pendingZenzFeedback.mozcHistoryRevertIds.reverse
      have hold := handles_confirm s.pendingZenzFeedback.mozcHistoryRevertIds.reverse
      simp only [confirmations, handles, List.map_reverse, List.filterMap_append] at hnew hold hc ⊢
      rw [hnew, hold, hc, hh]
      simp [handles]
    · have hnew := reversions_confirm s.pendingZenzFeedback.mozcHistoryRevertIds.reverse
      simp only [reversions, List.map_reverse, List.filterMap_append] at hnew hr ⊢
      simp [hnew, hr]

theorem revert_closed (hs : s.IsAccounted) (hp : s.pendingZenzFeedback.pending = true) :
    IsClosed (callsOf s.prepared.number s.revertAll.journal) := by
  obtain ⟨hc, hr, hh⟩ := hs.current hp
  rw [revertAll, callsOf_logAll_self, ← List.map_reverse, List.reverse_reverse]
  refine .inr ⟨?_, ?_⟩
  · have hnew := confirmations_revert s.pendingZenzFeedback.mozcHistoryRevertIds
    simp only [confirmations, List.filterMap_append] at hnew hc ⊢
    rw [hnew, hc]
    rfl
  · have hnew := reversions_revert s.pendingZenzFeedback.mozcHistoryRevertIds
    have hold := handles_revert s.pendingZenzFeedback.mozcHistoryRevertIds
    simp only [reversions, handles, List.filterMap_append] at hnew hold hr ⊢
    rw [hnew, hold, hr, hh]
    simp [handles]

theorem isClosed_cons {calls : List FeedbackCall} (h : IsClosed calls)
    (hhandle : call.handle = none)
    (hconfirmed : call.confirmed = none) (hreverted : call.reverted = none) :
    IsClosed (call :: calls) := by
  simpa [IsClosed, confirmations, reversions, handles, hhandle, hconfirmed, hreverted] using h

theorem FeedbackMove.accounted
    (h : FeedbackMove (fun u => u.pendingZenzFeedback.mozcHistoryRevertIds = []) s t)
    (hcoherent : s.IsCoherent) (hs : s.IsAccounted) : t.IsAccounted := by
  cases h with
  | live => exact ⟨hs.closed, hs.current⟩
  | settings => exact ⟨hs.closed, hs.current⟩
  | prepare hkeeps hp _ _ _ hids =>
    refine ⟨?_, fun _ => ?_⟩
    · rintro number (hnumber | hp')
      · rcases eq_or_ne number s.prepared.number with rfl | hother
        · exact hs.closed_of_nil hkeeps
        · exact hs.closed number (.inl hother)
      · simp [show (s.prepare _).pendingZenzFeedback.pending = true from hp] at hp'
    · have hnew : callsOf (s.prepared.number + 1) s.journal = [] :=
        callsOf_new hcoherent (Nat.lt_succ_self _)
      rw [show (s.prepare _).pendingZenzFeedback.mozcHistoryRevertIds = [] from hids,
        show callsOf (s.prepare _).prepared.number (s.prepare _).journal = [] from hnew]
      exact ⟨rfl, rfl, rfl⟩
  | annotate => exact ⟨hs.closed, hs.current⟩
  | accept hp => exact hs.of_log hp rfl rfl rfl rfl hp (List.append_nil _).symm
  | learn hp _ _ hmove =>
    cases hmove with
    | @intro call _ hlearning =>
      cases call with
      | learnResult => exact hs.of_log hp rfl rfl rfl rfl hp rfl
      | learnSegments => exact hs.of_log hp rfl rfl rfl rfl hp rfl
      | _ => cases hlearning
  | observe hp => exact hs.of_log hp rfl rfl rfl rfl hp (List.append_nil _).symm
  | confirm => exact confirm_accounted hs hcoherent
  | takeBack hp =>
    have hother : ∀ number, number ≠ s.prepared.number →
        callsOf number s.revertAll.journal = callsOf number s.journal :=
      fun number h => callsOf_logAll_other h _
    have hprepared : s.revertAll.prepared = s.prepared := logAll_prepared _
    unfold rollBack
    split
    · refine hs.of_closed hprepared rfl (fun number h => ?_) ?_
      · exact (callsOf_log_other (hprepared ▸ h)).trans (hother number h)
      · rw [← hprepared]
        refine (callsOf_log_self (s := s.revertAll)).symm ▸ ?_
        rw [hprepared]
        exact isClosed_cons (revert_closed hs hp) rfl rfl rfl
    · exact hs.of_closed hprepared rfl hother (revert_closed hs hp)
  | conclude hp ha _ _ _ hconclusion =>
    refine hs.of_closed rfl rfl (fun number h => callsOf_log_other h) ?_
    have hclosed := hs.closed_of_nil (hcoherent.ids_eq_nil (.inl (by rw [ha]; nofun)))
    refine callsOf_log_self.symm ▸ ?_
    cases hconclusion with
    | accepted => exact isClosed_cons hclosed rfl rfl rfl
    | rejected => exact isClosed_cons hclosed rfl rfl rfl
  | leave hids => exact hs.of_closed rfl rfl (fun _ _ => rfl) (hs.closed_of_nil hids)
  | block =>
    exact ⟨fun number h => by simpa using hs.closed number h, fun hp =>
      by simpa using hs.current hp⟩

/-! ## Records -/

/-- A call that is no rollback, and no verdict of a comparison. -/
theorem isJustified_of {before : List FeedbackEntry} (hrollback : call.isRollback = false)
    (hverdict : s.prepared.feedback.action = .compareFinalCommit → call.isVerdict = false) :
    IsJustified before (s.entry call) := by
  rintro record hrecord
  cases hrecord
  refine ⟨fun key contextClass value reason h => ?_, fun ha h => ?_⟩
  · rw [show call = _ from h] at hrollback
    cases hrollback
  · simp [show (s.entry call).call = call from rfl, hverdict ha] at h

theorem permitted_logAll {calls : List FeedbackCall}
    (hcalls : ∀ call ∈ calls, call.isRollback = false ∧ call.isVerdict = false)
    (hs : Permitted IsJustified s.journal) : Permitted IsJustified (s.logAll calls).journal := by
  rw [logAll_eq]
  refine permitted_append hs fun later entry earlier heq => ?_
  have hmem : entry ∈ (calls.map s.entry).reverse := heq ▸ by simp
  obtain ⟨call, hcall, rfl⟩ := List.mem_map.mp (List.mem_reverse.mp hmem)
  exact isJustified_of (hcalls call hcall).1 fun _ => (hcalls call hcall).2

theorem isRecorded_clear (h : Permitted IsJustified s.journal) : s.clear.IsRecorded where
  accepted := fun h => by cases h
  compared := fun h => by cases h
  permitted := h

/-- One more call of an acceptance, which is not taken back by it. -/
theorem IsRecorded.of_accepted (hs : s.IsRecorded) (hp : s.pendingZenzFeedback.pending = true)
    (ha : s.pendingZenzFeedback.action = .accepted) (hcoherent : s.IsCoherent)
    (hrollback : call.isRollback = false) (hjournal : t.journal = (s.log call).journal)
    (hprepared : t.prepared = s.prepared) (haction : t.pendingZenzFeedback.action = .accepted)
    (hwrite : t.pendingZenzFeedback.feedbackAcceptanceWriteSucceeded = true →
      .recordAccepted t.pendingZenzFeedback.key t.pendingZenzFeedback.contextClass
        t.pendingZenzFeedback.value true ∈ call :: callsOf s.prepared.number s.journal) :
    t.IsRecorded where
  accepted := by
    intro _ _
    rw [hjournal, hprepared, callsOf_log_self]
    refine ⟨fun other hother => ?_, hwrite⟩
    rcases List.mem_cons.mp hother with rfl | hother
    · exact hrollback
    · exact (hs.accepted hp ha).1 other hother
  compared := by
    intro _ hcompare
    simp [haction] at hcompare
  permitted := by
    rw [hjournal]
    refine ⟨isJustified_of hrollback fun h => ?_, hs.permitted⟩
    simp [(hcoherent.prepared_eq hp).1, ha] at h

theorem takeBack_permitted (hs : s.IsRecorded) (hp : s.pendingZenzFeedback.pending = true)
    (ha : s.pendingZenzFeedback.action = .accepted) (hcoherent : s.IsCoherent) (reason : Bytes) :
    Permitted IsJustified (s.revertAll.rollBack reason).journal := by
  have hcalls : ∀ call ∈ s.pendingZenzFeedback.mozcHistoryRevertIds.reverse.map
      FeedbackCall.revertLearning, call.isRollback = false ∧ call.isVerdict = false := by
    intro call hcall
    obtain ⟨revertId, -, rfl⟩ := List.mem_map.mp hcall
    exact ⟨rfl, rfl⟩
  have hrevert : Permitted IsJustified s.revertAll.journal := permitted_logAll hcalls hs.permitted
  unfold rollBack
  split
  · next hwrite =>
    refine ⟨?_, hrevert⟩
    rintro record hrecord
    cases hrecord
    refine ⟨fun key contextClass value reason' h => ?_, fun h => ?_⟩
    · obtain ⟨hnone, hrecorded⟩ := hs.accepted hp ha
      cases h
      simp only [revertAll, logAll_prepared, logAll_pendingZenzFeedback, callsOf_logAll_self,
        Bool.and_eq_true, List.mem_append, List.mem_reverse] at hwrite ⊢
      refine ⟨(hcoherent.prepared_eq hp).1.trans ha, .inr (hrecorded hwrite.1), ?_⟩
      rintro call (hcall | hcall)
      · exact (hcalls call hcall).1
      · exact hnone call hcall
    · simp [revertAll, logAll_prepared, (hcoherent.prepared_eq hp).1, ha] at h
  · exact hrevert

theorem conclude_permitted (hs : s.IsRecorded) (hp : s.pendingZenzFeedback.pending = true)
    (ha : s.pendingZenzFeedback.action = .compareFinalCommit) (hcoherent : s.IsCoherent)
    (hfinal : s.pendingZenzFeedback.hasFinalCommittedValue = true)
    (hkey : s.pendingZenzFeedback.requireFinalCommittedKeyMatch = true →
      s.pendingZenzFeedback.finalCommittedKey = s.pendingZenzFeedback.key)
    (hrollback : call.isRollback = false) : Permitted IsJustified (s.log call).journal := by
  obtain ⟨hverdict, hobserved⟩ := hs.compared hp ha
  obtain ⟨-, hkeyEq, -, hrequire⟩ := hcoherent.prepared_eq hp
  refine ⟨?_, hs.permitted⟩
  rintro record hrecord
  cases hrecord
  refine ⟨fun key contextClass value reason h => ?_, fun _ _ => ⟨hverdict, ?_⟩⟩
  · rw [show call = _ from h] at hrollback
    cases hrollback
  · refine ⟨_, _, hobserved hfinal, fun h => ?_⟩
    rw [hkeyEq]
    exact hkey (hrequire ▸ h)

theorem FeedbackMove.recorded (h : FeedbackMove keeps s t) (hcoherent : s.IsCoherent)
    (hs : s.IsRecorded) : t.IsRecorded := by
  cases h with
  | live => exact ⟨hs.accepted, hs.compared, hs.permitted⟩
  | settings => exact ⟨hs.accepted, hs.compared, hs.permitted⟩
  | @prepare feedback _ _ _ hfinal hwrite =>
    have hnew : callsOf (s.prepare feedback).prepared.number (s.prepare feedback).journal = [] :=
      @callsOf_new s (s.prepared.number + 1) hcoherent (Nat.lt_succ_self _)
    refine ⟨fun _ _ => ?_, fun _ _ => ?_, hs.permitted⟩
    · rw [hnew, show (s.prepare feedback).pendingZenzFeedback = feedback from rfl, hwrite]
      exact ⟨by simp, nofun⟩
    · rw [hnew, show (s.prepare feedback).pendingZenzFeedback = feedback from rfl, hfinal]
      exact ⟨by simp, nofun⟩
  | annotate => exact ⟨hs.accepted, hs.compared, hs.permitted⟩
  | @accept services hp ha =>
    refine hs.of_accepted hp ha hcoherent rfl rfl rfl ha fun happended => ?_
    have happended' : services.recordAccepted s.journal s.pendingZenzFeedback.key
        s.pendingZenzFeedback.contextClass s.pendingZenzFeedback.value = true := happended
    rw [happended']
    exact List.mem_cons_self
  | learn hp ha _ hmove =>
    cases hmove with
    | @intro call _ hlearning =>
      obtain ⟨-, hrollback, -⟩ := FeedbackCall.isLearning_only hlearning
      exact hs.of_accepted hp ha hcoherent hrollback rfl rfl ha fun h =>
        List.mem_cons_of_mem _ ((hs.accepted hp ha).2 h)
  | observe hp ha =>
    refine ⟨fun _ h => ?_, fun _ _ => ?_, isJustified_of rfl fun _ => rfl, hs.permitted⟩
    · simp [show (s.observed _ _).pendingZenzFeedback.action = _ from ha] at h
    · have hcalls : ∀ value key, callsOf (s.observed value key).prepared.number
          (s.observed value key).journal =
            .observe value key :: callsOf s.prepared.number s.journal :=
        fun _ _ => callsOf_log_self (s := s)
      rw [hcalls]
      refine ⟨fun call hcall => ?_, fun _ => List.mem_cons_self⟩
      rcases List.mem_cons.mp hcall with rfl | hcall
      · rfl
      · exact (hs.compared hp ha).1 call hcall
  | confirm =>
    refine isRecorded_clear (permitted_logAll (fun call hcall => ?_) hs.permitted)
    obtain ⟨revertId, -, rfl⟩ := List.mem_map.mp hcall
    exact ⟨rfl, rfl⟩
  | takeBack hp ha => exact isRecorded_clear (takeBack_permitted hs hp ha hcoherent _)
  | conclude hp ha hfinal hkey _ hconclusion =>
    refine isRecorded_clear (conclude_permitted hs hp ha hcoherent hfinal hkey ?_)
    cases hconclusion with
    | accepted => rfl
    | rejected => rfl
  | leave => exact isRecorded_clear hs.permitted
  | block =>
    refine ⟨fun hp ha => by simpa using hs.accepted hp ha,
      fun hp ha => by simpa using hs.compared hp ha, ?_, hs.permitted⟩
    rintro record hrecord
    cases hrecord

/-! ## Runs -/

theorem IsAccounted.settled (hs : s.IsAccounted) (hcoherent : s.IsCoherent) (number : Nat) :
    IsSettled (callsOf number s.journal) (s.heldBy number) := by
  unfold heldBy
  split
  · next hnumber =>
    subst hnumber
    cases hp : s.pendingZenzFeedback.pending with
    | true =>
      obtain ⟨hc, hr, hh⟩ := hs.current hp
      exact .inr (.inr ⟨hc, hr, hh⟩)
    | false =>
      have hids : s.pendingZenzFeedback.mozcHistoryRevertIds = [] := by
        by_contra hids
        simp [(hcoherent.holder hids).1] at hp
      rcases hs.closed _ (.inr hp) with ⟨hc, hr⟩ | ⟨hc, hr⟩
      · exact .inl ⟨hc, hr, hids⟩
      · exact .inr (.inl ⟨hc, hr, hids⟩)
  · next hnumber =>
    rcases hs.closed number (.inl hnumber) with ⟨hc, hr⟩ | ⟨hc, hr⟩
    · exact .inl ⟨hc, hr, rfl⟩
    · exact .inr (.inl ⟨hc, hr, rfl⟩)

variable {converts : ZenzLiveRequest → ZenzLiveResponse → Prop}
  {path : List (Transition FeedbackSession FeedbackEvent)}

/-- **Every id is confirmed once, or reverted once, or held, every rollback and every verdict is
justified, in a run that never prepares a record while ids are held.** -/
theorem settled_where_kept (hs : s.IsFresh) (h : Path (FeedbackStep services converts) s path t)
    (hkeeps : ∀ x ∈ path, x.source.preparesOn x.event = true →
      x.source.pendingZenzFeedback.mozcHistoryRevertIds = []) :
    (∀ number, IsSettled (callsOf number t.journal) (t.heldBy number)) ∧
      Permitted IsJustified t.journal := by
  have haccounted : s.IsAccounted :=
    ⟨fun number _ => by simp [hs.2, IsClosed, confirmations, handles, reversions],
      by simp [hs.1]⟩
  have hrecorded : s.IsRecorded := ⟨by simp [hs.1], by simp [hs.1], by simp [hs.2]⟩
  have hmove : ∀ t u : FeedbackSession, t.IsCoherent →
      (t.IsCoherent ∧ t.IsAccounted ∧ t.IsRecorded) →
      FeedbackMove (fun u => u.pendingZenzFeedback.mozcHistoryRevertIds = []) t u →
      (u.IsCoherent ∧ u.IsAccounted ∧ u.IsRecorded) := by
    rintro t u hcoherent ⟨-, ha, hr⟩ hmove
    exact ⟨hmove.coherent hcoherent, hmove.accounted hcoherent ha, hmove.recorded hcoherent hr⟩
  obtain ⟨hcoherent, ha, hr⟩ :=
    invariant_of_moves hmove h hs.coherent ⟨hs.coherent, haccounted, hrecorded⟩ hkeeps
  exact ⟨ha.settled hcoherent, hr.permitted⟩

/-! ## A handle that is lost -/

instance (calls : List FeedbackCall) (held : List UInt64) : Decidable (IsSettled calls held) :=
  inferInstanceAs (Decidable (_ ∨ _ ∨ _))

/-- The corrector answers, and the session shows the answer, while the pending record stays. -/
theorem live_path {livePath : List (Transition LiveState LiveAction)} {live : LiveState}
    (h : Path (FeedbackStep services converts) s path t)
    (hlive : Path (LiveStep converts) t.live livePath live) :
    ∃ path', Path (FeedbackStep services converts) s path' { t with live } := by
  induction hlive with
  | refl => exact ⟨path, h⟩
  | tail _ hstep ih =>
    obtain ⟨path', hpath'⟩ := ih
    exact ⟨_, hpath'.tail (.live hstep)⟩

@[simp] theorem setAccepted_live (projection : ZenzReverseLearningProjection)
    (key contextClass value : Bytes) :
    (s.setPendingZenzFeedbackAccepted services projection key contextClass value).live =
      s.live := by
  unfold setPendingZenzFeedbackAccepted
  split
  · rfl
  · dsimp only
    split
    · rfl
    · split <;> rfl

@[simp] theorem observe_live (output : Output) :
    (s.observePendingZenzFeedbackCommittedResult output).live = s.live := by
  unfold observePendingZenzFeedbackCommittedResult
  split
  · rfl
  · split
    · rfl
    · split
      · rfl
      · split
        · rfl
        · split <;> rfl

theorem Learns.live_eq {reversible : Bool} (h : Learns reversible s t) : t.live = s.live := by
  induction h with
  | refl => rfl
  | tail _ hlast ih =>
    cases hlast
    exact ih

@[simp] theorem apply_live :
    (s.applyPendingZenzAcceptedMozcHistoryLearning services).live = s.live := by
  unfold applyPendingZenzAcceptedMozcHistoryLearning
  split
  · rfl
  · dsimp only
    split
    · rfl
    · exact (Learns.live_eq (learnPending_learns _)).trans rfl

/-- A commit ends the live conversion. -/
theorem commit_live (projection : ZenzReverseLearningProjection) (output : Output)
    (hvisible : s.live.hasVisibleZenzLiveCorrection = true) :
    (s.commitZenzLiveCorrectionResult services projection output).live =
      { s.live.clearLiveConversionState with imeState := .precomposition } := by
  have hkey : s.live.zenzLive.key.isEmpty = false ∧ s.live.zenzLive.value.isEmpty = false := by
    simp only [LiveState.hasVisibleZenzLiveCorrection, Bool.and_eq_true, Bool.not_eq_true']
      at hvisible
    exact ⟨hvisible.1.1.1.1.1.1.2, hvisible.1.1.1.1.1.2⟩
  unfold commitZenzLiveCorrectionResult
  rw [hvisible]
  simp [commitAccepted, commitStringDirectly, hkey.1, hkey.2]

def learning : InputContext :=
  { config := { useZenzFeedbackRecording := true, useZenzMozcHistoryLearning := true } }

/-- The correction is committed. Its id is held from then on. -/
def committed : FeedbackSession := (showing learning).perform oneHandle (.commit {} {})

def answersTree (request : ZenzLiveRequest) (response : ZenzLiveResponse) : Prop :=
  response =
    { generation := request.generation, key := request.key, value := shown.value, ok := true }

/-- The focus is lost after the commit. -/
def settled : FeedbackSession := committed.perform oneHandle (.sessionCommand .resetContext)

theorem settled_where_kept_commit :
    (∀ number, IsSettled (callsOf number settled.journal) (settled.heldBy number)) ∧
      Permitted IsJustified settled.journal := by
  have hpath : Path (FeedbackStep oneHandle fun _ _ => False) (showing learning) _ settled :=
    (Infra.Path.refl.tail .operation).tail .operation
  refine settled_where_kept ⟨rfl, rfl⟩ hpath ?_
  intro x hx hprepares
  rcases List.mem_pair.mp hx with rfl | rfl
  · rfl
  · cases hprepares

/-- A reconversion. -/
def reconverted : LiveState where
  imeState := .conversion
  liveConversionActive := true
  liveConversionKey := shown.key
  liveConversionValue := shown.mozcValue
  zenzLiveGeneration := 2

/-- The user asks for a correction of it. -/
def requested : LiveState :=
  (reconverted.scheduleZenzLiveCorrection { forced := true }).advancePendingZenzLiveCorrection {} 0

def response : ZenzLiveResponse where
  generation := 3
  key := shown.key
  value := shown.value
  ok := true

def answered : LiveState :=
  { requested with zenzLiveCorrector := some { latestResult := some response } }

def shownAgain : LiveState :=
  (answered.applyZenzLiveCorrection (some 3) (some shown.key) {} 0).applyZenzLiveCorrectionResult
    (some ⟨shown.value, shown.displayKey, shown.contextClass⟩)

theorem committed_live :
    committed.live = { imeState := .precomposition, zenzLiveGeneration := 2 } :=
  (commit_live {} {} (by decide +kernel)).trans rfl

/-- No character is inserted between the reconversion and the correction. -/
theorem reconversion_path :
    ∃ livePath, Path (LiveStep answersTree) committed.live livePath shownAgain := by
  rw [committed_live]
  have hreconverted : LiveStep answersTree { imeState := .precomposition, zenzLiveGeneration := 2 }
      (.edit .conversion true shown.key shown.mozcValue) reconverted := .edit rfl
  have hscheduled : LiveStep answersTree reconverted (.schedule { forced := true }) _ :=
    .schedule rfl
  have hrequested : LiveStep answersTree _ (.start {} 0) requested := .start rfl rfl rfl
  have htaken : requested.zenzLiveCorrector = some _ := rfl
  have hanswered := ((Infra.Path.refl.tail hreconverted).tail hscheduled).tail hrequested
    |>.tail (.worker htaken (.take rfl rfl))
    |>.tail (.worker rfl (.finish rfl (.inr (rfl : answersTree _ _))))
    |>.tail (.worker rfl (.store rfl))
  have happlied : LiveStep answersTree answered (.callback (some 3) (some shown.key) {} 0) _ :=
    .callback rfl
  have htaken : (answered.applyZenzLiveCorrection (some 3) (some shown.key) {} 0).taken =
      some response := by decide +kernel
  have hshown : LiveStep answersTree _ (.result (some ⟨shown.value, shown.displayKey,
      shown.contextClass⟩)) shownAgain := .result htaken fun _ => ⟨rfl, rfl⟩
  exact ⟨_, (hanswered.tail happlied).tail hshown⟩

/-- The second correction is committed as the first one was. -/
def overwritten : FeedbackSession :=
  ({ committed with live := shownAgain } : FeedbackSession).perform oneHandle (.commit {} {})

/-- **The id of the first acceptance is neither confirmed nor reverted, and nothing holds it.** -/
theorem handle_is_dropped :
    (showing learning).IsFresh ∧
      (∃ path, Path (FeedbackStep oneHandle answersTree) (showing learning) path overwritten) ∧
      handles (callsOf 1 overwritten.journal) = [7] ∧
      ¬IsSettled (callsOf 1 overwritten.journal) (overwritten.heldBy 1) := by
  refine ⟨⟨rfl, rfl⟩, ?_, by decide +kernel, by decide +kernel⟩
  obtain ⟨livePath, hlive⟩ := reconversion_path
  have hcommitted : Path (FeedbackStep oneHandle answersTree) (showing learning) _ committed :=
    Infra.Path.refl.tail .operation
  obtain ⟨path, hpath⟩ := live_path hcommitted hlive
  exact ⟨_, hpath.tail .operation⟩

end Mozkey.Session.FeedbackSession
