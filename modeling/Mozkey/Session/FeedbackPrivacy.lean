import Mozkey.Session.FeedbackLifecycle

/-!
# Nothing private is learned

* `writes_are_lawful` — what a session writes is public, written where that is allowed, and comes
  from a record that was prepared where that was allowed

A rollback is written even if nothing may be recorded anymore. It takes back what was recorded.
-/

namespace Mozkey.Session

open Infra Zenz

namespace FeedbackCall

def isManualBlock : FeedbackCall → Bool
  | recordManualBlock .. => true
  | _ => false

/-- What is written to the feedback store or to the history. -/
def isWrite (call : FeedbackCall) : Bool :=
  call.isVerdict || call.isRollback || call.isManualBlock || call.isLearning

/-- Learning is none of the other writes. -/
theorem isLearning_only {call : FeedbackCall} (h : call.isLearning = true) :
    call.isManualBlock = false ∧ call.isRollback = false ∧ call.isVerdict = false := by
  cases call with
  | learnResult => exact ⟨rfl, rfl, rfl⟩
  | learnSegments => exact ⟨rfl, rfl, rfl⟩
  | _ => cases h

end FeedbackCall

/-- Neither the configuration nor the request is incognito. -/
def InputContext.IsPersonal (context : InputContext) : Prop :=
  context.config.incognitoMode = false ∧ context.isIncognitoMode = false

/-- The input is not private, and not a password. -/
def InputContext.IsPublic (context : InputContext) : Prop :=
  context.isPrivateInput = false ∧ context.inputFieldType ≠ .password

theorem InputContext.isPersonal_iff {context : InputContext} :
    context.isZenzPersistentPersonalizationContextAllowed = true ↔ context.IsPersonal := by
  simp [isZenzPersistentPersonalizationContextAllowed, IsPersonal]

theorem InputContext.canPersist_iff {context : InputContext} :
    context.canPersistZenzLearningFromInput = true ↔ context.IsPersonal ∧ context.IsPublic := by
  simp [canPersistZenzLearningFromInput, isPersonal_iff, IsPublic, bne_iff_ne, ne_eq, and_assoc]

/-- A write as it should be. -/
structure FeedbackEntry.IsLawful (entry : FeedbackEntry) : Prop where
  personal : entry.context.IsPersonal
  isPublic : entry.call.isRollback = false → entry.context.IsPublic
  texts : ∀ text ∈ entry.call.texts, Session.IsPublic text
  /-- Only a manual block comes from no record. -/
  isSome : entry.call.isManualBlock = false → entry.record.isSome = true
  /-- So was the state in which the record was prepared, and so is its whole text. -/
  prepared : ∀ record, entry.record = some record →
    (record.context.IsPersonal ∧ record.context.IsPublic) ∧
      Session.IsPublic (record.feedback.key, record.feedback.value)
  recording : entry.call.isVerdict = true → entry.context.config.useZenzFeedbackRecording = true
  learning : entry.call.isLearning = true →
    entry.context.config.useZenzMozcHistoryLearning = true
  /-- What a rollback takes back was recorded while that was wanted. -/
  compensates : entry.call.isRollback = true → ∀ record, entry.record = some record →
    record.context.config.useZenzFeedbackRecording = true

namespace FeedbackSession

open Relation

/-- What the pending record promises of the writes that come from it. -/
structure IsDiscreet (s : FeedbackSession) : Prop where
  writes : ∀ entry ∈ s.journal, entry.call.isWrite = true → entry.IsLawful
  prepared : s.pendingZenzFeedback.pending = true →
    s.prepared.context.canPersistZenzLearningFromInput = true ∧
      IsPublic (s.prepared.feedback.key, s.prepared.feedback.value)
  recorded : s.pendingZenzFeedback.pending = true →
    s.pendingZenzFeedback.feedbackAcceptanceWriteSucceeded = true →
      s.prepared.context.config.useZenzFeedbackRecording = true

variable {keeps : FeedbackSession → Prop} {services : LearningServices} {s t : FeedbackSession}
  {call : FeedbackCall}

/-- A write of the pending record that is not a rollback. -/
theorem isLawful_entry (hs : s.IsDiscreet) (hp : s.pendingZenzFeedback.pending = true)
    (hpersist : s.context.canPersistZenzLearningFromInput = true)
    (hblock : call.isManualBlock = false) (hrollback : call.isRollback = false)
    (htexts : ∀ text ∈ call.texts, IsPublic text)
    (hrecording : call.isVerdict = true → s.context.config.useZenzFeedbackRecording = true)
    (hlearning : call.isLearning = true → s.context.config.useZenzMozcHistoryLearning = true) :
    (s.entry call).IsLawful where
  personal := (InputContext.canPersist_iff.mp hpersist).1
  isPublic := fun _ => (InputContext.canPersist_iff.mp hpersist).2
  texts := htexts
  isSome := fun _ => rfl
  prepared := by
    rintro record hrecord
    cases hrecord
    obtain ⟨hcontext, htext⟩ := hs.prepared hp
    exact ⟨InputContext.canPersist_iff.mp hcontext, htext⟩
  recording := hrecording
  learning := hlearning
  compensates := fun h => by
    simp [show (s.entry call).call = call from rfl, hrollback] at h

theorem isLawful_block {context : InputContext} {key contextClass value : Bytes}
    (hpersist : context.canPersistZenzLearningFromInput = true) (hpublic : IsPublic (key, value)) :
    (FeedbackEntry.mk none context (.recordManualBlock key contextClass value)).IsLawful where
  personal := (InputContext.canPersist_iff.mp hpersist).1
  isPublic := fun _ => (InputContext.canPersist_iff.mp hpersist).2
  texts := fun text htext => List.mem_singleton.mp htext ▸ hpublic
  isSome := fun h => by cases h
  prepared := fun _ h => by cases h
  recording := fun h => by cases h
  learning := fun h => by cases h
  compensates := fun h => by cases h

/-- One more write. -/
theorem writes_log (hs : ∀ entry ∈ s.journal, entry.call.isWrite = true → entry.IsLawful)
    (h : call.isWrite = true → (s.entry call).IsLawful) :
    ∀ entry ∈ (s.log call).journal, entry.call.isWrite = true → entry.IsLawful := by
  intro entry hentry hwrite
  rcases List.mem_cons.mp hentry with rfl | hentry
  · exact h hwrite
  · exact hs entry hentry hwrite

/-- Nothing is written where records are confirmed or reverted. -/
theorem writes_logAll {calls : List FeedbackCall} (hcalls : ∀ call ∈ calls, call.isWrite = false)
    (hs : ∀ entry ∈ s.journal, entry.call.isWrite = true → entry.IsLawful) :
    ∀ entry ∈ (s.logAll calls).journal, entry.call.isWrite = true → entry.IsLawful := by
  intro entry hentry hwrite
  rw [logAll_eq] at hentry
  rcases List.mem_append.mp hentry with hentry | hentry
  · obtain ⟨call, hcall, rfl⟩ := List.mem_map.mp (List.mem_reverse.mp hentry)
    simp [show (s.entry call).call = call from rfl, hcalls call hcall] at hwrite
  · exact hs entry hentry hwrite

theorem isDiscreet_clear
    (h : ∀ entry ∈ s.journal, entry.call.isWrite = true → entry.IsLawful) :
    s.clear.IsDiscreet where
  writes := h
  prepared := fun h => by cases h
  recorded := fun h => by cases h

theorem revertAll_writes (hs : s.IsDiscreet) :
    ∀ entry ∈ s.revertAll.journal, entry.call.isWrite = true → entry.IsLawful := by
  refine writes_logAll (fun call hcall => ?_) hs.writes
  obtain ⟨revertId, -, rfl⟩ := List.mem_map.mp hcall
  rfl

/-- What is written where a record is taken back. -/
theorem rollBack_writes (hs : s.IsDiscreet) (hp : s.pendingZenzFeedback.pending = true)
    (hcoherent : s.IsCoherent) (reason : Bytes) :
    ∀ entry ∈ (s.revertAll.rollBack reason).journal, entry.call.isWrite = true →
      entry.IsLawful := by
  unfold rollBack
  split
  · next hrollback =>
    simp only [revertAll, logAll_pendingZenzFeedback, logAll_context, Bool.and_eq_true]
      at hrollback
    obtain ⟨hwrite, hallowed⟩ := hrollback
    obtain ⟨-, hkey, hvalue, -⟩ := hcoherent.prepared_eq hp
    obtain ⟨hcontext, htext⟩ := hs.prepared hp
    refine writes_log (revertAll_writes hs) fun _ => ?_
    refine ⟨?_, fun h => ?no, ?_, fun _ => rfl, ?_, fun h => ?no', fun h => ?no'', ?_⟩
    case no | no' | no'' => cases h
    · simpa [entry, revertAll] using InputContext.isPersonal_iff.mp hallowed
    · rintro text htext'
      rw [List.mem_singleton.mp htext']
      simpa [revertAll, hkey, hvalue] using htext
    · rintro record hrecord
      cases hrecord
      simpa [revertAll] using And.intro (InputContext.canPersist_iff.mp hcontext) htext
    · rintro - record hrecord
      cases hrecord
      simpa [revertAll] using hs.recorded hp hwrite
  · exact revertAll_writes hs

theorem FeedbackMove.discreet (h : FeedbackMove keeps s t) (hcoherent : s.IsCoherent)
    (hs : s.IsDiscreet) : t.IsDiscreet := by
  cases h with
  | live => exact ⟨hs.writes, hs.prepared, hs.recorded⟩
  | settings => exact ⟨hs.writes, hs.prepared, hs.recorded⟩
  | prepare _ _ _ _ hwrite _ hpersist hpublic =>
    refine ⟨hs.writes, fun _ => ⟨hpersist, hpublic⟩, fun _ h => ?_⟩
    simp [show (s.prepare _).pendingZenzFeedback.feedbackAcceptanceWriteSucceeded = false from
      hwrite] at h
  | annotate => exact ⟨hs.writes, hs.prepared, hs.recorded⟩
  | accept hp ha hrecord hcontext =>
    obtain ⟨hrecording, hpersist⟩ := Bool.and_eq_true_iff.mp hrecord
    obtain ⟨-, hkey, hvalue, -⟩ := hcoherent.prepared_eq hp
    refine ⟨writes_log hs.writes fun _ => ?_, hs.prepared, fun _ _ => ?_⟩
    · refine isLawful_entry hs hp hpersist rfl rfl ?_ (fun _ => hrecording) (fun h => by cases h)
      rintro text htext
      rw [List.mem_singleton.mp htext, ← hkey, ← hvalue]
      exact (hs.prepared hp).2
    · rw [show (s.recordPendingAccepted _).prepared = s.prepared from rfl, hcontext]
      exact hrecording
  | learn hp ha _ hmove =>
    cases hmove with
    | @intro call hlearn hlearning htexts =>
      obtain ⟨huse, hpersist⟩ := Bool.and_eq_true_iff.mp hlearn
      refine ⟨writes_log hs.writes fun _ => ?_, hs.prepared, hs.recorded⟩
      obtain ⟨hblock, hrollback, hverdict⟩ := FeedbackCall.isLearning_only hlearning
      refine isLawful_entry hs hp hpersist hblock hrollback htexts (fun h => ?_) fun _ => huse
      simp [hverdict] at h
  | observe hp => exact ⟨writes_log hs.writes nofun, hs.prepared, hs.recorded⟩
  | confirm =>
    refine isDiscreet_clear (writes_logAll (fun call hcall => ?_) hs.writes)
    obtain ⟨revertId, -, rfl⟩ := List.mem_map.mp hcall
    rfl
  | takeBack hp => exact isDiscreet_clear (rollBack_writes hs hp hcoherent _)
  | conclude hp _ _ _ hrecord hconclusion =>
    obtain ⟨hrecording, hpersist⟩ := Bool.and_eq_true_iff.mp hrecord
    obtain ⟨-, hkey, hvalue, -⟩ := hcoherent.prepared_eq hp
    have hpublic := (hs.prepared hp).2
    rw [hkey, hvalue] at hpublic
    refine isDiscreet_clear (writes_log hs.writes fun _ => ?_)
    cases hconclusion with
    | accepted =>
      refine isLawful_entry hs hp hpersist rfl rfl ?_ (fun _ => hrecording) (fun h => by cases h)
      rintro text htext
      rw [List.mem_singleton.mp htext]
      exact hpublic
    | rejected =>
      refine isLawful_entry hs hp hpersist rfl rfl ?_ (fun _ => hrecording) (fun h => by cases h)
      rintro text htext
      rw [List.mem_singleton.mp htext]
      exact hpublic
  | leave => exact isDiscreet_clear hs.writes
  | block hpersist hpublic =>
    refine ⟨fun entry hentry hwrite => ?_, hs.prepared, hs.recorded⟩
    rcases List.mem_cons.mp hentry with rfl | hentry
    · exact isLawful_block hpersist hpublic
    · exact hs.writes entry hentry hwrite

/-! ## Runs -/

/-- No record is pending, and nothing has been asked. -/
def IsFresh (s : FeedbackSession) : Prop := s.pendingZenzFeedback = {} ∧ s.journal = []

theorem IsFresh.coherent (h : s.IsFresh) : s.IsCoherent where
  number_le := by simp [h.2]
  holder := by simp [h.1]
  prepared_eq := by simp [h.1]

variable {converts : ZenzLiveRequest → ZenzLiveResponse → Prop}
  {path : List (Transition FeedbackSession FeedbackEvent)}

/-- **All that a session ever writes for corrections is lawful.** -/
theorem writes_are_lawful (hs : s.IsFresh) (h : Path (FeedbackStep services converts) s path t) :
    ∀ entry ∈ t.journal, entry.call.isWrite = true → entry.IsLawful := by
  have hdiscreet : s.IsDiscreet :=
    ⟨by simp [hs.2], by simp [hs.1], by simp [hs.1]⟩
  have hmove : ∀ t u : FeedbackSession, t.IsCoherent → t.IsDiscreet →
      FeedbackMove (fun _ => True) t u → u.IsDiscreet :=
    fun _ _ hcoherent hdiscreet hmove => FeedbackMove.discreet hmove hcoherent hdiscreet
  exact (invariant_of_moves hmove h hs.coherent hdiscreet fun _ _ _ => trivial).writes

/-- A correction that is shown. -/
def shown : VisibleCorrection where
  generation := 1
  key := utf8 "き"
  displayKey := utf8 "き"
  value := utf8 "木"
  mozcValue := utf8 "気"
  contextClass := utf8 "empty"

def showing (context : InputContext) : FeedbackSession where
  live :=
    { imeState := .conversion
      liveConversionActive := true
      liveConversionKey := shown.key
      liveConversionValue := shown.mozcValue
      zenzLiveGeneration := 1
      zenzLive := shown }
  context

/-- The history of the converter has room for one handle at a time. -/
def oneHandle : LearningServices where
  recordAccepted := fun _ _ _ _ => true
  learnResult := fun _ _ _ => true
  learnResultReversibly := fun journal _ _ =>
    if (journal.filterMap (·.call.handle)).length ≤ (journal.filterMap (·.call.confirmed)).length +
      (journal.filterMap (·.call.reverted)).length then 7 else 0
  learnSegments := fun _ _ => true
  learnSegmentsReversibly := fun _ _ => 0

def recordingOnly : InputContext := { config := { useZenzFeedbackRecording := true } }

/-- A correction is committed. -/
theorem writes_are_lawful_commit :
    ∃ entry ∈ ((showing recordingOnly).perform oneHandle (.commit {} {})).journal,
      entry.call.isVerdict = true ∧ entry.IsLawful := by
  have hany : ((showing recordingOnly).perform oneHandle (.commit {} {})).journal.any
      (·.call.isVerdict) = true := by decide +kernel
  obtain ⟨entry, hentry, hverdict⟩ := List.any_eq_true.mp hany
  refine ⟨entry, hentry, hverdict, ?_⟩
  refine @writes_are_lawful oneHandle _ _ (fun _ _ => False) _ ⟨rfl, rfl⟩
    (.tail .refl .operation) entry hentry ?_
  simp [FeedbackCall.isWrite, hverdict]

/-- Recording is switched off between the commit and its rollback. -/
def switchedOff : FeedbackSession :=
  { (showing recordingOnly).perform oneHandle (.commit {} {}) with context := {} }

/-- **A rollback is recorded though nothing may be recorded anymore.** -/
theorem rollback_without_recording :
    ¬∀ (services : LearningServices) (converts : ZenzLiveRequest → ZenzLiveResponse → Prop)
      (s t : FeedbackSession) (path : List (Transition FeedbackSession FeedbackEvent)), s.IsFresh →
      Path (FeedbackStep services converts) s path t →
      ∀ entry ∈ t.journal, entry.call.isVerdict = true ∨ entry.call.isRollback = true →
        entry.context.config.useZenzFeedbackRecording = true := by
  intro hall
  have hany : (switchedOff.perform oneHandle (.discard (utf8 "echo_back_discard_key"))).journal.any
      (fun entry => entry.call.isRollback && !entry.context.config.useZenzFeedbackRecording)
        = true := by decide +kernel
  obtain ⟨entry, hentry, hcall⟩ := List.any_eq_true.mp hany
  obtain ⟨hrollback, hrecording⟩ := Bool.and_eq_true_iff.mp hcall
  have := hall oneHandle (fun _ _ => False) (showing recordingOnly) _ _ ⟨rfl, rfl⟩
    (((Infra.Path.refl.tail .operation).tail
      (.settings : FeedbackStep oneHandle (fun _ _ => False) _ (.settings {}) _)).tail .operation)
    entry hentry (.inr hrollback)
  simp [this] at hrecording

end FeedbackSession

end Mozkey.Session
