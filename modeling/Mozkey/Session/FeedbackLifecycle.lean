import Mozkey.Session.FeedbackOperations

/-!
# The life of a pending record

What becomes of a pending record, one move at a time: it is prepared, an acceptance is recorded and
learned, a comparison observes its final value, and in the end it is confirmed, taken back,
concluded or left.

* `FeedbackStep.moves` — every step of a session consists of such moves
* `FeedbackMove.coherent` — every move keeps what all the operations rely on
-/

namespace Mozkey.Session.FeedbackSession

open Infra Zenz Relation

/-- What is written where a comparison is concluded. -/
inductive IsConclusion (pending : PendingZenzFeedback) : FeedbackCall → Prop where
  | accepted {appended : Bool} :
      pending.finalCommittedValue = pending.value →
      IsConclusion pending
        (.recordAccepted pending.key pending.contextClass pending.value appended)
  | rejected :
      pending.finalCommittedValue ≠ pending.value →
      IsConclusion pending
        (.recordRejected pending.key pending.contextClass pending.value pending.reason)

/-- One thing that becomes of the pending record. A record is prepared where `keeps` holds. -/
inductive FeedbackMove (keeps : FeedbackSession → Prop) (s : FeedbackSession) :
    FeedbackSession → Prop where
  | live {live : LiveState} : FeedbackMove keeps s { s with live }
  | settings {context : InputContext} : FeedbackMove keeps s { s with context }
  | prepare {feedback : PendingZenzFeedback} :
      keeps s → feedback.pending = true → feedback.action ≠ .none →
      feedback.hasFinalCommittedValue = false →
      feedback.feedbackAcceptanceWriteSucceeded = false → feedback.mozcHistoryRevertIds = [] →
      s.context.canPersistZenzLearningFromInput = true → IsPublic (feedback.key, feedback.value) →
      FeedbackMove keeps s (s.prepare feedback)
  /-- The segments are set, or the commit point is reached. -/
  | annotate {changed : List (Bytes × Bytes)} {projected : List ZenzProjectedLearningSegment}
      {applied : Bool} :
      (s.pendingZenzFeedback.mozcHistoryLearningApplied = true → applied = true) →
      FeedbackMove keeps s { s with
        pendingZenzFeedback := { s.pendingZenzFeedback with
          reverseLearningSegments := changed
          reverseProjectedLearningSegments := projected
          mozcHistoryLearningApplied := applied } }
  | accept {services : LearningServices} :
      s.pendingZenzFeedback.pending = true → s.pendingZenzFeedback.action = .accepted →
      s.context.canRecordZenzFeedback = true → s.prepared.context = s.context →
      FeedbackMove keeps s (s.recordPendingAccepted services)
  | learn {reversible : Bool} {t : FeedbackSession} :
      s.pendingZenzFeedback.pending = true → s.pendingZenzFeedback.action = .accepted →
      (reversible = true → s.pendingZenzFeedback.mozcHistoryLearningApplied = true) →
      LearnMove reversible s t → FeedbackMove keeps s t
  | observe {value key : Bytes} :
      s.pendingZenzFeedback.pending = true →
      s.pendingZenzFeedback.action = .compareFinalCommit →
      FeedbackMove keeps s (s.observed value key)
  | confirm : FeedbackMove keeps s s.confirmAll.clear
  | takeBack {reason : Bytes} :
      s.pendingZenzFeedback.pending = true → s.pendingZenzFeedback.action = .accepted →
      FeedbackMove keeps s (s.revertAll.rollBack reason).clear
  | conclude {call : FeedbackCall} :
      s.pendingZenzFeedback.pending = true →
      s.pendingZenzFeedback.action = .compareFinalCommit →
      s.pendingZenzFeedback.hasFinalCommittedValue = true →
      (s.pendingZenzFeedback.requireFinalCommittedKeyMatch = true →
        s.pendingZenzFeedback.finalCommittedKey = s.pendingZenzFeedback.key) →
      s.context.canRecordZenzFeedback = true → IsConclusion s.pendingZenzFeedback call →
      FeedbackMove keeps s (s.log call).clear
  | leave : s.pendingZenzFeedback.mozcHistoryRevertIds = [] → FeedbackMove keeps s s.clear
  | block {key contextClass value : Bytes} :
      s.context.canPersistZenzLearningFromInput = true → IsPublic (key, value) →
      FeedbackMove keeps s { s with
        journal := ⟨none, s.context, .recordManualBlock key contextClass value⟩ :: s.journal }

/-- What holds between the pending record and the journal whatever a session does. -/
structure IsCoherent (s : FeedbackSession) : Prop where
  number_le : ∀ entry ∈ s.journal, ∀ record, entry.record = some record →
    record.number ≤ s.prepared.number
  holder : s.pendingZenzFeedback.mozcHistoryRevertIds ≠ [] →
    s.pendingZenzFeedback.pending = true ∧ s.pendingZenzFeedback.action = .accepted ∧
      s.pendingZenzFeedback.mozcHistoryLearningApplied = true
  prepared_eq : s.pendingZenzFeedback.pending = true →
    s.prepared.feedback.action = s.pendingZenzFeedback.action ∧
      s.prepared.feedback.key = s.pendingZenzFeedback.key ∧
      s.prepared.feedback.value = s.pendingZenzFeedback.value ∧
      s.prepared.feedback.requireFinalCommittedKeyMatch =
        s.pendingZenzFeedback.requireFinalCommittedKeyMatch

variable {keeps : FeedbackSession → Prop} {services : LearningServices} {s t : FeedbackSession}

/-! ## Moves keep the record and the journal coherent -/

theorem number_le_log (h : ∀ entry ∈ s.journal, ∀ record, entry.record = some record →
    record.number ≤ s.prepared.number) (call : FeedbackCall) :
    ∀ entry ∈ (s.log call).journal, ∀ record, entry.record = some record →
      record.number ≤ s.prepared.number := by
  intro entry hentry record hrecord
  rcases List.mem_cons.mp hentry with rfl | hentry
  · cases hrecord
    exact Nat.le_refl _
  · exact h entry hentry record hrecord

theorem number_le_logAll (calls : List FeedbackCall) (h : ∀ entry ∈ s.journal,
    ∀ record, entry.record = some record → record.number ≤ s.prepared.number) :
    ∀ entry ∈ (s.logAll calls).journal, ∀ record, entry.record = some record →
      record.number ≤ s.prepared.number := by
  intro entry hentry record hrecord
  rw [logAll_eq] at hentry
  rcases List.mem_append.mp hentry with hentry | hentry
  · obtain ⟨call, -, rfl⟩ := List.mem_map.mp (List.mem_reverse.mp hentry)
    cases hrecord
    exact Nat.le_refl _
  · exact h entry hentry record hrecord

@[simp] theorem logAll_prepared (calls : List FeedbackCall) :
    (s.logAll calls).prepared = s.prepared := by rw [logAll_eq]

@[simp] theorem logAll_context (calls : List FeedbackCall) :
    (s.logAll calls).context = s.context := by rw [logAll_eq]

@[simp] theorem logAll_pendingZenzFeedback (calls : List FeedbackCall) :
    (s.logAll calls).pendingZenzFeedback = s.pendingZenzFeedback := by rw [logAll_eq]

/-- A record that is not there anymore holds nothing. -/
theorem isCoherent_clear (h : ∀ entry ∈ s.journal, ∀ record, entry.record = some record →
    record.number ≤ s.prepared.number) : s.clear.IsCoherent where
  number_le := h
  holder := fun h => absurd rfl h
  prepared_eq := fun h => by cases h

theorem FeedbackMove.coherent (h : FeedbackMove keeps s t) (hs : s.IsCoherent) :
    t.IsCoherent := by
  obtain ⟨hnumber, hholder, hprepared⟩ := hs
  cases h with
  | live => exact ⟨hnumber, hholder, hprepared⟩
  | settings => exact ⟨hnumber, hholder, hprepared⟩
  | prepare _ _ _ _ _ hids =>
    refine ⟨fun entry hentry record hrecord => ?_, fun h => absurd hids h,
      fun _ => ⟨rfl, rfl, rfl, rfl⟩⟩
    exact Nat.le_succ_of_le (hnumber entry hentry record hrecord)
  | annotate happlied =>
    refine ⟨hnumber, fun h => ?_, hprepared⟩
    obtain ⟨hp, ha, happ⟩ := hholder h
    exact ⟨hp, ha, happlied happ⟩
  | accept => exact ⟨number_le_log hnumber _, hholder, hprepared⟩
  | @learn reversible _ hp ha hrev hmove =>
    cases hmove with
    | @intro call _ _ _ hhandle =>
      refine ⟨number_le_log hnumber _, fun hids => ⟨hp, ha, ?_⟩, hprepared⟩
      cases reversible with
      | true => exact hrev rfl
      | false =>
        have hids' : s.pendingZenzFeedback.mozcHistoryRevertIds ≠ [] := by
          simpa [learned, hhandle rfl] using hids
        exact (hholder hids').2.2
  | observe => exact ⟨number_le_log hnumber _, hholder, hprepared⟩
  | confirm => exact isCoherent_clear (by simpa [confirmAll] using number_le_logAll _ hnumber)
  | takeBack =>
    refine isCoherent_clear ?_
    have hrevert : ∀ entry ∈ s.revertAll.journal, ∀ record, entry.record = some record →
        record.number ≤ s.revertAll.prepared.number := by
      simpa [revertAll] using number_le_logAll _ hnumber
    unfold rollBack
    split
    · exact number_le_log hrevert _
    · exact hrevert
  | conclude => exact isCoherent_clear (number_le_log hnumber _)
  | leave => exact isCoherent_clear hnumber
  | block =>
    refine ⟨fun entry hentry record hrecord => ?_, hholder, hprepared⟩
    rcases List.mem_cons.mp hentry with rfl | hentry
    · cases hrecord
    · exact hnumber entry hentry record hrecord

/-! ## Operations are made of moves -/

/-- Learning changes the ids and the journal. -/
theorem Learns.pending_eq {reversible : Bool} (h : Learns reversible s t) :
    t.pendingZenzFeedback.pending = s.pendingZenzFeedback.pending ∧
      t.pendingZenzFeedback.action = s.pendingZenzFeedback.action ∧
      t.pendingZenzFeedback.mozcHistoryLearningApplied =
        s.pendingZenzFeedback.mozcHistoryLearningApplied ∧
      (reversible = false → t.pendingZenzFeedback.mozcHistoryRevertIds =
        s.pendingZenzFeedback.mozcHistoryRevertIds) := by
  induction h with
  | refl => exact ⟨rfl, rfl, rfl, fun _ => rfl⟩
  | tail _ hlast ih =>
    obtain ⟨hp, ha, happ, hids⟩ := ih
    cases hlast with
    | intro _ _ _ hhandle =>
      refine ⟨hp, ha, happ, fun hrev => ?_⟩
      simpa [learned, log, hhandle hrev] using hids hrev

theorem Learns.moves {reversible : Bool} (h : Learns reversible s t)
    (hp : s.pendingZenzFeedback.pending = true) (ha : s.pendingZenzFeedback.action = .accepted)
    (happ : reversible = true → s.pendingZenzFeedback.mozcHistoryLearningApplied = true) :
    ReflTransGen (FeedbackMove keeps) s t := by
  induction h with
  | refl => exact .refl
  | tail hbefore hlast ih =>
    obtain ⟨hp', ha', happ', -⟩ := Learns.pending_eq hbefore
    exact ih.tail (.learn (hp' ▸ hp) (ha' ▸ ha) (fun hrev => happ' ▸ happ hrev) hlast)

theorem isPublic_of_passesPrivacy {key value : Bytes} (h : passesPrivacy key value = true) :
    IsPublic (key, value) := by
  simp only [passesPrivacy, Bool.and_eq_true] at h
  exact ⟨h.1.2, h.2⟩

theorem canPersist_of_canRecord {context : InputContext}
    (h : context.canRecordZenzFeedback = true) :
    context.canPersistZenzLearningFromInput = true :=
  (Bool.and_eq_true_iff.mp h).2

theorem canPersist_of_canLearn {context : InputContext}
    (h : context.canLearnZenzToMozcHistory = true) :
    context.canPersistZenzLearningFromInput = true :=
  (Bool.and_eq_true_iff.mp h).2

theorem setAccepted_moves (projection : ZenzReverseLearningProjection)
    (key contextClass value : Bytes)
    (hkeeps : s.preparesAcceptance key value = true → keeps s) :
    ReflTransGen (FeedbackMove keeps) s
      (s.setPendingZenzFeedbackAccepted services projection key contextClass value) := by
  unfold setPendingZenzFeedbackAccepted
  split
  · exact .refl
  · next hprepares =>
    rw [Bool.not_eq_true', Bool.not_eq_false] at hprepares
    obtain ⟨hgate, hpublic⟩ := Bool.and_eq_true_iff.mp hprepares
    have hpublic := isPublic_of_passesPrivacy hpublic
    have hpersist : s.context.canPersistZenzLearningFromInput = true := by
      rcases Bool.or_eq_true_iff.mp hgate with h | h
      · exact canPersist_of_canRecord h
      · exact canPersist_of_canLearn h
    have hprepare : FeedbackMove keeps s (s.prepare (s.acceptedRecord key contextClass value)) :=
      .prepare (hkeeps hprepares) rfl nofun rfl rfl rfl hpersist hpublic
    dsimp only
    split
    · next hlearn =>
      -- without learning there is something to be recorded
      have hrecord : s.context.canRecordZenzFeedback = true := by
        rw [Bool.not_eq_true'] at hlearn
        simpa [hlearn] using hgate
      exact ReflTransGen.tail (.single hprepare) (.accept rfl rfl hrecord rfl)
    · have hsegments : FeedbackMove keeps (s.prepare (s.acceptedRecord key contextClass value))
          ((s.prepare (s.acceptedRecord key contextClass value)).setLearningSegments projection) :=
        .annotate nofun
      refine ReflTransGen.head hprepare (.head hsegments ?_)
      split
      · next hrecord => exact .single (.accept rfl rfl hrecord rfl)
      · exact .refl

theorem setComparison_moves (key contextClass value reason : Bytes) (require : Bool)
    (hkeeps : s.preparesComparison key value = true → keeps s) :
    ReflTransGen (FeedbackMove keeps) s
      (s.setPendingZenzFeedbackComparison key contextClass value reason require) := by
  unfold setPendingZenzFeedbackComparison
  split
  · exact .refl
  · next hprepares =>
    rw [Bool.not_eq_true', Bool.not_eq_false] at hprepares
    obtain ⟨hgate, hpublic⟩ := Bool.and_eq_true_iff.mp hprepares
    exact .single (.prepare (hkeeps hprepares) rfl nofun rfl rfl rfl
      (canPersist_of_canRecord hgate) (isPublic_of_passesPrivacy hpublic))

theorem setRejected_moves (reason : Bytes)
    (hkeeps : (s.live.hasVisibleZenzLiveCorrection &&
      s.preparesComparison s.live.zenzLive.key s.live.zenzLive.value) = true → keeps s) :
    ReflTransGen (FeedbackMove keeps) s (s.setPendingZenzFeedbackRejected reason) := by
  unfold setPendingZenzFeedbackRejected
  split
  · exact .refl
  · next hvisible =>
    rw [Bool.not_eq_true', Bool.not_eq_false] at hvisible
    exact setComparison_moves _ _ _ _ _ fun h => hkeeps (by rw [hvisible, h]; rfl)

theorem observe_moves (output : Output) :
    ReflTransGen (FeedbackMove keeps) s
      (s.observePendingZenzFeedbackCommittedResult output) := by
  unfold observePendingZenzFeedbackCommittedResult
  split
  · exact .refl
  · next hpending =>
    simp only [Bool.not_eq_true, Bool.or_eq_false_iff, Bool.not_eq_false', bne_eq_false_iff_eq]
      at hpending
    split
    · exact .refl
    · split
      · exact .refl
      · split
        · exact .refl
        · split
          · exact .refl
          · exact .single (.observe hpending.1 hpending.2)

theorem capture_moves (key value : Bytes) :
    ReflTransGen (FeedbackMove keeps) s (s.captureFinalCommittedValue key value) := by
  unfold captureFinalCommittedValue
  split
  · next h =>
    simp only [Bool.and_eq_true, beq_iff_eq] at h
    exact .single (.observe h.1.1.1 h.1.1.2)
  · exact .refl

/-- An acceptance that was not learned at a commit point holds nothing. -/
theorem IsCoherent.ids_eq_nil (hs : s.IsCoherent)
    (h : s.pendingZenzFeedback.action ≠ .accepted ∨
      s.pendingZenzFeedback.mozcHistoryLearningApplied = false) :
    s.pendingZenzFeedback.mozcHistoryRevertIds = [] := by
  by_contra hids
  obtain ⟨-, ha, happ⟩ := hs.holder hids
  rcases h with h | h
  · exact h ha
  · simp [happ] at h

theorem conclude_moves (hs : s.IsCoherent) (hp : s.pendingZenzFeedback.pending = true)
    (ha : s.pendingZenzFeedback.action = .compareFinalCommit)
    (hrecord : s.context.canRecordZenzFeedback = true) :
    ReflTransGen (FeedbackMove keeps) s (s.concludeComparison services).clear := by
  have hids := hs.ids_eq_nil (.inl (by rw [ha]; nofun))
  unfold concludeComparison
  dsimp only
  split
  · exact .single (.leave hids)
  · next hfinal =>
    rw [Bool.not_eq_true', Bool.not_eq_false] at hfinal
    split
    · exact .single (.leave hids)
    · next hmatch =>
      have hkey : s.pendingZenzFeedback.requireFinalCommittedKeyMatch = true →
          s.pendingZenzFeedback.finalCommittedKey = s.pendingZenzFeedback.key := by
        intro hrequire
        simpa [hrequire] using hmatch
      split
      · next hvalue =>
        exact .single (.conclude hp ha hfinal hkey hrecord (.accepted (beq_iff_eq.mp hvalue)))
      · next hvalue =>
        exact .single (.conclude hp ha hfinal hkey hrecord
          (.rejected fun h => hvalue (beq_iff_eq.mpr h)))

theorem confirm_moves (hs : s.IsCoherent) :
    ReflTransGen (FeedbackMove keeps) s (s.confirmPendingZenzFeedback services) := by
  unfold confirmPendingZenzFeedback
  split
  · exact .refl
  · next hp =>
    rw [Bool.not_eq_true', Bool.not_eq_false] at hp
    split
    · exact .single .confirm
    · split
      · next ha =>
        split
        · exact .single .confirm
        · next happ =>
          have hids := hs.ids_eq_nil (.inr (Bool.not_eq_true _ ▸ happ))
          split
          · -- nothing that is learned so late can be taken back
            have hlearns := @learnPending_learns services false s
            refine (Learns.moves hlearns hp ha nofun).tail (.leave ?_)
            rw [(Learns.pending_eq hlearns).2.2.2 rfl, hids]
          · exact .single (.leave hids)
      · next ha =>
        split
        · next hrecord => exact conclude_moves hs hp ha hrecord
        · exact .single (.leave (hs.ids_eq_nil (.inl (by rw [ha]; nofun))))
      · next ha => exact .single (.leave (hs.ids_eq_nil (.inl (by rw [ha]; nofun))))

theorem discard_moves (hs : s.IsCoherent) (reason : Bytes) :
    ReflTransGen (FeedbackMove keeps) s (s.discardPendingZenzFeedback reason) := by
  unfold discardPendingZenzFeedback
  split
  · exact .refl
  · next hp =>
    rw [Bool.not_eq_true', Bool.not_eq_false] at hp
    split
    · next ha =>
      rw [beq_iff_eq] at ha
      split
      · exact .single (.takeBack hp ha)
      · next happ =>
        have hids := hs.ids_eq_nil (.inr (Bool.not_eq_true _ ▸ happ))
        have hrevert : s.revertAll = s := by simp [revertAll, hids, logAll]
        have htake : FeedbackMove keeps s (s.revertAll.rollBack reason).clear := .takeBack hp ha
        rw [hrevert] at htake
        exact .single htake
    · next ha => exact .single (.leave (hs.ids_eq_nil (.inl fun h => ha (beq_iff_eq.mpr h))))

theorem apply_moves :
    ReflTransGen (FeedbackMove keeps) s
      (s.applyPendingZenzAcceptedMozcHistoryLearning services) := by
  unfold applyPendingZenzAcceptedMozcHistoryLearning
  split
  · exact .refl
  · next h =>
    simp only [Bool.not_eq_true, Bool.or_eq_false_iff, Bool.not_eq_false', bne_eq_false_iff_eq]
      at h
    have hannotate : FeedbackMove keeps s { s with
        pendingZenzFeedback :=
          { s.pendingZenzFeedback with mozcHistoryLearningApplied := true } } :=
      .annotate fun _ => rfl
    dsimp only
    split
    · exact .single hannotate
    · refine ReflTransGen.head hannotate ?_
      exact Learns.moves (learnPending_learns _) h.1.1.1 h.1.1.2 fun _ => rfl

theorem commitString_moves (key preedit : Bytes) (output : Output) :
    ReflTransGen (FeedbackMove keeps) s (s.commitStringDirectly key preedit output) := by
  unfold commitStringDirectly
  split
  · exact .refl
  · exact ReflTransGen.head .live (observe_moves _)

theorem commitAccepted_moves (projection : ZenzReverseLearningProjection)
    (visible : VisibleCorrection) (commitKey commitValue : Bytes) (output : Output)
    (hkeeps : s.preparesAcceptance visible.key visible.value = true → keeps s) :
    ReflTransGen (FeedbackMove keeps) s
      (s.commitAccepted services projection visible commitKey commitValue output) := by
  unfold commitAccepted
  have haccept := @setAccepted_moves _ services _ projection visible.key visible.contextClass
    visible.value hkeeps
  exact ((haccept.tail .live).trans (commitString_moves _ _ _)).trans apply_moves

theorem revertToNormal_moves (recordRejection keepLiveConversion : Bool)
    (hkeeps : recordRejection = true → (s.live.hasVisibleZenzLiveCorrection &&
      s.preparesComparison s.live.zenzLive.key s.live.zenzLive.value) = true → keeps s) :
    ReflTransGen (FeedbackMove keeps) s
      (s.revertZenzLiveCorrectionToNormalConversion recordRejection keepLiveConversion) := by
  unfold revertZenzLiveCorrectionToNormalConversion
  split
  · exact .refl
  · have hreject : ReflTransGen (FeedbackMove keeps) s
        (if recordRejection then
          s.setPendingZenzFeedbackRejected (utf8 "space_revert_zenz_to_mozc") else s) := by
      split
      · next hrecord => exact setRejected_moves _ (hkeeps hrecord)
      · exact .refl
    exact hreject.tail .live

theorem block_moves (keepLiveConversion : Bool) :
    ReflTransGen (FeedbackMove keeps) s (s.blockVisibleZenzCorrection keepLiveConversion) := by
  unfold blockVisibleZenzCorrection
  split
  · exact .refl
  · refine ReflTransGen.trans ?_ (revertToNormal_moves false keepLiveConversion nofun)
    unfold recordManualBlock
    split
    · next h =>
      simp only [Bool.and_eq_true] at h
      exact .single (.block h.1.1 ⟨h.1.2, h.2⟩)
    · exact .refl

theorem perform_moves (hs : s.IsCoherent) {operation : FeedbackOperation}
    (hkeeps : s.prepares operation = true → keeps s) :
    ReflTransGen (FeedbackMove keeps) s (s.perform services operation) := by
  cases operation with
  | commit projection output =>
    simp only [perform, commitZenzLiveCorrectionResult]
    split
    · exact .refl
    · next hvisible =>
      rw [Bool.not_eq_true', Bool.not_eq_false] at hvisible
      exact commitAccepted_moves _ _ _ _ _ fun h => hkeeps (by simp [prepares, hvisible, h])
  | directCommit projection visible commitKey commitValue output =>
    exact commitAccepted_moves _ _ _ _ _ hkeeps
  | compare key contextClass value reason require => exact setComparison_moves _ _ _ _ _ hkeeps
  | reject reason => exact setRejected_moves _ hkeeps
  | revertToMozc keepLiveConversion => exact revertToNormal_moves _ _ fun _ => hkeeps
  | block keepLiveConversion => exact block_moves _
  | observe output => exact observe_moves _
  | capture key value => exact capture_moves _ _
  | confirm => exact confirm_moves hs
  | discard reason => exact discard_moves hs _
  | keyEvent =>
    simp only [perform, handlePendingZenzFeedbackForKeyEvent]
    split
    · exact .refl
    · split
      · exact .refl
      · exact confirm_moves hs
  | sessionCommand type =>
    simp only [perform, handlePendingZenzFeedbackForSessionCommand]
    split
    · exact discard_moves hs _
    · exact discard_moves hs _
    · exact confirm_moves hs
    · exact .refl

/-- The event writes a new pending record. -/
def preparesOn (s : FeedbackSession) : FeedbackEvent → Bool
  | .operation operation => s.prepares operation
  | _ => false

variable {converts : ZenzLiveRequest → ZenzLiveResponse → Prop}

/-- **Every step of a session consists of moves.** -/
theorem FeedbackStep.moves {event : FeedbackEvent} (h : FeedbackStep services converts s event t)
    (hs : s.IsCoherent) (hkeeps : s.preparesOn event = true → keeps s) :
    ReflTransGen (FeedbackMove keeps) s t := by
  cases h with
  | settings => exact .single .settings
  | live => exact .single .live
  | operation => exact perform_moves hs hkeeps

/-- What every move keeps holds of all that a session reaches, if records are prepared only where
`keeps` holds. -/
theorem invariant_of_moves {I : FeedbackSession → Prop}
    (hmove : ∀ t u, t.IsCoherent → I t → FeedbackMove keeps t u → I u)
    {path : List (Transition FeedbackSession FeedbackEvent)}
    (h : Path (FeedbackStep services converts) s path t) (hs : s.IsCoherent) (hI : I s)
    (hkeeps : ∀ x ∈ path, x.source.preparesOn x.event = true → keeps x.source) : I t := by
  have hkept : ∀ t u : FeedbackSession, t.IsCoherent ∧ I t → FeedbackMove keeps t u →
      u.IsCoherent ∧ I u := by
    rintro t u ⟨hcoherent, hIt⟩ hmove'
    exact ⟨hmove'.coherent hcoherent, hmove t u hcoherent hIt hmove'⟩
  refine ((h.restrict hkeeps).invariant_of_refines hkept ?_ ⟨hs, hI⟩).2
  rintro t e u ⟨hcoherent, -⟩ ⟨hstep, hkeep⟩
  exact FeedbackStep.moves hstep hcoherent hkeep

end Mozkey.Session.FeedbackSession
