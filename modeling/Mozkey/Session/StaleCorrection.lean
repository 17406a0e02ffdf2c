import Mozkey.Session.ZenzLiveCorrection

/-!
# No stale correction is shown

Every schedule has a generation of its own, and a request has the generation of its schedule. So
the generation of a response tells which request it answers.

* `Numbered` — the generations of the requests, in every state
* `taken_since_submit` — a response that is taken answers the request of the pending correction
* `takeResult_of_stored` — the response of the pending correction can be taken
-/

namespace Mozkey.Session

open Infra

variable {converts : ZenzLiveRequest → ZenzLiveResponse → Prop}

/-! ## The requests of the corrector -/

/-- The generations of the requests, `below` a bound and in the order of the queue. -/
structure ZenzLiveCorrector.Ordered (below : Nat → Prop) (c : ZenzLiveCorrector) : Prop where
  queued : ∀ request, c.latestRequest = some request → below request.generation
  worker : ∀ request, c.worker.request = some request → below request.generation
  later : ∀ queued request, c.latestRequest = some queued → c.worker.request = some request →
    request.generation < queued.generation
  converted : ∀ request response, c.worker = .converted request response →
    response.generation = request.generation

namespace ZenzLiveCorrector.Ordered

variable {below : Nat → Prop} {c c' : ZenzLiveCorrector}

theorem empty : ({} : ZenzLiveCorrector).Ordered below :=
  ⟨nofun, nofun, nofun, nofun⟩

theorem mono {below' : Nat → Prop} (h : c.Ordered below) (hb : ∀ g, below g → below' g) :
    c.Ordered below' :=
  ⟨fun r hr => hb _ (h.queued r hr), fun r hr => hb _ (h.worker r hr), h.later, h.converted⟩

theorem cancelPending (h : c.Ordered below) : c.cancelPending.Ordered below :=
  ⟨nofun, h.worker, nofun, h.converted⟩

theorem submit {request : ZenzLiveRequest} (h : c.Ordered below)
    (hbelow : below request.generation) (hnew : ∀ g, below g → g ≠ request.generation →
      g < request.generation) (hworker : ∀ r, c.worker.request = some r →
      r.generation ≠ request.generation) : (c.submit request).Ordered below := by
  refine ⟨?_, h.worker, ?_, h.converted⟩
  · intro r hr
    cases hr
    exact hbelow
  · intro queued r hq hr
    cases hq
    exact hnew _ (h.worker r hr) (hworker r hr)

theorem takeResult (h : c.Ordered below) (generation : Nat) :
    (c.takeResult generation).2.Ordered below := by
  refine ⟨?_, ?_, ?_, ?_⟩
  · intro r hr
    rw [takeResult_latestRequest] at hr
    exact h.queued r hr
  · intro r hr
    rw [takeResult_worker] at hr
    exact h.worker r hr
  · intro queued r hq hr
    rw [takeResult_latestRequest] at hq
    rw [takeResult_worker] at hr
    exact h.later queued r hq hr
  · intro r response hr
    rw [takeResult_worker] at hr
    exact h.converted r response hr

theorem step (hcopies : ∀ request response, converts request response →
      response.generation = request.generation) {action : WorkerAction} (h : c.Ordered below)
    (hstep : WorkerStep converts c action c') : c'.Ordered below := by
  cases hstep with
  | @take request hwaiting hrequest =>
    refine ⟨nofun, ?_, nofun, nofun⟩
    intro r hr
    cases hr
    exact h.queued request hrequest
  | @finish request response hconverting hresponse =>
    have hrequest : c.worker.request = some request := by rw [hconverting]; rfl
    refine ⟨h.queued, ?_, ?_, ?_⟩
    · intro r hr
      cases hr
      exact h.worker request hrequest
    · intro queued r hq hr
      cases hr
      exact h.later queued request hq hrequest
    · intro r response' hr
      cases hr
      rcases hresponse with rfl | hconverts
      · rfl
      · exact hcopies _ _ hconverts
  | store _ => exact ⟨h.queued, nofun, nofun, nofun⟩

end ZenzLiveCorrector.Ordered

/-! ## Generations -/

namespace LiveState

/-- A request of generation `g` may be there. -/
def Older (s : LiveState) (g : Nat) : Prop :=
  0 < g ∧ g ≤ s.zenzLiveGeneration ∧
    (s.pendingZenzLive.generation = 0 ∨ g ≤ s.pendingZenzLive.generation) ∧
    (s.pendingZenzLive.pending = true → s.pendingZenzLive.submitted = false →
      g < s.pendingZenzLive.generation)

/-- The pending correction has the last generation, and every request is older. -/
structure Numbered (s : LiveState) : Prop where
  pending_le : s.pendingZenzLive.generation ≤ s.zenzLiveGeneration
  pending_eq : s.pendingZenzLive.pending = true →
    s.pendingZenzLive.generation = s.zenzLiveGeneration ∧ 0 < s.zenzLiveGeneration
  corrector : ∀ c, s.zenzLiveCorrector = some c → c.Ordered s.Older
  taken : s.taken ≠ none →
    s.pendingZenzLive.pending = true ∧ s.pendingZenzLive.submitted = true

theorem Numbered.init : ({} : LiveState).Numbered :=
  ⟨Nat.le_refl _, nofun, nofun, fun h => absurd rfl h⟩

theorem Older.of_reset {s t : LiveState} {g : Nat} (h : s.Older g)
    (hgen : s.zenzLiveGeneration ≤ t.zenzLiveGeneration) (hpending : t.pendingZenzLive = {}) :
    t.Older g := by
  refine ⟨h.1, Nat.le_trans h.2.1 hgen, .inl (by rw [hpending]), ?_⟩
  rw [hpending]
  nofun

theorem Numbered.cancel {s : LiveState} (h : s.Numbered) (htaken : s.taken = none) :
    s.cancelPendingZenzLiveCorrection.Numbered := by
  refine ⟨Nat.zero_le _, nofun, ?_, fun hne => absurd htaken hne⟩
  intro c hc
  obtain ⟨c', hc', rfl⟩ := Option.map_eq_some_iff.mp hc
  exact ((h.corrector c' hc').mono fun g hg => hg.of_reset (Nat.le_succ _) rfl).cancelPending

theorem Numbered.clear {s : LiveState} (h : s.Numbered) (htaken : s.taken = none) :
    s.clearZenzLiveCorrectionState.Numbered :=
  have hcancel := h.cancel htaken
  ⟨hcancel.pending_le, hcancel.pending_eq, hcancel.corrector, hcancel.taken⟩

theorem Numbered.submit {s : LiveState} (h : s.Numbered)
    (hpending : s.pendingZenzLive.pending = true) (hsubmitted : s.pendingZenzLive.submitted = false)
    (htaken : s.taken = none) (config : PollConfig) (now : Nat) :
    (s.submitPending config now).Numbered := by
  refine ⟨h.pending_le, h.pending_eq, ?_, fun hne => absurd htaken hne⟩
  have hordered : (s.zenzLiveCorrector.getD {}).Ordered s.Older := by
    cases hc : s.zenzLiveCorrector with
    | none => exact .empty
    | some c => exact h.corrector c hc
  have hlt : ∀ g, s.Older g → g < s.pendingZenzLive.generation :=
    fun g hg => hg.2.2.2 hpending hsubmitted
  have hnumber := h.pending_eq hpending
  intro c hc
  cases hc
  refine ZenzLiveCorrector.Ordered.submit (hordered.mono fun g hg => ?_) ?_ ?_ ?_
  · exact ⟨hg.1, hg.2.1, hg.2.2.1, nofun⟩
  · exact ⟨Nat.lt_of_lt_of_eq hnumber.2 hnumber.1.symm, h.pending_le, .inr (Nat.le_refl _), nofun⟩
  · intro g hg hne
    rcases hg.2.2.1 with hzero | hle
    · exact absurd (hzero.symm.trans hnumber.1) (Nat.ne_of_lt hnumber.2)
    · exact Nat.lt_of_le_of_ne hle hne
  · intro r hr
    exact Nat.ne_of_lt (hlt _ (hordered.worker r hr))

/-- What polling does. -/
inductive Polled (s : LiveState) : LiveState → Prop where
  | cancel : Polled s s.cancelPendingZenzLiveCorrection
  | takes {c : ZenzLiveCorrector} {response : ZenzLiveResponse} :
      s.zenzLiveCorrector = some c → c.latestResult = some response →
      response.generation = s.pendingZenzLive.generation →
      Polled s { s with
        zenzLiveCorrector := some (c.takeResult s.pendingZenzLive.generation).2
        taken := some response }
  | waits {c : ZenzLiveCorrector} {pollCount : Nat} :
      s.zenzLiveCorrector = some c →
      Polled s { s with
        zenzLiveCorrector := some (c.takeResult s.pendingZenzLive.generation).2
        pendingZenzLive := { s.pendingZenzLive with pollCount } }

/-- Cancelling resets both slots, whether or not a result has been dropped before. -/
theorem cancel_takeResult {s : LiveState} {c : ZenzLiveCorrector}
    (hc : s.zenzLiveCorrector = some c) (generation : Nat) (pending : PendingZenzLiveCorrection) :
    ({ s with
      zenzLiveCorrector := some (c.takeResult generation).2
      pendingZenzLive := pending } : LiveState).cancelPendingZenzLiveCorrection =
      s.cancelPendingZenzLiveCorrection := by
  unfold cancelPendingZenzLiveCorrection ZenzLiveCorrector.cancelPending
  rw [hc]
  simp

theorem polled (config : PollConfig) (now : Nat) (s : LiveState) :
    Polled s (s.pollPending config now) := by
  unfold pollPending
  split
  · exact .cancel
  · next corrector hc =>
    split
    · exact .cancel
    · split
      · next response corrector' htake =>
        have hresult := ZenzLiveCorrector.generation_of_takeResult (congrArg Prod.fst htake)
        have hcorrector : corrector' = (corrector.takeResult s.pendingZenzLive.generation).2 :=
          (congrArg Prod.snd htake).symm
        subst hcorrector
        exact .takes hc hresult.1 hresult.2
      · next corrector' htake =>
        have hcorrector : corrector' = (corrector.takeResult s.pendingZenzLive.generation).2 :=
          (congrArg Prod.snd htake).symm
        subst hcorrector
        dsimp only
        split
        · rw [cancel_takeResult hc]
          exact .cancel
        · exact .waits hc

/-- What a callback does. -/
inductive CalledBack (s : LiveState) : LiveState → Prop where
  | submits {config : PollConfig} {now : Nat} :
      s.pendingZenzLive.pending = true → s.pendingZenzLive.submitted = false →
      CalledBack s (s.submitPending config now)
  | polls {t : LiveState} :
      s.pendingZenzLive.pending = true → s.pendingZenzLive.submitted = true →
      s.liveConversionKey = s.pendingZenzLive.key →
      s.liveConversionValue = s.pendingZenzLive.mozcValue → Polled s t → CalledBack s t
  | clears :
      s.imeState ≠ .conversion →
      CalledBack s { s.clearZenzLiveCorrectionState with liveConversionActive := false }
  | ignores : CalledBack s s

theorem calledBack (generation : Option Nat) (key : Option Bytes) (config : PollConfig)
    (now : Nat) (s : LiveState) :
    CalledBack s (s.applyZenzLiveCorrection generation key config now) := by
  unfold applyZenzLiveCorrection
  split
  · next hcurrent =>
    simp only [isCurrentZenzLiveCorrectionCallback, Bool.and_eq_true, beq_iff_eq] at hcurrent
    obtain ⟨⟨⟨⟨⟨⟨hpending, -⟩, -⟩, -⟩, -⟩, hkey⟩, hvalue⟩ := hcurrent
    unfold advancePendingZenzLiveCorrection
    cases hsubmitted : s.pendingZenzLive.submitted with
    | false => exact .submits hpending hsubmitted
    | true => exact .polls hpending hsubmitted hkey hvalue (polled config now s)
  · unfold endCommand
    split
    · next hstate => exact .clears hstate
    · exact .ignores

theorem Numbered.polled {s t : LiveState} (h : s.Numbered) (hpolled : Polled s t)
    (hpending : s.pendingZenzLive.pending = true) (hsubmitted : s.pendingZenzLive.submitted = true)
    (htaken : s.taken = none) : t.Numbered := by
  cases hpolled with
  | cancel => exact h.cancel htaken
  | @takes c response hc _ _ =>
    refine ⟨h.pending_le, h.pending_eq, ?_, fun _ => ⟨hpending, hsubmitted⟩⟩
    intro c' hc'
    cases hc'
    exact (h.corrector c hc).takeResult _
  | @waits c pollCount hc =>
    refine ⟨h.pending_le, h.pending_eq, ?_, fun hne => absurd htaken hne⟩
    intro c' hc'
    cases hc'
    exact (h.corrector c hc).takeResult _

theorem Numbered.calledBack {s t : LiveState} (h : s.Numbered) (hcalled : CalledBack s t)
    (htaken : s.taken = none) : t.Numbered := by
  cases hcalled with
  | submits hpending hsubmitted => exact h.submit hpending hsubmitted htaken _ _
  | polls hpending hsubmitted _ _ hpolled => exact h.polled hpolled hpending hsubmitted htaken
  | clears _ =>
    have hclear := h.clear htaken
    exact ⟨hclear.pending_le, hclear.pending_eq, hclear.corrector, hclear.taken⟩
  | ignores => exact h

/-- **Every step keeps the generations in order.** -/
theorem Numbered.step (hcopies : ∀ request response, converts request response →
      response.generation = request.generation) {s t : LiveState} {action : LiveAction}
    (h : s.Numbered) (hstep : LiveStep converts s action t) : t.Numbered := by
  cases hstep with
  | edit htaken => exact ⟨h.pending_le, h.pending_eq, h.corrector, h.taken⟩
  | cancel htaken => exact h.cancel htaken
  | clear htaken => exact h.clear htaken
  | applyFeedback htaken =>
    refine ⟨Nat.zero_le _, nofun, ?_, fun hne => absurd htaken hne⟩
    exact fun c hc => (h.corrector c hc).mono fun g hg => hg.of_reset (Nat.le_succ _) rfl
  | schedule htaken =>
    refine ⟨Nat.le_refl _, fun _ => ⟨rfl, Nat.succ_pos _⟩, ?_, fun hne => absurd htaken hne⟩
    refine fun c hc => (h.corrector c hc).mono fun g hg => ?_
    exact ⟨hg.1, Nat.le_succ_of_le hg.2.1, .inr (Nat.le_succ_of_le hg.2.1),
      fun _ _ => Nat.lt_succ_of_le hg.2.1⟩
  | start htaken hpending hsubmitted =>
    unfold advancePendingZenzLiveCorrection
    rw [hsubmitted]
    exact h.submit hpending hsubmitted htaken _ _
  | callback htaken => exact h.calledBack (LiveState.calledBack _ _ _ _ s) htaken
  | @result response adopted htaken _ =>
    cases adopted with
    | none =>
      have hcancel := @Numbered.cancel { s with taken := none }
        ⟨h.pending_le, h.pending_eq, h.corrector, fun hne => absurd rfl hne⟩ rfl
      exact hcancel
    | some adopted =>
      refine ⟨h.pending_le, nofun, ?_, fun hne => absurd rfl hne⟩
      exact fun c hc => (h.corrector c hc).mono fun g hg => ⟨hg.1, hg.2.1, hg.2.2.1, nofun⟩
  | @worker corrector corrector' action hc hworker =>
    refine ⟨h.pending_le, h.pending_eq, ?_, h.taken⟩
    intro c hc'
    cases hc'
    exact (h.corrector corrector hc).step hcopies hworker

end LiveState

/-! ## The request that a response answers -/

/-- `step` hands the request for the pending correction over. -/
def Submits (request : ZenzLiveRequest) (step : Transition LiveState LiveAction) : Prop :=
  ∃ config now, request = step.source.zenzLiveRequest config now ∧
    step.target = step.source.submitPending config now

/-- The worker has converted `request` to `response`. -/
def Converts (request : ZenzLiveRequest) (response : ZenzLiveResponse)
    (step : Transition LiveState LiveAction) : Prop :=
  step.event = .worker (.finish response) ∧
    ∃ c, step.source.zenzLiveCorrector = some c ∧ c.worker = .converting request

/-- Nothing has been cancelled, cleared or scheduled: each would count the generation up. -/
def LeavesPending (step : Transition LiveState LiveAction) : Prop :=
  step.event ≠ .cancel ∧ step.event ≠ .clear ∧
    step.target.zenzLiveGeneration = step.source.zenzLiveGeneration

/-- The corrector since `request` was submitted: what is older answers an older request. -/
structure ZenzLiveCorrector.Serves (request : ZenzLiveRequest)
    (steps : List (Transition LiveState LiveAction)) (c : ZenzLiveCorrector) : Prop where
  queued : ∀ queued, c.latestRequest = some queued → queued = request
  converting : ∀ other, c.worker = .converting other →
    other = request ∨ other.generation < request.generation
  converted : ∀ other response, c.worker = .converted other response →
    (∃ step ∈ steps, Converts request response step) ∨ response.generation < request.generation
  result : ∀ response, c.latestResult = some response →
    (∃ step ∈ steps, Converts request response step) ∨ response.generation < request.generation

namespace ZenzLiveCorrector.Serves

variable {request : ZenzLiveRequest} {steps : List (Transition LiveState LiveAction)}
  {c c' : ZenzLiveCorrector}

theorem more (h : c.Serves request steps) (step : Transition LiveState LiveAction) :
    c.Serves request (steps ++ [step]) := by
  have hmore : ∀ response, (∃ step ∈ steps, Converts request response step) →
      ∃ step' ∈ steps ++ [step], Converts request response step' := by
    rintro response ⟨step', hmem, hconverts⟩
    exact ⟨step', List.mem_append_left _ hmem, hconverts⟩
  exact ⟨h.queued, h.converting, fun o r hr => (h.converted o r hr).imp_left (hmore r),
    fun r hr => (h.result r hr).imp_left (hmore r)⟩

/-- The request has just been submitted. -/
theorem submitted {below : Nat → Prop} (h : c.Ordered below)
    (hbelow : ∀ g, below g → g < request.generation) :
    (c.submit request).Serves request [] := by
  refine ⟨?_, ?_, ?_, nofun⟩
  · intro queued hq
    cases hq
    rfl
  · intro other hother
    have hworker : c.worker = .converting other := hother
    exact .inr (hbelow _ (h.worker other (by rw [hworker]; rfl)))
  · intro other response hother
    have hworker : c.worker = .converted other response := hother
    rw [h.converted other response hworker]
    exact .inr (hbelow _ (h.worker other (by rw [hworker]; rfl)))

theorem takeResult (h : c.Serves request steps) (generation : Nat) :
    (c.takeResult generation).2.Serves request steps := by
  refine ⟨?_, ?_, ?_, ?_⟩
  · intro queued hq
    rw [takeResult_latestRequest] at hq
    exact h.queued queued hq
  · intro other hother
    rw [takeResult_worker] at hother
    exact h.converting other hother
  · intro other response hother
    rw [takeResult_worker] at hother
    exact h.converted other response hother
  · intro response hr
    simp [takeResult_latestResult] at hr

theorem step (hcopies : ∀ request response, converts request response →
      response.generation = request.generation) {s t : LiveState} {action : WorkerAction}
    (h : c.Serves request steps) (hc : s.zenzLiveCorrector = some c)
    (hstep : WorkerStep converts c action c') :
    c'.Serves request (steps ++ [⟨s, .worker action, t⟩]) := by
  have hmore := h.more ⟨s, .worker action, t⟩
  cases hstep with
  | @take other hwaiting hother =>
    refine ⟨nofun, ?_, nofun, hmore.result⟩
    intro r hr
    cases hr
    exact .inl (h.queued other hother)
  | @finish other response hconverting hresponse =>
    have hgen : response.generation = other.generation := by
      rcases hresponse with rfl | hconverts
      · rfl
      · exact hcopies _ _ hconverts
    refine ⟨h.queued, nofun, ?_, hmore.result⟩
    intro r response' hr
    cases hr
    rcases h.converting other hconverting with rfl | hlt
    · exact .inl ⟨_, List.mem_append_right _ (List.mem_singleton_self _), rfl, c, hc, hconverting⟩
    · exact .inr (hgen ▸ hlt)
  | @store other response hconverted =>
    refine ⟨h.queued, nofun, nofun, ?_⟩
    intro response' hr
    cases hr
    exact hmore.converted other response hconverted

end ZenzLiveCorrector.Serves

/-- What is known since `m` has submitted the request of the pending correction. -/
structure Serving (m : Transition LiveState LiveAction)
    (after : List (Transition LiveState LiveAction)) (request : ZenzLiveRequest)
    (s : LiveState) : Prop where
  submits : Submits request m
  generation : request.generation = s.pendingZenzLive.generation
  key : request.key = s.pendingZenzLive.key
  mozcValue : request.mozcValue = s.pendingZenzLive.mozcValue
  corrector : ∃ c, s.zenzLiveCorrector = some c ∧ c.Serves request after
  taken : ∀ response, s.taken = some response →
    (∃ step ∈ after, Converts request response step) ∧
      s.liveConversionKey = s.pendingZenzLive.key ∧
      s.liveConversionValue = s.pendingZenzLive.mozcValue

variable {s : LiveState} {action : LiveAction} {after : List (Transition LiveState LiveAction)}
  {m : Transition LiveState LiveAction} {response : ZenzLiveResponse}

theorem Serving.submitted (h : s.Numbered) (hpending : s.pendingZenzLive.pending = true)
    (hsubmitted : s.pendingZenzLive.submitted = false) (htaken : s.taken = none)
    (config : PollConfig) (now : Nat) :
    Serving ⟨s, action, s.submitPending config now⟩ [] (s.zenzLiveRequest config now)
      (s.submitPending config now) := by
  have hordered : (s.zenzLiveCorrector.getD {}).Ordered s.Older := by
    cases hc : s.zenzLiveCorrector with
    | none => exact .empty
    | some c => exact h.corrector c hc
  refine ⟨⟨config, now, rfl, rfl⟩, rfl, rfl, rfl, ⟨_, rfl, ?_⟩, ?_⟩
  · exact .submitted hordered fun g hg => hg.2.2.2 hpending hsubmitted
  · intro response hr
    have hnone : s.taken = some response := hr
    simp [htaken] at hnone

/-- A step that leaves the pending correction and takes nothing. -/
theorem Serving.keep {step : Transition LiveState LiveAction} {request : ZenzLiveRequest}
    {t : LiveState} (h : Serving m after request s)
    (hpending : t.pendingZenzLive = s.pendingZenzLive)
    (hcorrector : t.zenzLiveCorrector = s.zenzLiveCorrector) (htaken : t.taken = none) :
    Serving m (after ++ [step]) request t := by
  refine ⟨h.submits, hpending ▸ h.generation, hpending ▸ h.key, hpending ▸ h.mozcValue, ?_, ?_⟩
  · obtain ⟨c, hc, hserves⟩ := h.corrector
    exact ⟨c, hcorrector.trans hc, hserves.more step⟩
  · intro response hr
    simp [htaken] at hr

/-- A poll leaves the request that is served, and what it takes answers the request. -/
theorem Serving.polled {request : ZenzLiveRequest} {t : LiveState} (h : Serving m after request s)
    (hpolled : LiveState.Polled s t) (hkey : s.liveConversionKey = s.pendingZenzLive.key)
    (hvalue : s.liveConversionValue = s.pendingZenzLive.mozcValue) (htaken : s.taken = none)
    (hpending : t.pendingZenzLive.pending = true) :
    Serving m (after ++ [⟨s, action, t⟩]) request t := by
  obtain ⟨c, hc, hserves⟩ := h.corrector
  cases hpolled with
  | cancel => cases hpending
  | @takes c' response hc' hresult hgen =>
    cases hc.symm.trans hc'
    refine ⟨h.submits, h.generation, h.key, h.mozcValue, ⟨_, rfl, ?_⟩, ?_⟩
    · exact (hserves.takeResult _).more _
    · intro response' hr
      cases hr
      rcases (hserves.more _).result response hresult with hconverts | hlt
      · exact ⟨hconverts, hkey, hvalue⟩
      · rw [hgen, h.generation] at hlt
        exact absurd hlt (Nat.lt_irrefl _)
  | @waits c' pollCount hc' =>
    cases hc.symm.trans hc'
    refine ⟨h.submits, h.generation, h.key, h.mozcValue, ⟨_, rfl, ?_⟩, ?_⟩
    · exact (hserves.takeResult _).more _
    · intro response hr
      have hnone : s.taken = some response := hr
      simp [htaken] at hnone

/-- A correction is pending and its request has been submitted. -/
def LiveState.Submitted (s : LiveState) : Prop :=
  s.pendingZenzLive.pending = true ∧ s.pendingZenzLive.submitted = true

/-- **A submission is followed by steps that leave the pending correction.** -/
theorem serving_step
    (hcopies : ∀ request response, converts request response →
      response.generation = request.generation) {t : LiveState} (h : s.Numbered)
    (hstep : LiveStep converts s action t) (ht : t.Submitted) :
    (∃ request, Serving ⟨s, action, t⟩ [] request t) ∨
      s.Submitted ∧ LeavesPending ⟨s, action, t⟩ ∧
        ∀ m after, (∃ request, Serving m after request s) →
          ∃ request, Serving m (after ++ [⟨s, action, t⟩]) request t := by
  cases hstep with
  | edit htaken =>
    exact .inr ⟨ht, ⟨nofun, nofun, rfl⟩, fun _ _ ⟨r, hr⟩ => ⟨r, hr.keep rfl rfl htaken⟩⟩
  | cancel _ => cases ht.1
  | clear _ => cases ht.1
  | applyFeedback _ => cases ht.1
  | schedule _ => cases ht.2
  | start htaken hpending hsubmitted =>
    unfold LiveState.advancePendingZenzLiveCorrection
    rw [hsubmitted]
    exact .inl ⟨_, .submitted h hpending hsubmitted htaken _ _⟩
  | @callback generation key config now htaken =>
    have hcalled := LiveState.calledBack generation key config now s
    revert ht hcalled
    generalize s.applyZenzLiveCorrection generation key config now = t
    intro ht hcalled
    cases hcalled with
    | submits hpending hsubmitted =>
      exact .inl ⟨_, .submitted h hpending hsubmitted htaken _ _⟩
    | polls hpending hsubmitted hkey hvalue hpolled =>
      refine .inr ⟨⟨hpending, hsubmitted⟩, ⟨nofun, nofun, ?_⟩, ?_⟩
      · cases hpolled with
        | cancel => cases ht.1
        | takes => rfl
        | waits => rfl
      · exact fun _ _ ⟨r, hr⟩ => ⟨r, hr.polled hpolled hkey hvalue htaken ht.1⟩
    | clears _ => cases ht.1
    | ignores =>
      exact .inr ⟨ht, ⟨nofun, nofun, rfl⟩, fun _ _ ⟨r, hr⟩ => ⟨r, hr.keep rfl rfl htaken⟩⟩
  | @result response adopted htaken _ =>
    cases adopted with
    | none => cases ht.1
    | some _ => cases ht.1
  | @worker c c' action hc hworker =>
    refine .inr ⟨ht, ⟨nofun, nofun, rfl⟩, ?_⟩
    rintro m after ⟨r, hr⟩
    obtain ⟨c₀, hc₀, hserves⟩ := hr.corrector
    cases hc.symm.trans hc₀
    refine ⟨r, hr.submits, hr.generation, hr.key, hr.mozcValue, ⟨c', rfl, ?_⟩, ?_⟩
    · exact hserves.step hcopies hc hworker
    · intro response hresponse
      obtain ⟨⟨step, hmem, hconverts⟩, hlive⟩ := hr.taken response hresponse
      exact ⟨⟨step, List.mem_append_left _ hmem, hconverts⟩, hlive⟩

/-- **A response that is taken answers the request of the pending correction.** -/
theorem taken_since_submit
    (hcopies : ∀ request response, converts request response →
      response.generation = request.generation) {path : List (Transition LiveState LiveAction)}
    (hpath : Path (LiveStep converts) {} path s) (htaken : s.taken = some response) :
    ∃ before m after, path = before ++ m :: after ∧ (∀ v ∈ after, LeavesPending v) ∧
      ∃ request, Serving m after request s := by
  have hnumbered : s.Numbered :=
    hpath.invariant (fun _ _ _ h hstep => h.step hcopies hstep) .init
  have hsubmitted : s.Submitted := hnumbered.taken (by rw [htaken]; nofun)
  exact hpath.since_with (I := LiveState.Numbered) (G := LiveState.Submitted)
    (F := fun m after s => ∃ request, Serving m after request s)
    (fun _ _ _ h hstep => h.step hcopies hstep)
    (fun _ _ _ h hstep hG => serving_step hcopies h hstep hG) .init nofun hsubmitted

/-! ## Stale callbacks -/

/-- **A callback of another generation leaves what is shown.** -/
theorem visibleCorrection_of_stale {generation : Option Nat}
    (hstale : s.pendingZenzLive.pending = true → generation ≠ some s.pendingZenzLive.generation)
    (key : Option Bytes) (config : PollConfig) (now : Nat) :
    (s.applyZenzLiveCorrection generation key config now).visibleCorrection =
      s.visibleCorrection := by
  have hcurrent : ¬s.isCurrentZenzLiveCorrectionCallback generation key = true := by
    intro h
    simp only [LiveState.isCurrentZenzLiveCorrectionCallback, Bool.and_eq_true, beq_iff_eq] at h
    exact hstale h.1.1.1.1.1.1 h.1.1.1.1.1.2
  unfold LiveState.applyZenzLiveCorrection
  rw [if_neg hcurrent]
  unfold LiveState.endCommand
  split
  · next hstate =>
    have hnone : s.visibleCorrection = none := by
      simp [LiveState.visibleCorrection, LiveState.hasVisibleZenzLiveCorrection, hstate]
    rw [hnone]
    rfl
  · rfl

/-! ## A response that can be taken -/

/-- The step neither submits nor cancels, nor does it take a result. -/
def LeavesCorrector (step : Transition LiveState LiveAction) : Prop :=
  (∃ action, step.event = .worker action) ∨
    step.target.zenzLiveCorrector = step.source.zenzLiveCorrector

/-- The generation of the pending correction is counted up, or it is reset. -/
def CountsUp (s t : LiveState) : Prop :=
  s.zenzLiveGeneration ≤ t.zenzLiveGeneration ∧
    (t.pendingZenzLive.generation = s.pendingZenzLive.generation ∨
      t.pendingZenzLive.generation = 0 ∨
      t.pendingZenzLive.generation = s.zenzLiveGeneration + 1)

theorem CountsUp.of_polled {t : LiveState} (h : LiveState.Polled s t) : CountsUp s t := by
  cases h with
  | cancel => exact ⟨Nat.le_succ _, .inr (.inl rfl)⟩
  | takes => exact ⟨Nat.le_refl _, .inl rfl⟩
  | waits => exact ⟨Nat.le_refl _, .inl rfl⟩

theorem CountsUp.of_calledBack {t : LiveState} (h : LiveState.CalledBack s t) :
    CountsUp s t := by
  cases h with
  | submits => exact ⟨Nat.le_refl _, .inl rfl⟩
  | polls _ _ _ _ hpolled => exact .of_polled hpolled
  | clears => exact ⟨Nat.le_succ _, .inr (.inl rfl)⟩
  | ignores => exact ⟨Nat.le_refl _, .inl rfl⟩

theorem CountsUp.of_step {t : LiveState} (h : LiveStep converts s action t) : CountsUp s t := by
  cases h with
  | edit => exact ⟨Nat.le_refl _, .inl rfl⟩
  | cancel => exact ⟨Nat.le_succ _, .inr (.inl rfl)⟩
  | clear => exact ⟨Nat.le_succ _, .inr (.inl rfl)⟩
  | applyFeedback => exact ⟨Nat.le_succ _, .inr (.inl rfl)⟩
  | schedule => exact ⟨Nat.le_succ _, .inr (.inr rfl)⟩
  | start _ _ hsubmitted =>
    unfold LiveState.advancePendingZenzLiveCorrection
    rw [hsubmitted]
    exact ⟨Nat.le_refl _, .inl rfl⟩
  | callback => exact .of_calledBack (LiveState.calledBack _ _ _ _ s)
  | @result _ adopted _ _ =>
    cases adopted with
    | none => exact ⟨Nat.le_succ _, .inr (.inl rfl)⟩
    | some _ => exact ⟨Nat.le_refl _, .inl rfl⟩
  | worker => exact ⟨Nat.le_refl _, .inl rfl⟩

/-- The response is there and the worker has nothing to do, or it is not of the pending
correction. -/
def Kept (response : ZenzLiveResponse) (s : LiveState) : Prop :=
  0 < response.generation ∧ response.generation ≤ s.zenzLiveGeneration ∧
    ((∃ c, s.zenzLiveCorrector = some c ∧ c.latestResult = some response ∧
        c.latestRequest = none ∧ c.worker = .waiting) ∨
      s.pendingZenzLive.generation ≠ response.generation)

theorem Kept.step {t : LiveState} (h : Kept response s) (hstep : LiveStep converts s action t)
    (hleaves : LeavesCorrector ⟨s, action, t⟩) : Kept response t := by
  obtain ⟨hpos, hle, hkept⟩ := h
  have hcounts := CountsUp.of_step hstep
  refine ⟨hpos, Nat.le_trans hle hcounts.1, ?_⟩
  rcases hkept with ⟨c, hc, hresult, hrequest, hworker⟩ | hne
  · rcases hleaves with ⟨wa, rfl⟩ | hsame
    · -- an idle worker without a request cannot act
      cases hstep with
      | worker hc' hwork =>
        cases hc.symm.trans hc'
        cases hwork with
        | take _ hsome => rw [hrequest] at hsome; cases hsome
        | finish hconverting _ => rw [hworker] at hconverting; cases hconverting
        | store hconverted => rw [hworker] at hconverted; cases hconverted
    · exact .inl ⟨c, hsame.trans hc, hresult, hrequest, hworker⟩
  · refine .inr ?_
    rcases hcounts.2 with heq | heq | heq <;> rw [heq]
    · exact hne
    · exact Nat.ne_of_lt hpos
    · exact Nat.ne_of_gt (Nat.lt_succ_of_le hle)

/-- **The response of the pending correction can be taken once it is stored.** -/
theorem takeResult_of_stored
    (hcopies : ∀ request response, converts request response →
      response.generation = request.generation) {before : List (Transition LiveState LiveAction)}
    (hpath : Path (LiveStep converts) {} (before ++ m :: after) s)
    (hstore : m.event = .worker .store) {c : ZenzLiveCorrector}
    (hc : m.target.zenzLiveCorrector = some c) (hresponse : c.latestResult = some response)
    (hcurrent : response.generation = s.pendingZenzLive.generation)
    (hafter : ∀ v ∈ after, LeavesCorrector v) :
    ∃ c, s.zenzLiveCorrector = some c ∧
      (c.takeResult s.pendingZenzLive.generation).1 = some response := by
  obtain ⟨hbefore, hm, hrest⟩ := hpath.of_mem
  have hnumbered : m.source.Numbered :=
    hbefore.invariant (fun _ _ _ h hstep => h.step hcopies hstep) .init
  have hkept : Kept response m.target := by
    obtain ⟨source, event, target⟩ := m
    dsimp only at hstore hc hm hnumbered ⊢
    subst hstore
    cases hm with
    | @worker c₀ c₁ _ hc₀ hwork =>
      cases hc
      have hordered := hnumbered.corrector c₀ hc₀
      cases hwork with
      | @store request response' hconverted =>
        cases hresponse
        have hworker : c₀.worker.request = some request := by rw [hconverted]; rfl
        have hgen := hordered.converted request response hconverted
        have holder := hordered.worker request hworker
        rw [← hgen] at holder
        refine ⟨holder.1, holder.2.1, ?_⟩
        cases hq : c₀.latestRequest with
        | none => exact .inl ⟨_, rfl, rfl, rfl, rfl⟩
        | some queued =>
          -- a newer request belongs to a newer schedule
          have hlater := hordered.later queued request hq hworker
          refine .inr fun heq => ?_
          have heq' : source.pendingZenzLive.generation = response.generation := heq
          rcases (hordered.queued queued hq).2.2.1 with hzero | hle
          · exact Nat.ne_of_lt holder.1 (hzero.symm.trans heq')
          · omega
  have hend := (hrest.restrict hafter).invariant (I := Kept response)
    (fun _ _ _ h hstep => h.step hstep.1 hstep.2) hkept
  rcases hend.2.2 with ⟨c', hc', hresult, -, -⟩ | hne
  · exact ⟨c', hc', hcurrent ▸ ZenzLiveCorrector.takeResult_of_latest hresult⟩
  · exact absurd hcurrent.symm hne

/-- **No stale correction is shown.** A value is shown only where it answers the request that was
submitted for the pending correction, for the key and the value of the live conversion. -/
theorem corrections_are_current (hcopies : ∀ request response, converts request response →
      response.generation = request.generation) :
    (∀ (path : List (Transition LiveState LiveAction)) (s t : LiveState)
        (adopted : LiveState.Adopted),
      Path (LiveStep converts) {} path s → LiveStep converts s (.result (some adopted)) t →
      ∃ response request before m after,
        s.taken = some response ∧ path = before ++ m :: after ∧ Submits request m ∧
        (∃ step ∈ after, Converts request response step) ∧ (∀ step ∈ after, LeavesPending step) ∧
        request.generation = s.pendingZenzLive.generation ∧
        request.key = s.liveConversionKey ∧ request.mozcValue = s.liveConversionValue) ∧
    (∀ (path : List (Transition LiveState LiveAction)) (s t : LiveState) (generation : Nat)
        (key : Option Bytes) (config : PollConfig) (now : Nat),
      Path (LiveStep converts) {} path s →
      LiveStep converts s (.callback (some generation) key config now) t →
      generation < s.zenzLiveGeneration → t.visibleCorrection = s.visibleCorrection) ∧
    (∀ (before after : List (Transition LiveState LiveAction))
        (m : Transition LiveState LiveAction) (s : LiveState) (c : ZenzLiveCorrector)
        (response : ZenzLiveResponse),
      Path (LiveStep converts) {} (before ++ m :: after) s → m.event = .worker .store →
      m.target.zenzLiveCorrector = some c → c.latestResult = some response →
      response.generation = s.pendingZenzLive.generation →
      (∀ step ∈ after, LeavesCorrector step) →
      ∃ c, s.zenzLiveCorrector = some c ∧
        (c.takeResult s.pendingZenzLive.generation).1 = some response) := by
  refine ⟨?_, ?_, ?_⟩
  · intro path s t adopted hpath hstep
    cases hstep with
    | @result response _ htaken _ =>
      obtain ⟨before, m, after, hpath', hleaves, request, hserving⟩ :=
        taken_since_submit hcopies hpath htaken
      obtain ⟨hconverts, hkey, hvalue⟩ := hserving.taken response htaken
      exact ⟨response, request, before, m, after, htaken, hpath', hserving.submits, hconverts,
        hleaves, hserving.generation, hserving.key.trans hkey.symm,
        hserving.mozcValue.trans hvalue.symm⟩
  · intro path s t generation key config now hpath hstep hearlier
    have hnumbered : s.Numbered :=
      hpath.invariant (fun _ _ _ h hstep => h.step hcopies hstep) .init
    cases hstep with
    | callback _ =>
      refine visibleCorrection_of_stale (fun hpending hsame => ?_) key config now
      simp [(hnumbered.pending_eq hpending).1] at hsame
      omega
  · intro before after m s c response hpath hstore hc hresponse hcurrent hafter
    exact takeResult_of_stored hcopies hpath hstore hc hresponse hcurrent hafter

/-! A correction of 感じ is asked for, answered and taken. -/

def kanjiResponse : ZenzLiveResponse := { generation := 1, value := utf8 "漢字", ok := true }

/-- The client answers 漢字. -/
def AnswersKanji (request : ZenzLiveRequest) (response : ZenzLiveResponse) : Prop :=
  response = { kanjiResponse with generation := request.generation }

def kanjiSubmitted : LiveState :=
  ({ imeState := .conversion
     liveConversionActive := true
     liveConversionKey := utf8 "かんじ"
     liveConversionValue := utf8 "感じ" } : LiveState).scheduleZenzLiveCorrection {}
    |>.submitPending {} 0

/-- The worker in the middle of it. -/
def kanjiWith (corrector : ZenzLiveCorrector) : LiveState :=
  { kanjiSubmitted with zenzLiveCorrector := some corrector }

theorem path_kanjiSubmitted :
    ∃ path, Path (LiveStep AnswersKanji) {} path kanjiSubmitted :=
  ⟨_, ((Infra.Path.refl.tail (.edit rfl)).tail (.schedule rfl)).tail (.start rfl rfl rfl)⟩

theorem kanji_is_current :
    (∃ request : ZenzLiveRequest, request.key = utf8 "かんじ" ∧ request.mozcValue = utf8 "感じ" ∧
      ∃ s : LiveState, s.taken = some kanjiResponse ∧
        request.generation = s.pendingZenzLive.generation) ∧
    (kanjiSubmitted.applyZenzLiveCorrection (some 0) none {} 0).visibleCorrection = none ∧
    (ZenzLiveCorrector.takeResult 1 { latestResult := some kanjiResponse }).1 =
      some kanjiResponse := by
  have hcopies : ∀ request response, AnswersKanji request response →
      response.generation = request.generation := by
    rintro request response rfl
    rfl
  have hcurrent := corrections_are_current hcopies
  let request := (kanjiSubmitted.zenzLiveCorrector.bind (·.latestRequest)).getD {}
  have htake : LiveStep AnswersKanji kanjiSubmitted (.worker .take)
      (kanjiWith { worker := .converting request }) := .worker rfl (.take rfl rfl)
  have hfinish : LiveStep AnswersKanji (kanjiWith { worker := .converting request })
      (.worker (.finish kanjiResponse))
        (kanjiWith { worker := .converted request kanjiResponse }) :=
    .worker rfl (.finish rfl (.inr rfl))
  have hstore : LiveStep AnswersKanji (kanjiWith { worker := .converted request kanjiResponse })
      (.worker .store) (kanjiWith { latestResult := some kanjiResponse }) :=
    .worker rfl (.store rfl)
  have hcallback : LiveStep AnswersKanji (kanjiWith { latestResult := some kanjiResponse })
      (.callback (some 1) (some (utf8 "かんじ")) {} 0)
      { kanjiWith {} with taken := some kanjiResponse } := .callback rfl
  have hresult : LiveStep AnswersKanji { kanjiWith {} with taken := some kanjiResponse }
      (.result (some ⟨utf8 "漢字", utf8 "かんじ", []⟩)) _ := .result rfl fun _ => ⟨rfl, rfl⟩
  obtain ⟨path, hpath⟩ := path_kanjiSubmitted
  have hstored := ((hpath.tail htake).tail hfinish).tail hstore
  refine ⟨?_, ?_, ?_⟩
  · obtain ⟨response, request, -, -, -, htaken, -, -, -, -, hgen, hkey, hvalue⟩ :=
      hcurrent.1 _ _ _ _ (hstored.tail hcallback) hresult
    exact ⟨request, hkey, hvalue, _, rfl, hgen⟩
  · exact hcurrent.2.1 _ _ _ 0 none {} 0 hpath (.callback rfl) (by decide)
  · obtain ⟨c, hc, htaken⟩ := hcurrent.2.2 _ []
      ⟨kanjiWith { worker := .converted request kanjiResponse }, .worker .store,
        kanjiWith { latestResult := some kanjiResponse }⟩ _
      { latestResult := some kanjiResponse } kanjiResponse hstored rfl rfl rfl rfl
      (fun _ h => absurd h List.not_mem_nil)
    cases hc
    exact htaken

end Mozkey.Session
