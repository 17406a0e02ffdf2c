import Mozkey.Prediction.HistorySyncRuns

/-!
# What is lost of the history

The flag is cleared after the file was written and without the lock. When a mutator has come in
between, the flag that it set is cleared as well, and its change is not saved (`isSaved_clear`).

A `Load` that was cancelled leaves the flag unset. Nothing but a mutator or `Clear` sets it, and
`Clear` removes the file (`IsUntouched.step`, `IsRemoved.step`).

## Main results

* `saves_lose_nothing` — runs in which no mutator comes in between, and cancelled loads in all runs
* `late_change_is_lost` — a run in which one does
-/

namespace Mozkey.Prediction.HistorySync

open Infra Base

variable {city : City} {legacy : Legacy} {s t : SyncState}

/-! ## In every run -/

/-- A `Load` in its loop has unset the flag, and a `Save` that has written has written its copy. -/
structure IsOrderly (s : SyncState) : Prop where
  filling : ∀ rest, s.syncer = .filling rest → s.needsSync = false
  clearing : ∀ copy, s.syncer = .clearing copy → s.file = some copy

theorem IsOrderly.of_idle (h : s.syncer = .idle) : IsOrderly s :=
  by
  constructor <;> rw [h] <;> exact fun _ => Syncer.noConfusion

@[simp] theorem save_syncer (s : SyncState) : (HistorySync.save s).syncer = s.syncer := by
  unfold HistorySync.save
  split
  · rfl
  · split <;> rfl

theorem IsOrderly.task (hstep : taskStep city legacy s = some t) (h : IsOrderly s) :
    IsOrderly t := by
  cases taskMove_of_step hstep with
  | tested hsyncer => constructor <;> intro _ <;> dsimp only <;> split <;> exact Syncer.noConfusion
  | copied hsyncer hfree => exact ⟨fun _ => Syncer.noConfusion, fun _ => Syncer.noConfusion⟩
  | unlinked hsyncer => exact .of_idle rfl
  | written copy hsyncer hne =>
    exact ⟨fun _ => Syncer.noConfusion, fun _ hs => by rw [Syncer.clearing.inj hs]⟩
  | cleared copy hsyncer => exact .of_idle rfl
  | read hsyncer => exact ⟨fun _ => Syncer.noConfusion, fun _ => Syncer.noConfusion⟩
  | nothingRead hsyncer => exact .of_idle rfl
  | entered proto hsyncer => exact ⟨fun _ _ => rfl, fun _ => Syncer.noConfusion⟩
  | filled rest hsyncer => exact .of_idle rfl
  | put e rest hsyncer => exact ⟨fun _ _ => h.filling _ hsyncer, fun _ => Syncer.noConfusion⟩

theorem IsOrderly.step {e : SyncEvent} (hstep : step city legacy s e = some t)
    (h : IsOrderly s) : IsOrderly t := by
  by_cases htask : e = .task
  · subst htask
    exact h.task hstep
  cases inputMove_of_step hstep htask with
  | enter depth hlock =>
    refine ⟨fun rest hs => ?_, h.clearing⟩
    simp [isFilling, show s.syncer = .filling rest from hs] at hlock
  | change mutation hmutating => exact ⟨h.filling, h.clearing⟩
  | leave input hmutating hopen => exact ⟨h.filling, h.clearing⟩
  | asyncSave hfree hneeds => exact ⟨fun _ => Syncer.noConfusion, fun _ => Syncer.noConfusion⟩
  | noSave => exact h
  | asyncLoad => exact ⟨fun _ => Syncer.noConfusion, fun _ => Syncer.noConfusion⟩
  | noLoad => exact h
  | beginClear => exact ⟨h.filling, h.clearing⟩
  | endClear hidle => exact .of_idle (by rw [save_syncer]; exact hidle)
  | beginClose canceled => exact ⟨h.filling, h.clearing⟩
  | endClose hidle =>
    have hsaved : (HistorySync.save s).syncer = .idle := (save_syncer s).trans hidle
    exact .of_idle hsaved

variable {file : Option (List FileEntry)}

theorem isOrderly_of_path {path : List (Transition SyncState SyncEvent)}
    (h : Path (Step city legacy) (constructed file) path s) : IsOrderly s :=
  h.invariant (fun _ _ _ ht hstep => IsOrderly.step hstep ht)
    ⟨fun _ => Syncer.noConfusion, fun _ => Syncer.noConfusion⟩

/-- **What a `Save` leaves behind when it clears the flag.** -/
theorem isSaved_clear {copy : List FileEntry} (h : IsOrderly s)
    (hsyncer : s.syncer = .clearing copy)
    (hstep : step city legacy s .task = some t) :
    t.syncer = .idle ∧ t.needsSync = false ∧
      (IsSaved city legacy t ↔ (loadDic city legacy (some copy)).entries = kept s.dic) := by
  have htask : taskStep city legacy s = some t := hstep
  rw [taskStep, hsyncer] at htask
  cases htask
  refine ⟨rfl, rfl, ?_⟩
  show (loadDic city legacy s.file).entries = kept s.dic ↔ _
  rw [h.clearing copy hsyncer]

/-! ## After a cancelled load -/

/-- The task is in the loop of a `Load`, which gives up. -/
def IsCancelled (x : Transition SyncState SyncEvent) : Prop :=
  x.event = .task ∧ x.source.canceled = true ∧ ∃ e rest, x.source.syncer = .filling (e :: rest)

/-- The task is not behind the test of a `Save`. -/
def isBeforeSave (s : SyncState) : Bool :=
  match s.syncer with
  | .copying | .writing _ | .clearing _ => false
  | _ => true

structure IsUntouched (file : Option (List FileEntry)) (s : SyncState) : Prop where
  flag : s.needsSync = false
  before : isBeforeSave s = true
  same : s.file = file

/-- `Clear` has removed the file, and there is nothing to write to it. -/
structure IsRemoved (s : SyncState) : Prop where
  file : s.file = none
  dic : s.dic.entries = []
  input : isMutating s = false
  writing : ∀ copy, s.syncer = .writing copy → copy = []
  clearing : ∀ copy, s.syncer ≠ .clearing copy
  entering : ∀ proto, s.syncer ≠ .entering (some proto)
  filling : ∀ rest, s.syncer ≠ .filling rest

theorem copyOf_nil {dic : DicCache} (h : dic.entries = []) : copyOf dic = [] := by
  rw [copyOf, h]
  rfl

theorem IsCancelled.untouched {x : Transition SyncState SyncEvent} (h : IsCancelled x)
    (horderly : IsOrderly x.source) (hstep : step city legacy x.source x.event = some x.target) :
    IsUntouched x.source.file x.target := by
  obtain ⟨hevent, hcanceled, e, rest, hsyncer⟩ := h
  rw [hevent] at hstep
  have htask : taskStep city legacy x.source = some x.target := hstep
  rw [taskStep, hsyncer] at htask
  dsimp only at htask
  rw [if_pos hcanceled] at htask
  rw [← Option.some.inj htask]
  exact ⟨horderly.filling _ hsyncer, rfl, rfl⟩

theorem isRemoved_endClear (hidle : s.syncer = .idle) :
    IsRemoved
      (save { s with dic := emptyDic, needsSync := true, canceled := false, input := .free }) := by
  rw [save, if_neg (by simp), if_pos (copyOf_nil rfl)]
  refine
    { file := rfl
      dic := rfl
      input := rfl
      writing := fun copy hs => ?_
      clearing := fun copy hs => ?_
      entering := fun proto hs => ?_
      filling := fun rest hs => ?_ }
  · simp [show s.syncer = .writing copy from hs] at hidle
  · simp [show s.syncer = .clearing copy from hs] at hidle
  · simp [show s.syncer = .entering (some proto) from hs] at hidle
  · simp [show s.syncer = .filling rest from hs] at hidle

theorem IsUntouched.task (h : IsUntouched file s) (hstep : taskStep city legacy s = some t) :
    IsUntouched file t := by
  have hbefore := h.before
  cases taskMove_of_step hstep with
  | tested hsyncer =>
    refine ⟨h.flag, ?_, h.same⟩
    rw [isBeforeSave, h.flag]
    rfl
  | copied hsyncer hfree =>
    simp [isBeforeSave, hsyncer] at hbefore
  | unlinked hsyncer =>
    simp [isBeforeSave, hsyncer] at hbefore
  | written copy hsyncer hne =>
    simp [isBeforeSave, hsyncer] at hbefore
  | cleared copy hsyncer =>
    simp [isBeforeSave, hsyncer] at hbefore
  | read hsyncer => exact ⟨h.flag, rfl, h.same⟩
  | nothingRead hsyncer => exact ⟨rfl, rfl, h.same⟩
  | entered proto hsyncer => exact ⟨rfl, rfl, h.same⟩
  | filled rest hsyncer => exact ⟨h.flag, rfl, h.same⟩
  | put e rest hsyncer => exact ⟨h.flag, rfl, h.same⟩

/-- Without a mutator nothing is saved. -/
theorem IsUntouched.step (h : IsUntouched file s) {e : SyncEvent} (henter : e ≠ .enter)
    (hclear : e ≠ .endClear) (hstep : step city legacy s e = some t) :
    IsUntouched file t := by
  by_cases htask : e = .task
  · subst htask
    exact h.task hstep
  cases inputMove_of_step hstep htask with
  | enter depth hlock => exact absurd rfl henter
  | change mutation hmutating => exact ⟨h.flag, h.before, h.same⟩
  | leave input hmutating hopen => exact ⟨h.flag, h.before, h.same⟩
  | asyncSave hfree hneeds =>
    simp [h.flag] at hneeds
  | noSave => exact h
  | asyncLoad => exact ⟨h.flag, rfl, h.same⟩
  | noLoad => exact h
  | beginClear => exact ⟨h.flag, h.before, h.same⟩
  | endClear hidle => exact absurd rfl hclear
  | beginClose canceled => exact ⟨h.flag, h.before, h.same⟩
  | endClose hidle =>
    rw [save, if_pos (by rw [h.flag]; rfl)]
    exact ⟨h.flag, h.before, h.same⟩

/-- The input thread goes on without a change. -/
theorem IsRemoved.withInput (h : IsRemoved s) {input : InputThread} (canceled : Bool)
    (hinput : ∀ depth, input ≠ .mutating depth) :
    IsRemoved { s with input := input, canceled := canceled } := by
  refine
    { file := h.file
      dic := h.dic
      input := ?_
      writing := h.writing
      clearing := h.clearing
      entering := h.entering
      filling := h.filling }
  cases input with
  | mutating depth => exact absurd rfl (hinput depth)
  | free => rfl
  | clearing => rfl
  | closing => rfl
  | closed => rfl

theorem IsRemoved.withSyncer (h : IsRemoved s) {syncer : Syncer}
    (hsyncer : syncer = .idle ∨ syncer = .testing ∨ syncer = .copying ∨ syncer = .writing [] ∨
      syncer = .reading ∨ syncer = .entering none) : IsRemoved { s with syncer := syncer } := by
  refine
    { file := h.file
      dic := h.dic
      input := h.input
      writing := fun copy hcopy => ?_
      clearing := ?_
      entering := ?_
      filling := ?_ }
  · rcases hsyncer with rfl | rfl | rfl | rfl | rfl | rfl
    · cases hcopy
    · cases hcopy
    · cases hcopy
    · exact (Syncer.writing.inj hcopy).symm
    · cases hcopy
    · cases hcopy
  · rcases hsyncer with rfl | rfl | rfl | rfl | rfl | rfl <;> exact fun _ => Syncer.noConfusion
  · rcases hsyncer with rfl | rfl | rfl | rfl | rfl | rfl <;> simp
  · rcases hsyncer with rfl | rfl | rfl | rfl | rfl | rfl <;> exact fun _ => Syncer.noConfusion

theorem IsRemoved.task (h : IsRemoved s) (hstep : taskStep city legacy s = some t) :
    IsRemoved t := by
  have hidle : IsRemoved { s with syncer := .idle } := h.withSyncer (.inl rfl)
  cases taskMove_of_step hstep with
  | tested hsyncer =>
    refine h.withSyncer ?_
    split
    · exact .inr (.inr (.inl rfl))
    · exact .inl rfl
  | copied hsyncer hfree =>
    exact h.withSyncer (.inr (.inr (.inr (.inl (by rw [copyOf_nil h.dic])))))
  | unlinked hsyncer => exact { hidle with file := rfl }
  | written copy hsyncer hne => exact absurd (h.writing copy hsyncer) hne
  | cleared copy hsyncer => exact absurd hsyncer (h.clearing copy)
  | read hsyncer => exact h.withSyncer (.inr (.inr (.inr (.inr (.inr (by rw [h.file]))))))
  | nothingRead hsyncer => exact { hidle with dic := rfl }
  | entered proto hsyncer => exact absurd hsyncer (h.entering proto)
  | filled rest hsyncer => exact absurd hsyncer (h.filling _)
  | put e rest hsyncer => exact absurd hsyncer (h.filling _)

theorem IsRemoved.step (h : IsRemoved s) {e : SyncEvent} (henter : e ≠ .enter)
    (hstep : step city legacy s e = some t) : IsRemoved t := by
  by_cases htask : e = .task
  · subst htask
    exact h.task hstep
  have hinput := h.input
  cases inputMove_of_step hstep htask with
  | enter depth hlock => exact absurd rfl henter
  | change mutation hmutating =>
    simp [hmutating] at hinput
  | leave input hmutating hopen =>
    simp [hmutating] at hinput
  | asyncSave hfree hneeds => exact h.withSyncer (.inr (.inl rfl))
  | noSave => exact h
  | asyncLoad => exact h.withSyncer (.inr (.inr (.inr (.inr (.inl rfl)))))
  | noLoad => exact h
  | beginClear => exact h.withInput true fun _ => InputThread.noConfusion
  | endClear hidle => exact isRemoved_endClear hidle
  | beginClose canceled => exact h.withInput canceled fun _ => InputThread.noConfusion
  | endClose hidle =>
    have hclosed : IsRemoved { s with input := .closed } :=
      h.withInput s.canceled fun _ => InputThread.noConfusion
    have hsaved : save s = s ∨ save s = { s with file := none } := by
      rw [save, if_pos (copyOf_nil h.dic)]
      split
      · exact .inl rfl
      · exact .inr rfl
    rcases hsaved with heq | heq
    · rw [heq]
      exact hclosed
    · rw [heq]
      exact { hclosed with file := rfl }

theorem untouched_or_removed {after : List (Transition SyncState SyncEvent)}
    (h : Path (Step city legacy) s after t) (hs : IsUntouched file s)
    (henter : ∀ y ∈ after, y.event ≠ .enter) :
    IsUntouched file t ∨ (∃ y ∈ after, y.event = .endClear) ∧ IsRemoved t := by
  induction h with
  | refl => exact .inl hs
  | @tail after u v e hpath hstep ih =>
    have hlast : e ≠ .enter :=
      henter ⟨u, e, v⟩ (List.mem_append_right _ (List.mem_singleton_self _))
    rcases ih fun y hy => henter y (List.mem_append_left _ hy) with hu | ⟨⟨y, hy, hclear⟩, hu⟩
    · by_cases hclear : e = .endClear
      · subst hclear
        cases inputMove_of_step hstep SyncEvent.noConfusion with
        | endClear hidle =>
          exact .inr ⟨⟨_, List.mem_append_right _ (List.mem_singleton_self _), rfl⟩,
            isRemoved_endClear hidle⟩
      · exact .inl (hu.step hlast hclear hstep)
    · exact .inr ⟨⟨y, List.mem_append_left _ hy, hclear⟩, hu.step hlast hstep⟩

/-! ## The result -/

/-- **No history is lost between saves when no mutator comes between a copy and the clearing of the
flag.** A `Save` that clears the flag has saved what a `Load` would keep exactly if that is what it
had copied, and a cancelled `Load` is followed by no `Save` of what it has put in. -/
theorem saves_lose_nothing (city : City) (legacy : Legacy) (file : Option (List FileEntry)) :
    (∀ path s, Path (Step city legacy) (opened city legacy file) path s →
      (∀ x ∈ path, x.event ≠ .asyncLoad) → (∀ x ∈ path, IsTimely x) →
        (s.syncer = .idle → s.needsSync = false → IsSaved city legacy s) ∧
          (s.input = .closed → IsSaved city legacy s)) ∧
      (∀ path s copy t, Path (Step city legacy) (constructed file) path s →
        s.syncer = .clearing copy → step city legacy s .task = some t →
          t.syncer = .idle ∧ t.needsSync = false ∧
            (IsSaved city legacy t ↔ (loadDic city legacy (some copy)).entries = kept s.dic)) ∧
      ∀ before x after s, Path (Step city legacy) (constructed file) (before ++ x :: after) s →
        IsCancelled x → (∀ y ∈ after, y.event ≠ .enter) →
          s.file = x.source.file ∨ (∃ y ∈ after, y.event = .endClear) ∧ s.file = none := by
  refine ⟨fun path s hpath hload htimely => ?_, fun path s copy t hpath hsyncer hstep => ?_,
    fun before x after s hpath hcancelled henter => ?_⟩
  · have hboth := hpath.restrict (P := fun x => x.event ≠ .asyncLoad ∧ IsTimely x)
      fun x hx => ⟨hload x hx, htimely x hx⟩
    have hsynced : IsSynced city legacy s :=
      hboth.invariant (fun _ _ _ ht ⟨hstep, hnoload, hlate⟩ => ht.step hnoload hlate hstep)
        (isSynced_opened file)
    exact ⟨fun _ hneeds => hsynced.saved hneeds, fun hclosed => (hsynced.closed hclosed).2⟩
  · exact isSaved_clear (isOrderly_of_path hpath) hsyncer hstep
  · obtain ⟨hbefore, hstep, hafter⟩ := hpath.of_mem
    have huntouched := hcancelled.untouched (isOrderly_of_path hbefore) hstep
    rcases untouched_or_removed hafter huntouched henter with hs | ⟨hclear, hs⟩
    · exact .inl hs.same
    · exact .inr ⟨hclear, hs.file⟩

/-! ## Two runs -/

/-- The events one after the other, each where it is allowed. -/
def runEvents (city : City) (legacy : Legacy) (allowed : SyncState → SyncEvent → Bool) :
    SyncState → List SyncEvent → Option SyncState
  | s, [] => some s
  | s, e :: events =>
    if allowed s e then
      match step city legacy s e with
      | some t => runEvents city legacy allowed t events
      | none => none
    else none

theorem path_of_runEvents {allowed : SyncState → SyncEvent → Bool} :
    ∀ {events : List SyncEvent} {start s t : SyncState}
      {path : List (Transition SyncState SyncEvent)},
    Path (Step city legacy) start path s → (∀ x ∈ path, allowed x.source x.event = true) →
    runEvents city legacy allowed s events = some t →
    ∃ path', Path (Step city legacy) start path' t ∧ ∀ x ∈ path', allowed x.source x.event = true
  | [], start, s, t, path, hpath, hall, h => by
    cases h
    exact ⟨path, hpath, hall⟩
  | e :: events, start, s, t, path, hpath, hall, h => by
    rw [runEvents] at h
    split at h
    · next hallowed =>
      split at h
      · next u hu =>
        refine path_of_runEvents (hpath.tail hu) (fun x hx => ?_) h
        rcases List.mem_append.mp hx with hx | hx
        · exact hall x hx
        · rw [List.mem_singleton.mp hx]
          exact hallowed
      · cases h
    · cases h

/-- Mutators and `Save`s. -/
def loadsNothing (_ : SyncState) : SyncEvent → Bool
  | .asyncLoad => false
  | _ => true

/-- Mutators and `Save`s, with no mutator between a copy and the clearing. -/
def isOnTime (s : SyncState) : SyncEvent → Bool
  | .asyncLoad => false
  | .enter => !isBehindCopy s
  | _ => true

def asia : Entry := { key := utf8 "あ", value := utf8 "亜", suggestionFreq := 1 }

def isha : Entry := { key := utf8 "いしゃ", value := utf8 "医者", suggestionFreq := 1 }

/-- Fingerprints that keep the two apart. -/
def lengthCity : City := fun bytes => UInt64.ofNat bytes.length

def noLegacy : Legacy := fun _ => 0

/-- An entry is committed and saved. -/
def savedRun : List SyncEvent :=
  [.enter, .change (.insert asia), .leave, .asyncSave, .task, .task, .task, .task]

/-- Another one is committed after the file was written and before the flag is cleared. -/
def lateRun : List SyncEvent :=
  [.enter, .change (.insert asia), .leave, .asyncSave, .task, .task, .task,
    .enter, .change (.insert isha), .leave, .task]

theorem saves_lose_nothing_saved :
    ∃ path s, Path (Step lengthCity noLegacy) (opened lengthCity noLegacy none) path s ∧
      s.syncer = .idle ∧ s.needsSync = false ∧ s.dic.entries.length = 1 ∧
        IsSaved lengthCity noLegacy s := by
  have hrun : (runEvents lengthCity noLegacy isOnTime (opened lengthCity noLegacy none)
      savedRun).any (fun s => s.syncer = .idle ∧ s.needsSync = false ∧ s.dic.entries.length = 1)
        = true := by decide +kernel
  obtain ⟨s, hs, hfacts⟩ := (Option.any_eq_true _ _).mp hrun
  obtain ⟨hidle, hneeds, hone⟩ := of_decide_eq_true hfacts
  obtain ⟨path, hpath, hall⟩ := path_of_runEvents .refl (fun _ hx => absurd hx List.not_mem_nil) hs
  refine ⟨path, s, hpath, hidle, hneeds, hone, ?_⟩
  refine ((saves_lose_nothing lengthCity noLegacy none).1 path s hpath (fun x hx he => ?_)
    fun x hx he => ?_).1 hidle hneeds
  · have hallowed := hall x hx
    rw [he] at hallowed
    cases hallowed
  · have hallowed := hall x hx
    simpa [he, isOnTime] using hallowed

theorem late_change_is_lost :
    ∃ path s, Path (Step lengthCity noLegacy) (opened lengthCity noLegacy none) path s ∧
      (∀ x ∈ path, x.event ≠ .asyncLoad) ∧
      s.syncer = .idle ∧ s.needsSync = false ∧ ¬IsSaved lengthCity noLegacy s := by
  have hrun : (runEvents lengthCity noLegacy loadsNothing (opened lengthCity noLegacy none)
      lateRun).any (fun s => s.syncer = .idle ∧ s.needsSync = false ∧
        ¬IsSaved lengthCity noLegacy s) = true := by decide +kernel
  obtain ⟨s, hs, hfacts⟩ := (Option.any_eq_true _ _).mp hrun
  obtain ⟨hidle, hneeds, hlost⟩ := of_decide_eq_true hfacts
  obtain ⟨path, hpath, hall⟩ := path_of_runEvents .refl (fun _ hx => absurd hx List.not_mem_nil) hs
  refine ⟨path, s, hpath, fun x hx he => ?_, hidle, hneeds, hlost⟩
  have hallowed := hall x hx
  rw [he] at hallowed
  cases hallowed

end Mozkey.Prediction.HistorySync
