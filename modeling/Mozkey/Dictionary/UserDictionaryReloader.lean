import Mathlib.Logic.Function.Basic
import Mozkey.Infra.Transitions

/-!
# Reloading the user dictionary

`UserDictionaryReloader` of `dictionary/user_dictionary.cc` and `TaskManager` of `base/thread.h`, as
steps of any number of threads. Each access to an atomic is a step of its own, and so are taking the
mutex of the task manager, waiting for the task and starting the next one.

* `reload_not_lost` — a request is served, or there is still a thread that has to load
-/

namespace Mozkey.Dictionary

open Infra

abbrev FileTimeStamp := UInt64

inductive ReloaderState where
  | idle
  | running
  | runningWithPending
  deriving DecidableEq

/-- Where a thread is that uses the reloader. The number is the modification it observed. -/
inductive Caller where
  | outside
  /-- `modified_at_` is exchanged next. -/
  | observed (version : Nat)
  /-- `state_` is exchanged next. -/
  | changed (version : Nat)
  /-- The state was idle. The mutex is taken next. -/
  | scheduling (version : Nat)
  /-- In `Schedule`, before the task there was has come to its end -/
  | holding (version : Nat)
  | joined (version : Nat)
  /-- In `Wait` -/
  | waiting
  deriving DecidableEq

/-- Where a thread is that runs `ThreadMain`. -/
inductive ReloadTask where
  /-- Before the condition of the loop -/
  | head
  | storing
  | starting
  /-- Between the start of a load and its end -/
  | loading
  | exchanging
  /-- Canceled, before `state_` is stored -/
  | canceled
  /-- Before the return -/
  | leaving
  | finished
  deriving DecidableEq

def ReloadTask.IsRunning : ReloadTask → Prop
  | .finished => False
  | _ => True

structure Reloader where
  /-- The number of modifications of the file -/
  version : Nat
  canceled : Bool
  modifiedAt : FileTimeStamp
  state : ReloaderState
  callers : Nat → Caller
  /-- Who holds the mutex of the task manager -/
  mutex : Option Nat
  /-- `task_` -/
  task : Option Nat
  /-- The threads of the tasks that were ever scheduled -/
  tasks : List ReloadTask

namespace Reloader

def initial : Reloader where
  version := 0
  canceled := false
  modifiedAt := 0
  state := .idle
  callers _ := .outside
  mutex := none
  task := none
  tasks := []

def setCaller (r : Reloader) (i : Nat) (caller : Caller) : Reloader :=
  { r with callers := Function.update r.callers i caller }

def setTask (r : Reloader) (k : Nat) (task : ReloadTask) : Reloader :=
  { r with tasks := r.tasks.set k task }

/-- `task_` is empty, or its function has returned. -/
def taskDone (r : Reloader) : Prop := ∀ k, r.task = some k → r.tasks[k]? = some .finished

end Reloader

inductive ReloadEvent where
  | modify
  | cancel
  | noFile (i : Nat)
  | observe (i : Nat)
  | exchangeModifiedAt (i : Nat)
  /-- The call returns true. -/
  | request (i version : Nat)
  | lockSchedule (i : Nat)
  | join (i : Nat)
  | emplace (i : Nat)
  | lockWait (i : Nat)
  | reset (i : Nat)
  | checkCanceled (k : Nat)
  | storeRunning (k : Nat)
  | startLoad (k : Nat)
  /-- The file is read. -/
  | read (k version : Nat)
  | exchangeState (k : Nat)
  | storeIdle (k : Nat)
  | finish (k : Nat)

/-- A step of some thread. `stamp` gives the time stamp of each modification. -/
inductive ReloadStep (stamp : Nat → FileTimeStamp) (r : Reloader) :
    ReloadEvent → Reloader → Prop where
  | modify : ReloadStep stamp r .modify { r with version := r.version + 1 }
  | cancel : ReloadStep stamp r .cancel { r with canceled := true }
  /-- There is no file to be loaded. -/
  | noFile {i : Nat} : r.callers i = .outside → ReloadStep stamp r (.noFile i) r
  | observe {i : Nat} : r.callers i = .outside →
    ReloadStep stamp r (.observe i) (r.setCaller i (.observed r.version))
  | exchangeModifiedAt {i version : Nat} : r.callers i = .observed version →
    ReloadStep stamp r (.exchangeModifiedAt i)
      ({ r with modifiedAt := stamp version }.setCaller i
        (if r.modifiedAt = stamp version then .outside else .changed version))
  | request {i version : Nat} : r.callers i = .changed version →
    ReloadStep stamp r (.request i version)
      ({ r with state := .runningWithPending }.setCaller i
        (if r.state = ReloaderState.idle then .scheduling version else .outside))
  | lockSchedule {i version : Nat} : r.callers i = .scheduling version → r.mutex = none →
    ReloadStep stamp r (.lockSchedule i)
      ({ r with mutex := some i }.setCaller i (.holding version))
  | join {i version : Nat} : r.callers i = .holding version → r.taskDone →
    ReloadStep stamp r (.join i) (r.setCaller i (.joined version))
  | emplace {i version : Nat} : r.callers i = .joined version →
    ReloadStep stamp r (.emplace i)
      ({ r with mutex := none, task := some r.tasks.length,
                tasks := r.tasks ++ [ReloadTask.head] }.setCaller i .outside)
  | lockWait {i : Nat} : r.callers i = .outside → r.mutex = none →
    ReloadStep stamp r (.lockWait i) ({ r with mutex := some i }.setCaller i .waiting)
  | reset {i : Nat} : r.callers i = .waiting → r.taskDone →
    ReloadStep stamp r (.reset i) ({ r with mutex := none, task := none }.setCaller i .outside)
  | checkCanceled {k : Nat} : r.tasks[k]? = some .head →
    ReloadStep stamp r (.checkCanceled k)
      (r.setTask k (if r.canceled then ReloadTask.canceled else ReloadTask.storing))
  | storeRunning {k : Nat} : r.tasks[k]? = some .storing →
    ReloadStep stamp r (.storeRunning k) ({ r with state := .running }.setTask k .starting)
  | startLoad {k : Nat} : r.tasks[k]? = some .starting →
    ReloadStep stamp r (.startLoad k) (r.setTask k .loading)
  | read {k : Nat} : r.tasks[k]? = some .loading →
    ReloadStep stamp r (.read k r.version) (r.setTask k .exchanging)
  | goIdle {k : Nat} : r.tasks[k]? = some .exchanging → r.state = .running →
    ReloadStep stamp r (.exchangeState k) ({ r with state := .idle }.setTask k .leaving)
  | goOn {k : Nat} : r.tasks[k]? = some .exchanging → r.state ≠ .running →
    ReloadStep stamp r (.exchangeState k) (r.setTask k .head)
  | storeIdle {k : Nat} : r.tasks[k]? = some .canceled →
    ReloadStep stamp r (.storeIdle k) ({ r with state := .idle }.setTask k .leaving)
  | finish {k : Nat} : r.tasks[k]? = some .leaving →
    ReloadStep stamp r (.finish k) (r.setTask k .finished)

/-! ## One task at a time -/

variable {stamp : Nat → FileTimeStamp} {r r' : Reloader} {e : ReloadEvent} {i k : Nat}

def Caller.HasMutex : Caller → Prop
  | .holding _ | .joined _ | .waiting => True
  | _ => False

def Caller.IsJoined : Caller → Prop
  | .joined _ => True
  | _ => False

variable {caller : Caller} {t : ReloadTask}

theorem Caller.IsJoined.hasMutex (h : caller.IsJoined) : caller.HasMutex := by
  cases caller with
  | joined => trivial
  | _ => exact h.elim

theorem Reloader.callers_setCaller (r : Reloader) (i j : Nat) (caller : Caller) :
    (r.setCaller i caller).callers j = if j = i then caller else r.callers j :=
  Function.update_apply r.callers i caller j

structure OneTask (r : Reloader) : Prop where
  running : ∀ k t, r.tasks[k]? = some t → t.IsRunning → r.task = some k
  mutex : ∀ i, (r.callers i).HasMutex ↔ r.mutex = some i
  joined : ∀ i, (r.callers i).IsJoined → r.taskDone
  isTask : ∀ k, r.task = some k → k < r.tasks.length

theorem oneTask_initial : OneTask .initial where
  running k t h := by simp [Reloader.initial] at h
  mutex i := by simp [Reloader.initial, Caller.HasMutex]
  joined i h := by simp [Reloader.initial, Caller.IsJoined] at h
  isTask k h := by simp [Reloader.initial] at h

/-- Nobody can start a task while one runs. -/
theorem OneTask.not_taskDone (h : OneTask r) (ht : r.tasks[k]? = some t) (hrunning : t.IsRunning) :
    ¬r.taskDone := by
  intro hdone
  rw [hdone k (h.running k t ht hrunning), Option.some.injEq] at ht
  rw [← ht] at hrunning
  exact hrunning

/-- A step of a task. -/
theorem OneTask.setTask (h : OneTask r) {t' : ReloadTask} (ht : r.tasks[k]? = some t)
    (hrunning : t.IsRunning) : OneTask (r.setTask k t') where
  running k' t'' ht'' hrunning' := by
    rw [Reloader.setTask, List.getElem?_set] at ht''
    split at ht''
    · next heq =>
      rw [← heq]
      exact h.running k t ht hrunning
    · exact h.running k' t'' ht'' hrunning'
  mutex := h.mutex
  joined i hi := absurd (h.joined i hi) (h.not_taskDone ht hrunning)
  isTask k' hk' := by
    simpa [Reloader.setTask] using h.isTask k' hk'

/-- A step of a caller that leaves the mutex and the tasks alone. -/
theorem OneTask.setCaller (h : OneTask r) (hmutex : caller.HasMutex ↔ (r.callers i).HasMutex)
    (hjoined : caller.IsJoined → r.taskDone) : OneTask (r.setCaller i caller) where
  running := h.running
  mutex j := by
    rw [Reloader.callers_setCaller]
    split
    · next heq => rw [hmutex, heq, h.mutex i, Reloader.setCaller]
    · exact h.mutex j
  joined j hj := by
    rw [Reloader.callers_setCaller] at hj
    split at hj
    · exact hjoined hj
    · exact h.joined j hj
  isTask := h.isTask

/-- The mutex is taken. -/
theorem OneTask.lock (h : OneTask r) (hfree : r.mutex = none) (hmutex : caller.HasMutex)
    (hjoined : ¬caller.IsJoined) :
    OneTask ({ r with mutex := some i }.setCaller i caller) where
  running := h.running
  mutex j := by
    rw [Reloader.callers_setCaller]
    split
    · next heq => exact iff_of_true hmutex (congrArg some heq.symm)
    · next hne =>
      rw [h.mutex j, hfree]
      exact iff_of_false (by simp) fun heq => hne (Option.some.inj heq).symm
  joined j hj := by
    rw [Reloader.callers_setCaller] at hj
    split at hj
    · exact absurd hj hjoined
    · exact h.joined j hj
  isTask := h.isTask

/-- The mutex is given back by the caller that had waited for the task. -/
theorem OneTask.unlock (h : OneTask r) (hi : (r.callers i).HasMutex) {task : Option Nat}
    {tasks : List ReloadTask}
    (hrunning : ∀ k t, tasks[k]? = some t → t.IsRunning → task = some k)
    (htask : ∀ k, task = some k → k < tasks.length) :
    OneTask ({ r with mutex := none, task := task, tasks := tasks }.setCaller i .outside) := by
  have hmutex := (h.mutex i).mp hi
  have hothers : ∀ j, j ≠ i → ¬(r.callers j).HasMutex := by
    intro j hne hj
    exact hne (Option.some.inj (((h.mutex j).mp hj).symm.trans hmutex))
  refine ⟨hrunning, fun j => ?_, fun j hj => ?_, htask⟩
  · rw [Reloader.callers_setCaller]
    split
    · exact iff_of_false id (by simp [Reloader.setCaller])
    · next hne => exact iff_of_false (hothers j hne) (by simp [Reloader.setCaller])
  · rw [Reloader.callers_setCaller] at hj
    split at hj
    · exact hj.elim
    · next hne => exact absurd (Caller.IsJoined.hasMutex hj) (hothers j hne)

/-- No step starts a second task. -/
theorem OneTask.step (h : OneTask r) (hstep : ReloadStep stamp r e r') : OneTask r' := by
  cases hstep with
  | modify => exact ⟨h.running, h.mutex, h.joined, h.isTask⟩
  | cancel => exact ⟨h.running, h.mutex, h.joined, h.isTask⟩
  | noFile => exact h
  | observe hi => exact h.setCaller (iff_of_false id (by rw [hi]; exact id)) False.elim
  | @exchangeModifiedAt i version hi =>
    have hsame : OneTask { r with modifiedAt := stamp version } :=
      ⟨h.running, h.mutex, h.joined, h.isTask⟩
    refine hsame.setCaller (iff_of_false ?_ (by rw [hi]; exact id)) (fun hc => ?_)
    · split <;> exact id
    · split at hc <;> exact hc.elim
  | request hi =>
    have hsame : OneTask { r with state := .runningWithPending } :=
      ⟨h.running, h.mutex, h.joined, h.isTask⟩
    refine hsame.setCaller (iff_of_false ?_ (by rw [hi]; exact id)) (fun hc => ?_)
    · split <;> exact id
    · split at hc <;> exact hc.elim
  | lockSchedule _ hfree => exact h.lock hfree trivial id
  | join hi hdone =>
    exact h.setCaller (iff_of_true trivial (by rw [hi]; trivial)) (fun _ => hdone)
  | @emplace i version hi =>
    have hdone := h.joined i (by rw [hi]; trivial)
    refine h.unlock (by rw [hi]; trivial) (fun k t ht hrunning => ?_) (fun k hk => ?_)
    · rw [List.getElem?_append] at ht
      split at ht
      · exact absurd hdone (h.not_taskDone ht hrunning)
      · next hge =>
        obtain ⟨hlt, -⟩ := List.getElem?_eq_some_iff.mp ht
        rw [List.length_singleton] at hlt
        exact congrArg some (by omega)
    · simp [← Option.some.inj hk]
  | lockWait _ hfree => exact h.lock hfree trivial id
  | reset hi hdone =>
    refine h.unlock (by rw [hi]; trivial) (fun k t ht hrunning => ?_) (fun k hk => by cases hk)
    exact absurd hdone (h.not_taskDone ht hrunning)
  | checkCanceled ht => exact h.setTask ht trivial
  | storeRunning ht =>
    have hsame : OneTask { r with state := .running } := ⟨h.running, h.mutex, h.joined, h.isTask⟩
    exact hsame.setTask ht trivial
  | startLoad ht => exact h.setTask ht trivial
  | read ht => exact h.setTask ht trivial
  | goIdle ht =>
    have hsame : OneTask { r with state := .idle } := ⟨h.running, h.mutex, h.joined, h.isTask⟩
    exact hsame.setTask ht trivial
  | goOn ht => exact h.setTask ht trivial
  | storeIdle ht =>
    have hsame : OneTask { r with state := .idle } := ⟨h.running, h.mutex, h.joined, h.isTask⟩
    exact hsame.setTask ht trivial
  | finish ht => exact h.setTask ht trivial

/-! ## Requests -/

abbrev ReloadPath := List (Transition Reloader ReloadEvent)

def ReloadEvent.IsRequest : ReloadEvent → Prop
  | .request _ _ => True
  | _ => False

def ReloadEvent.IsStart : ReloadEvent → Prop
  | .startLoad _ => True
  | _ => False

/-- A load was started after every request. -/
def Started (path : ReloadPath) : Prop :=
  ∀ before m after, path = before ++ m :: after → m.event.IsRequest → ∃ l ∈ after, l.event.IsStart

/-- A load is started here, and it reads a file that is at least as new as this modification. -/
def Serves (version : Nat) (after : ReloadPath) : Prop :=
  ∃ before l between m rest, after = before ++ l :: between ++ m :: rest ∧ l.event.IsStart ∧
    ∃ k version', m.event = .read k version' ∧ version ≤ version'

/-- Every request was served. -/
def Served (path : ReloadPath) : Prop :=
  ∀ before m after i version, path = before ++ m :: after → m.event = .request i version →
    Serves version after

/-- Callers and requests know no modification that is still to come. -/
structure Observed (path : ReloadPath) (r : Reloader) : Prop where
  callers : ∀ i version, r.callers i = .observed version ∨ r.callers i = .changed version →
    version ≤ r.version
  requests : ∀ m ∈ path, ∀ i version, m.event = .request i version → version ≤ r.version

variable {path : ReloadPath} {x : Transition Reloader ReloadEvent}

theorem Serves.snoc {version : Nat} {after : ReloadPath} (h : Serves version after) :
    Serves version (after ++ [x]) := by
  obtain ⟨before, l, between, m, rest, rfl, hl, hm⟩ := h
  exact ⟨before, l, between, m, rest ++ [x], by simp, hl, hm⟩

/-- A cut of a longer path. -/
theorem snoc_eq_append {before after : ReloadPath} {m : Transition Reloader ReloadEvent}
    (h : path ++ [x] = before ++ m :: after) :
    (after = [] ∧ m = x) ∨ ∃ after', after = after' ++ [x] ∧ path = before ++ m :: after' := by
  rcases List.eq_nil_or_concat after with rfl | ⟨after', y, rfl⟩
  · obtain ⟨-, hx⟩ := List.append_inj' h rfl
    exact Or.inl ⟨rfl, (List.cons.inj hx).1.symm⟩
  · rw [List.concat_eq_append, ← List.cons_append, ← List.append_assoc] at h
    obtain ⟨hpath, hx⟩ := List.append_inj' h rfl
    rw [(List.cons.inj hx).1]
    exact Or.inr ⟨after', List.concat_eq_append, hpath⟩

theorem Served.snoc (h : Served path) (hx : ¬x.event.IsRequest) : Served (path ++ [x]) := by
  intro before m after i version hpath hm
  rcases snoc_eq_append hpath with ⟨-, rfl⟩ | ⟨after', rfl, hcut⟩
  · rw [hm] at hx
    exact absurd trivial hx
  · exact (h before m after' i version hcut hm).snoc

theorem Started.snoc (h : Started path) (hx : ¬x.event.IsRequest) : Started (path ++ [x]) := by
  intro before m after hpath hm
  rcases snoc_eq_append hpath with ⟨-, rfl⟩ | ⟨after', rfl, hcut⟩
  · exact absurd hm hx
  · obtain ⟨l, hl, hstart⟩ := h before m after' hcut hm
    exact ⟨l, List.mem_append_left _ hl, hstart⟩

theorem started_of_start (hx : x.event.IsStart) : Started (path ++ [x]) := by
  intro before m after hpath hm
  rcases snoc_eq_append hpath with ⟨-, rfl⟩ | ⟨after', rfl, hcut⟩
  · cases hevent : m.event <;> rw [hevent] at hx hm <;> first | exact hx.elim | exact hm.elim
  · exact ⟨x, by simp, hx⟩

/-- **What a load reads serves every request before its start.** -/
theorem Started.read (h : Started path) (hobserved : Observed path r)
    (hx : x.event = .read k r.version) : Served (path ++ [x]) := by
  intro before m after i version hpath hm
  rcases snoc_eq_append hpath with ⟨-, rfl⟩ | ⟨after', rfl, hcut⟩
  · simp [hm] at hx
  · obtain ⟨l, hl, hstart⟩ := h before m after' hcut (by rw [hm]; trivial)
    obtain ⟨between, rest, rfl⟩ := List.append_of_mem hl
    refine ⟨between, l, rest, x, [], by simp, hstart, k, r.version, hx, ?_⟩
    exact hobserved.requests m (by simp [hcut]) i version hm

theorem observed_initial : Observed [] .initial where
  callers i version h := by simp [Reloader.initial] at h
  requests m h := by simp at h

/-- A caller that observes nothing new. -/
theorem Observed.setCaller (h : Observed path r) (hcallers : r'.callers = r.callers)
    (hversion : r'.version = r.version) (hx : ¬x.event.IsRequest)
    (hcaller : ∀ version, caller = .observed version ∨ caller = .changed version →
      version ≤ r.version) : Observed (path ++ [x]) (r'.setCaller i caller) where
  callers j version hj := by
    rw [Reloader.callers_setCaller] at hj
    show version ≤ r'.version
    rw [hversion]
    split at hj
    · exact hcaller version hj
    · rw [hcallers] at hj
      exact h.callers j version hj
  requests m hm j version hevent := by
    show version ≤ r'.version
    rw [hversion]
    rcases List.mem_append.mp hm with hm | hm
    · exact h.requests m hm j version hevent
    · rw [← List.mem_singleton.mp hm, hevent] at hx
      exact absurd trivial hx

/-- The caller observes nothing. -/
theorem Observed.setOther (h : Observed path r) (hcallers : r'.callers = r.callers)
    (hversion : r'.version = r.version) (hx : ¬x.event.IsRequest)
    (hother : ∀ version, caller ≠ .observed version ∧ caller ≠ .changed version) :
    Observed (path ++ [x]) (r'.setCaller i caller) :=
  h.setCaller hcallers hversion hx fun version hv =>
    (hv.elim (hother version).1 (hother version).2).elim

/-- A step that leaves the callers alone. -/
theorem Observed.same (h : Observed path r) (hx : ¬x.event.IsRequest)
    (hcallers : r'.callers = r.callers) (hversion : r.version ≤ r'.version) :
    Observed (path ++ [x]) r' where
  callers j version hj := by
    rw [hcallers] at hj
    exact Nat.le_trans (h.callers j version hj) hversion
  requests m hm j version hevent := by
    rcases List.mem_append.mp hm with hm | hm
    · exact Nat.le_trans (h.requests m hm j version hevent) hversion
    · rw [← List.mem_singleton.mp hm, hevent] at hx
      exact absurd trivial hx

/-- No request is for a modification that is still to come. -/
theorem Observed.step (h : Observed path r) (hstep : ReloadStep stamp r e r') :
    Observed (path ++ [⟨r, e, r'⟩]) r' := by
  cases hstep with
  | modify => exact h.same id rfl (Nat.le_succ _)
  | cancel => exact h.same id rfl (Nat.le_refl _)
  | noFile => exact h.same id rfl (Nat.le_refl _)
  | observe =>
    refine h.setCaller (by rfl) (by rfl) id fun version hv => ?_
    rcases hv with hv | hv
    · exact Nat.le_of_eq (Caller.observed.inj hv).symm
    · cases hv
  | @exchangeModifiedAt i version hi =>
    refine h.setCaller (by rfl) (by rfl) id fun version' hv => ?_
    split at hv
    · rcases hv with hv | hv <;> cases hv
    · rcases hv with hv | hv
      · cases hv
      · rw [← Caller.changed.inj hv]
        exact h.callers i version (Or.inl hi)
  | @request i version hi =>
    refine ⟨fun j version' hj => ?_, fun m hm j version' hevent => ?_⟩
    · rw [Reloader.callers_setCaller] at hj
      split at hj
      · split at hj <;> rcases hj with hj | hj <;> cases hj
      · exact h.callers j version' hj
    · rcases List.mem_append.mp hm with hm | hm
      · exact h.requests m hm j version' hevent
      · rw [List.mem_singleton.mp hm] at hevent
        obtain ⟨-, rfl⟩ := ReloadEvent.request.inj hevent
        exact h.callers i version (Or.inr hi)
  | lockSchedule => exact h.setOther (by rfl) (by rfl) id (by simp)
  | join => exact h.setOther (by rfl) (by rfl) id (by simp)
  | emplace => exact h.setOther (by rfl) (by rfl) id (by simp)
  | lockWait => exact h.setOther (by rfl) (by rfl) id (by simp)
  | reset => exact h.setOther (by rfl) (by rfl) id (by simp)
  | checkCanceled => exact h.same id rfl (Nat.le_refl _)
  | storeRunning => exact h.same id rfl (Nat.le_refl _)
  | startLoad => exact h.same id rfl (Nat.le_refl _)
  | read => exact h.same id rfl (Nat.le_refl _)
  | goIdle => exact h.same id rfl (Nat.le_refl _)
  | goOn => exact h.same id rfl (Nat.le_refl _)
  | storeIdle => exact h.same id rfl (Nat.le_refl _)
  | finish => exact h.same id rfl (Nat.le_refl _)

/-! ## Who has to load -/

/-- The caller starts a task. -/
def Caller.InSchedule : Caller → Prop
  | .scheduling _ | .holding _ | .joined _ => True
  | _ => False

/-- The task is in its loop. -/
def ReloadTask.IsActive : ReloadTask → Prop
  | .head | .storing | .starting | .loading | .exchanging => True
  | _ => False

theorem ReloadTask.IsActive.isRunning (h : t.IsActive) : t.IsRunning := by
  cases t with
  | finished => exact h
  | _ => trivial

/-- Where the task is while nothing is pending, and what it has done for the requests. -/
def AtRunning (path : ReloadPath) : ReloadTask → Prop
  | .starting => True
  | .loading => Started path
  | .exchanging => Served path
  | _ => False

inductive Phase (path : ReloadPath) (r : Reloader) : Prop where
  | idle : r.state = .idle → (∀ i, ¬(r.callers i).InSchedule) →
    (∀ (k : Nat) (t : ReloadTask), r.tasks[k]? = some t → ¬t.IsActive) → Served path → Phase path r
  | scheduling (i : Nat) : r.state = .runningWithPending → (r.callers i).InSchedule →
    (∀ j, (r.callers j).InSchedule → j = i) →
    (∀ (k : Nat) (t : ReloadTask), r.tasks[k]? = some t → ¬t.IsActive) → Phase path r
  | reloading (k : Nat) (t : ReloadTask) : r.tasks[k]? = some t → t.IsActive →
    (∀ i, ¬(r.callers i).InSchedule) → r.state ≠ .idle →
    (r.state = .running → AtRunning path t) → Phase path r

theorem AtRunning.snoc (h : AtRunning path t) (hx : ¬x.event.IsRequest) :
    AtRunning (path ++ [x]) t := by
  cases t with
  | starting => trivial
  | loading => exact Started.snoc h hx
  | exchanging => exact Served.snoc h hx
  | _ => exact h.elim

/-- A step that changes neither the state nor who has to load. -/
theorem Phase.same (h : Phase path r) (hx : ¬x.event.IsRequest) (hstate : r'.state = r.state)
    (hcallers : ∀ i, (r'.callers i).InSchedule ↔ (r.callers i).InSchedule)
    (htasks : ∀ (k : Nat) (t : ReloadTask), t.IsActive →
      (r'.tasks[k]? = some t ↔ r.tasks[k]? = some t)) :
    Phase (path ++ [x]) r' := by
  have hnone : (∀ i, ¬(r.callers i).InSchedule) → ∀ i, ¬(r'.callers i).InSchedule :=
    fun hc i hi => hc i ((hcallers i).mp hi)
  have hinactive : (∀ (k : Nat) (t : ReloadTask), r.tasks[k]? = some t → ¬t.IsActive) →
      ∀ (k : Nat) (t : ReloadTask), r'.tasks[k]? = some t → ¬t.IsActive :=
    fun ht k t hk hactive => ht k t ((htasks k t hactive).mp hk) hactive
  cases h with
  | idle hs hc ht hserved =>
    exact .idle (hstate.trans hs) (hnone hc) (hinactive ht) (hserved.snoc hx)
  | scheduling i hs hi hunique ht =>
    exact .scheduling i (hstate.trans hs) ((hcallers i).mpr hi)
      (fun j hj => hunique j ((hcallers j).mp hj)) (hinactive ht)
  | reloading k t hk hactive hc hs hrunning =>
    refine .reloading k t ((htasks k t hactive).mpr hk) hactive (hnone hc) ?_ fun h => ?_
    · rw [hstate]
      exact hs
    · exact (hrunning (hstate ▸ h)).snoc hx

theorem inSchedule_setCaller (h : caller.InSchedule ↔ (r.callers i).InSchedule) (j : Nat) :
    ((r.setCaller i caller).callers j).InSchedule ↔ (r.callers j).InSchedule := by
  rw [Reloader.callers_setCaller]
  split
  · next heq => rw [heq, h]
  · rfl

/-- A step of the active task. -/
theorem Phase.active (h : Phase path r) (hone : OneTask r) (ht : r.tasks[k]? = some t)
    (hactive : t.IsActive) :
    (∀ i, ¬(r.callers i).InSchedule) ∧ r.state ≠ .idle ∧ (r.state = .running → AtRunning path t) ∧
      ∀ k' t', r.tasks[k']? = some t' → t'.IsActive → k' = k := by
  have hunique : ∀ k' t', r.tasks[k']? = some t' → t'.IsActive → k' = k := by
    intro k' t' ht' hactive'
    have hk := hone.running k t ht hactive.isRunning
    simpa [hone.running k' t' ht' hactive'.isRunning] using hk
  cases h with
  | idle _ _ hnone => exact absurd hactive (hnone k t ht)
  | scheduling _ _ _ _ hnone => exact absurd hactive (hnone k t ht)
  | reloading k' t' ht' hactive' hc hs hrunning =>
    obtain rfl := hunique k' t' ht' hactive'
    rw [ht'] at ht
    rw [← Option.some.inj ht]
    exact ⟨hc, hs, hrunning, hunique⟩

theorem getElem?_setTask (ht : r.tasks[k]? = some t) (t' : ReloadTask) :
    (r.setTask k t').tasks[k]? = some t' := by
  obtain ⟨hlt, -⟩ := List.getElem?_eq_some_iff.mp ht
  rw [Reloader.setTask, List.getElem?_set_self hlt]

/-- A step that leaves an active task active. -/
theorem Phase.setTask {t' : ReloadTask} (hcallers : ∀ i, ¬(r.callers i).InSchedule)
    (ht : r.tasks[k]? = some t) (hactive : t'.IsActive) (hstate : r.state ≠ .idle)
    (hrunning : r.state = .running → AtRunning path t') : Phase path (r.setTask k t') :=
  .reloading k t' (getElem?_setTask ht t') hactive hcallers hstate hrunning

/-- The step of a task that is not in its loop. -/
theorem Phase.setInactive (h : Phase path r) (hx : ¬x.event.IsRequest) {t' : ReloadTask}
    (ht : r.tasks[k]? = some t) (hactive : ¬t.IsActive) (hactive' : ¬t'.IsActive) :
    Phase (path ++ [x]) (r.setTask k t') := by
  refine h.same hx rfl (fun _ => Iff.rfl) fun k' t'' hactive'' => ?_
  rw [Reloader.setTask, List.getElem?_set]
  split
  · next heq =>
    subst heq
    rw [ht]
    split
    · refine iff_of_false ?_ ?_
      · rintro rfl'
        exact hactive' (Option.some.inj rfl' ▸ hactive'')
      · rintro heq
        exact hactive (Option.some.inj heq ▸ hactive'')
    · next hlen => exact absurd (List.getElem?_eq_some_iff.mp ht).1 hlen
  · rfl

/-- No task has seen that it is canceled. -/
def Reloader.NoneCanceled (r : Reloader) : Prop :=
  ∀ k : Nat, r.tasks[k]? ≠ some ReloadTask.canceled

/-- What every state is in, as long as nothing was canceled. -/
structure ReloadInv (path : ReloadPath) (r : Reloader) : Prop where
  oneTask : OneTask r
  observed : Observed path r
  phase : r.canceled = false → Phase path r
  noneCanceled : r.canceled = false → r.NoneCanceled

theorem reloadInv_initial : ReloadInv [] .initial where
  oneTask := oneTask_initial
  observed := observed_initial
  phase _ := .idle rfl (fun _ h => h) (fun k t h => by simp [Reloader.initial] at h)
    (fun before m after i version h => by simp at h)
  noneCanceled _ k := by simp [Reloader.initial]

theorem noneCanceled_setTask (h : r.NoneCanceled) {t' : ReloadTask} (ht' : t' ≠ .canceled) :
    (r.setTask k t').NoneCanceled := by
  intro k'
  rw [Reloader.setTask, List.getElem?_set]
  split
  · split
    · exact fun heq => ht' (Option.some.inj heq)
    · simp
  · exact h k'

/-- A task that was not canceled does not give up. -/
theorem noneCanceled_step (hstep : ReloadStep stamp r e r') (hcancel : r'.canceled = false)
    (h : r.canceled = false → r.NoneCanceled) : r'.NoneCanceled := by
  cases hstep with
  | cancel => cases hcancel
  | checkCanceled ht =>
    have hcancel : r.canceled = false := hcancel
    refine noneCanceled_setTask (h hcancel) ?_
    rw [hcancel]
    simp
  | emplace =>
    intro k
    rw [Reloader.setCaller, List.getElem?_append]
    split
    · exact h hcancel k
    · intro heq
      obtain ⟨hlt, heq⟩ := List.getElem?_eq_some_iff.mp heq
      simp at heq
  | storeRunning => exact noneCanceled_setTask (h hcancel) (by simp)
  | startLoad => exact noneCanceled_setTask (h hcancel) (by simp)
  | read => exact noneCanceled_setTask (h hcancel) (by simp)
  | goIdle => exact noneCanceled_setTask (h hcancel) (by simp)
  | goOn => exact noneCanceled_setTask (h hcancel) (by simp)
  | storeIdle => exact noneCanceled_setTask (h hcancel) (by simp)
  | finish => exact noneCanceled_setTask (h hcancel) (by simp)
  | _ => exact h hcancel

/-- A step of a caller outside `Schedule`. -/
theorem Phase.setCaller (h : Phase path r) (hx : ¬x.event.IsRequest) (hstate : r'.state = r.state)
    (hcallers : r'.callers = r.callers) (htasks : r'.tasks = r.tasks)
    (hcaller : caller.InSchedule ↔ (r.callers i).InSchedule) :
    Phase (path ++ [x]) (r'.setCaller i caller) := by
  refine h.same hx hstate (fun j => ?_) fun k t _ => ?_
  · rw [inSchedule_setCaller (hcallers ▸ hcaller), hcallers]
  · show r'.tasks[k]? = some t ↔ _
    rw [htasks]

/-- A request. -/
theorem Phase.request (h : Phase path r) {version : Nat} (hi : r.callers i = .changed version) :
    Phase (path ++ [x]) ({ r with state := .runningWithPending }.setCaller i
      (if r.state = ReloaderState.idle then .scheduling version else .outside)) := by
  have hout : ¬(r.callers i).InSchedule := by
    rw [hi]
    exact id
  cases h with
  | idle hs hc ht =>
    rw [if_pos hs]
    refine .scheduling i rfl ?_ (fun j hj => ?_) ht
    · rw [Reloader.callers_setCaller, if_pos rfl]
      trivial
    · rw [Reloader.callers_setCaller] at hj
      split at hj
      · next heq => exact heq
      · exact absurd hj (hc j)
  | scheduling j hs hj hunique ht =>
    rw [if_neg (by rw [hs]; simp)]
    have hsame := @inSchedule_setCaller { r with state := .runningWithPending } i .outside
      (iff_of_false id hout)
    exact .scheduling j rfl ((hsame j).mpr hj) (fun j' hj' => hunique j' ((hsame j').mp hj')) ht
  | reloading k t hk hactive hc hs =>
    rw [if_neg hs]
    have hsame := @inSchedule_setCaller { r with state := .runningWithPending } i .outside
      (iff_of_false id hout)
    exact .reloading k t hk hactive (fun j hj => hc j ((hsame j).mp hj))
      (by simp [Reloader.setCaller])
      (by simp [Reloader.setCaller])

/-- The task is started. -/
theorem Phase.emplace (h : Phase path r) {version : Nat} (hi : r.callers i = .joined version) :
    Phase (path ++ [x]) ({ r with mutex := none, task := some r.tasks.length,
                                  tasks := r.tasks ++ [ReloadTask.head] }.setCaller i
                                    .outside) := by
  have hin : (r.callers i).InSchedule := by
    rw [hi]
    trivial
  cases h with
  | idle _ hc => exact absurd hin (hc i)
  | scheduling j hs _ hunique _ =>
    refine .reloading r.tasks.length .head ?_ trivial (fun j' hj' => ?_) ?_ fun hrunning => ?_
    · show (r.tasks ++ [ReloadTask.head])[r.tasks.length]? = _
      simp
    · rw [Reloader.callers_setCaller] at hj'
      split at hj'
      · exact hj'
      · next hne => exact hne ((hunique j' hj').trans (hunique i hin).symm)
    · show r.state ≠ _
      simp [hs]
    · have hrunning : r.state = .running := hrunning
      simp [hs] at hrunning
  | reloading _ _ _ _ hc => exact absurd hin (hc i)

/-- **Who has to load changes as it should.** -/
theorem ReloadInv.phase_step (h : ReloadInv path r) (hstep : ReloadStep stamp r e r')
    (hcancel : r'.canceled = false) : Phase (path ++ [⟨r, e, r'⟩]) r' := by
  have hone := h.oneTask
  cases hstep with
  | cancel => cases hcancel
  | modify => exact (h.phase hcancel).same id rfl (fun _ => Iff.rfl) fun _ _ _ => Iff.rfl
  | noFile => exact (h.phase hcancel).same id rfl (fun _ => Iff.rfl) fun _ _ _ => Iff.rfl
  | observe hi =>
    exact (h.phase hcancel).setCaller id (by rfl) (by rfl) (by rfl)
      (iff_of_false id (by rw [hi]; exact id))
  | exchangeModifiedAt hi =>
    refine (h.phase hcancel).setCaller id (by rfl) (by rfl) (by rfl)
      (iff_of_false ?_ (by rw [hi]; exact id))
    split <;> exact id
  | request hi => exact (h.phase hcancel).request hi
  | lockSchedule hi =>
    exact (h.phase hcancel).setCaller id (by rfl) (by rfl) (by rfl)
      (iff_of_true trivial (by rw [hi]; trivial))
  | join hi =>
    exact (h.phase hcancel).setCaller id (by rfl) (by rfl) (by rfl)
      (iff_of_true trivial (by rw [hi]; trivial))
  | emplace hi => exact (h.phase hcancel).emplace hi
  | lockWait hi =>
    exact (h.phase hcancel).setCaller id (by rfl) (by rfl) (by rfl)
      (iff_of_false id (by rw [hi]; exact id))
  | reset hi =>
    exact (h.phase hcancel).setCaller id (by rfl) (by rfl) (by rfl)
      (iff_of_false id (by rw [hi]; exact id))
  | checkCanceled ht =>
    have hcancel : r.canceled = false := hcancel
    obtain ⟨hcallers, hstate, hrunning, -⟩ := (h.phase hcancel).active hone ht trivial
    rw [hcancel, if_neg Bool.false_ne_true]
    exact .setTask hcallers ht trivial hstate fun hr => (hrunning hr).elim
  | storeRunning ht =>
    obtain ⟨hcallers, -⟩ := (h.phase hcancel).active hone ht trivial
    exact .reloading _ .starting (getElem?_setTask ht _) trivial hcallers
      (by simp [Reloader.setTask])
      fun _ => trivial
  | startLoad ht =>
    obtain ⟨hcallers, hstate, -⟩ := (h.phase hcancel).active hone ht trivial
    exact .setTask hcallers ht trivial hstate fun _ => started_of_start trivial
  | read ht =>
    obtain ⟨hcallers, hstate, hrunning, -⟩ := (h.phase hcancel).active hone ht trivial
    exact .setTask hcallers ht trivial hstate fun hr => Started.read (hrunning hr) h.observed rfl
  | goIdle ht hr =>
    obtain ⟨hcallers, -, hrunning, hunique⟩ := (h.phase hcancel).active hone ht trivial
    refine .idle rfl hcallers (fun k' t' ht' hactive => ?_) (Served.snoc (hrunning hr) id)
    rw [Reloader.setTask, List.getElem?_set] at ht'
    split at ht'
    · split at ht'
      · rw [← Option.some.inj ht'] at hactive
        exact hactive
      · cases ht'
    · next hne => exact hne (hunique k' t' ht' hactive).symm
  | goOn ht hr =>
    obtain ⟨hcallers, hstate, -⟩ := (h.phase hcancel).active hone ht trivial
    exact .setTask hcallers ht trivial hstate fun h => absurd h hr
  | storeIdle ht => exact absurd ht (h.noneCanceled hcancel _)
  | finish ht => exact (h.phase hcancel).setInactive id ht id id

theorem ReloadInv.step (h : ReloadInv path r) (hstep : ReloadStep stamp r e r') :
    ReloadInv (path ++ [⟨r, e, r'⟩]) r' where
  oneTask := h.oneTask.step hstep
  observed := h.observed.step hstep
  phase := h.phase_step hstep
  noneCanceled hcancel := noneCanceled_step hstep hcancel h.noneCanceled

theorem reloadInv_path (h : Path (ReloadStep stamp) .initial path r) : ReloadInv path r := by
  induction h with
  | refl => exact reloadInv_initial
  | tail _ hstep ih => exact ih.step hstep

/-! ## Nothing is lost -/

/-- A thread will start a load, or read the file of one that it has started. -/
def HasToLoad (r : Reloader) : Prop :=
  (∃ i, (r.callers i).InSchedule) ∨ ∃ (k : Nat) (t : ReloadTask), r.tasks[k]? = some t ∧
    t.IsActive ∧ (t = .exchanging → r.state = .runningWithPending)

/-- The steps in which a scheduled load comes closer. -/
def ReloadEvent.IsProgress : ReloadEvent → Prop
  | .lockSchedule _ | .join _ | .emplace _ | .reset _ | .checkCanceled _ | .storeRunning _
  | .startLoad _ | .read _ _ | .exchangeState _ | .storeIdle _ | .finish _ => True
  | _ => False

theorem Phase.served_or (h : Phase path r) : Served path ∨ HasToLoad r := by
  cases h with
  | idle _ _ _ hserved => exact Or.inl hserved
  | scheduling i _ hi => exact Or.inr (Or.inl ⟨i, hi⟩)
  | reloading k t ht hactive _ hstate hrunning =>
    by_cases hr : r.state = .running ∧ t = .exchanging
    · obtain ⟨hr, rfl⟩ := hr
      exact Or.inl (hrunning hr)
    · refine Or.inr (Or.inr ⟨k, t, ht, hactive, fun hexchanging => ?_⟩)
      cases hs : r.state with
      | idle => exact absurd hs hstate
      | running => exact absurd ⟨hs, hexchanging⟩ hr
      | runningWithPending => rfl

/-- A task that runs goes on. -/
theorem exists_task_step (ht : r.tasks[k]? = some t) (hrunning : t.IsRunning) :
    ∃ e r', ReloadStep stamp r e r' ∧ e.IsProgress := by
  cases t with
  | head => exact ⟨_, _, .checkCanceled ht, trivial⟩
  | storing => exact ⟨_, _, .storeRunning ht, trivial⟩
  | starting => exact ⟨_, _, .startLoad ht, trivial⟩
  | loading => exact ⟨_, _, .read ht, trivial⟩
  | exchanging =>
    by_cases hr : r.state = .running
    · exact ⟨_, _, .goIdle ht hr, trivial⟩
    · exact ⟨_, _, .goOn ht hr, trivial⟩
  | canceled => exact ⟨_, _, .storeIdle ht, trivial⟩
  | leaving => exact ⟨_, _, .finish ht, trivial⟩
  | finished => exact hrunning.elim

/-- Whoever holds the mutex goes on, or the task it waits for does. -/
theorem OneTask.exists_holder_step (h : OneTask r) (hi : (r.callers i).HasMutex) :
    ∃ e r', ReloadStep stamp r e r' ∧ e.IsProgress := by
  have hwait : (r.taskDone → ∃ e r', ReloadStep stamp r e r' ∧ e.IsProgress) →
      ∃ e r', ReloadStep stamp r e r' ∧ e.IsProgress := by
    intro hdone
    by_cases htask : r.taskDone
    · exact hdone htask
    · unfold Reloader.taskDone at htask
      push Not at htask
      obtain ⟨k, hk, hne⟩ := htask
      have hlt := h.isTask k hk
      have ht := List.getElem?_eq_getElem hlt
      refine exists_task_step ht ?_
      rw [ht] at hne
      cases hcurrent : r.tasks[k] with
      | finished => exact absurd (congrArg some hcurrent) hne
      | _ => trivial
  cases hcaller : r.callers i with
  | holding => exact hwait fun hdone => ⟨_, _, .join hcaller hdone, trivial⟩
  | joined => exact ⟨_, _, .emplace hcaller, trivial⟩
  | waiting => exact hwait fun hdone => ⟨_, _, .reset hcaller hdone, trivial⟩
  | _ =>
    rw [hcaller] at hi
    exact hi.elim

/-- **A scheduled load is not blocked.** -/
theorem OneTask.exists_progress (h : OneTask r) (hload : HasToLoad r) :
    ∃ e r', ReloadStep stamp r e r' ∧ e.IsProgress := by
  rcases hload with ⟨i, hi⟩ | ⟨k, t, ht, hactive, -⟩
  · cases hmutex : r.mutex with
    | some j => exact h.exists_holder_step ((h.mutex j).mpr hmutex)
    | none =>
      cases hcaller : r.callers i with
      | scheduling => exact ⟨_, _, .lockSchedule hcaller hmutex, trivial⟩
      | holding =>
        refine h.exists_holder_step (i := i) ?_
        rw [hcaller]
        trivial
      | joined => exact ⟨_, _, .emplace hcaller, trivial⟩
      | _ =>
        rw [hcaller] at hi
        exact hi.elim
  · exact exists_task_step ht hactive.isRunning

/-- **No reload is lost.** One task runs at a time. Unless it was canceled, all requests are served
when the reloader is idle, and whenever one is not, a thread has to load and nothing blocks it. -/
theorem reload_not_lost (h : Path (ReloadStep stamp) .initial path r) :
    (∀ (k k' : Nat) (t t' : ReloadTask), r.tasks[k]? = some t → r.tasks[k']? = some t' →
      t.IsRunning → t'.IsRunning → k = k') ∧
    (r.canceled = false → (r.state = .idle → Served path) ∧ (Served path ∨ HasToLoad r)) ∧
    (HasToLoad r → ∃ e r', ReloadStep stamp r e r' ∧ e.IsProgress) := by
  have hinv := reloadInv_path h
  refine ⟨fun k k' t t' ht ht' hrunning hrunning' => ?_, fun hcancel => ⟨fun hidle => ?_, ?_⟩,
    hinv.oneTask.exists_progress⟩
  · have hk := hinv.oneTask.running k t ht hrunning
    rw [hinv.oneTask.running k' t' ht' hrunning', Option.some.injEq] at hk
    exact hk.symm
  · cases hinv.phase hcancel with
    | idle _ _ _ hserved => exact hserved
    | scheduling _ hs =>
      simp [hidle] at hs
    | reloading _ _ _ _ _ hs => exact absurd hidle hs
  · exact (hinv.phase hcancel).served_or

/-- The time stamps of a file that was last modified at 1. -/
def stampFromOne (version : Nat) : FileTimeStamp := UInt64.ofNat (version + 1)

/-- A modification, a call for it, and the load. -/
theorem reload_not_lost_once : ∃ path r, Path (ReloadStep stampFromOne) .initial path r ∧
    path.length = 13 ∧ r.state = .idle ∧ Served path := by
  have hstart : Path (ReloadStep stampFromOne) .initial [] .initial := .refl
  have hcalled := (((((hstart.tail .modify).tail (.observe (i := 0) rfl)).tail
    (.exchangeModifiedAt (i := 0) rfl)).tail (.request (i := 0) rfl)).tail
    (.lockSchedule (i := 0) rfl rfl)).tail (.join (i := 0) rfl fun k hk => by cases hk)
  have hloaded := ((((((hcalled.tail (.emplace (i := 0) rfl)).tail
    (.checkCanceled (k := 0) rfl)).tail (.storeRunning (k := 0) rfl)).tail
    (.startLoad (k := 0) rfl)).tail (.read (k := 0) rfl)).tail (.goIdle (k := 0) rfl rfl)).tail
    (.finish (k := 0) rfl)
  exact ⟨_, _, hloaded, rfl, rfl, ((reload_not_lost hloaded).2.1 rfl).1 rfl⟩

end Mozkey.Dictionary
