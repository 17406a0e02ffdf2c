import Mozkey.Prediction.HistorySync

/-!
# What a file keeps of the history

A cache that was copied, written and loaded again has the same entries in the same order
(`loadDic_copyOf`). So the file and the cache agree whenever `needs_sync_` is not set, as long as
the flag is not cleared for a change that came after the copy (`IsSynced.step`).

## Main results

* `loadDic_copyOf` — saving and loading
* `IsSynced.step` — what the runs keep in which no mutator comes between a copy and the clearing
* `isSynced_opened` — how a new process comes to its first state
-/

namespace Mozkey.Prediction.HistorySync

open Infra Base

variable {city : City} {legacy : Legacy}

/-! ## A file that was saved -/

/-- Every entry is stored under its own fingerprint, and the cache has its size. -/
structure IsKeyed (city : City) (dic : DicCache) : Prop where
  keyed : ∀ e ∈ dic.entries, e.1 = fingerprint city e.2.key e.2.value
  capacity : dic.capacity = kLruCacheSize

theorem migrateNextEntries_saved (entries : List Entry) :
    migrateNextEntries city legacy (entries.map fun entry => { entry }) =
      entries.map fun entry => { entry } := by
  rw [migrateNextEntries, if_pos]
  rw [List.all_eq_true]
  intro e he
  obtain ⟨entry, -, rfl⟩ := List.mem_map.mp he
  rfl

/-- Entries that are loaded one after the other, the first one last. -/
theorem entries_foldr_loadEntry : ∀ (l : List (UInt64 × Entry)), (Recency.keys l).Nodup →
    l.length ≤ kLruCacheSize → (∀ e ∈ l, e.1 = fingerprint city e.2.key e.2.value) →
    ((l.map fun e => ({ entry := e.2 } : FileEntry)).foldr (fun e dic => loadEntry city dic e)
        emptyDic).entries = l.filter (fun e => isLoadable e.2) ∧
      ((l.map fun e => ({ entry := e.2 } : FileEntry)).foldr (fun e dic => loadEntry city dic e)
        emptyDic).capacity = kLruCacheSize
  | [], _, _, _ => ⟨rfl, rfl⟩
  | e :: l, hnodup, hle, hkeyed => by
    have hkeys : e.1 ∉ Recency.keys l ∧ (Recency.keys l).Nodup := List.nodup_cons.mp hnodup
    rw [List.length_cons] at hle
    obtain ⟨ih, hcap⟩ := entries_foldr_loadEntry l hkeys.2 (Nat.le_of_succ_le hle)
      (List.forall_mem_cons.mp hkeyed).2
    have hself := hkeyed e List.mem_cons_self
    rw [List.map_cons, List.foldr_cons]
    generalize (l.map fun e => ({ entry := e.2 } : FileEntry)).foldr
      (fun e dic => loadEntry city dic e) emptyDic = dic at ih hcap ⊢
    rw [loadEntry, List.filter_cons]
    split
    · next hload =>
      have hnew : e.1 ∉ Recency.keys dic.entries := by
        rw [ih]
        exact fun hmem => hkeys.1 ((List.filter_sublist.map Prod.fst).subset hmem)
      have hroom : dic.entries.length < dic.capacity := by
        have hfilter := List.length_filter_le (fun e : UInt64 × Entry => isLoadable e.2) l
        rw [ih, hcap]
        omega
      refine ⟨?_, by rw [RecencyMap.capacity_insert, hcap]⟩
      rw [← hself, RecencyMap.entries_insert_of_new hnew hroom, ih]
      dsimp only
      simp
    · exact ⟨ih, hcap⟩

variable {dic : DicCache}

/-- **What is loaded from a saved file is what a load would keep, in the same order.** -/
theorem loadDic_copyOf (h : IsKeyed city dic) :
    (loadDic city legacy (some (copyOf dic))).entries = kept dic := by
  have hle : dic.entries.length ≤ kLruCacheSize := h.capacity ▸ dic.bounded
  rw [loadDic, copyOf, List.take_of_length_le (by rwa [List.length_map]),
    migrateNextEntries_saved, ← List.map_reverse, List.map_map, List.map_reverse,
    List.foldl_reverse]
  exact (entries_foldr_loadEntry dic.entries dic.nodup hle h.keyed).1

/-! ## Caches -/

theorem IsKeyed.empty : IsKeyed city emptyDic :=
  ⟨fun _ he => absurd he List.not_mem_nil, rfl⟩

theorem IsKeyed.insert (h : IsKeyed city dic) (entry : Entry) :
    IsKeyed city (dic.insert (fingerprint city entry.key entry.value) entry) := by
  refine ⟨fun e he => ?_, by rw [RecencyMap.capacity_insert, h.capacity]⟩
  rcases RecencyMap.mem_of_mem_insert he with rfl | he
  · rfl
  · exact h.keyed e he

theorem IsKeyed.erase (h : IsKeyed city dic) (fp : UInt64) :
    IsKeyed city (dic.erase fp) :=
  ⟨fun e he => h.keyed e (RecencyMap.mem_of_mem_erase he), h.capacity⟩

theorem IsKeyed.apply (h : IsKeyed city dic) :
    ∀ mutation : Mutation, IsKeyed city (mutation.apply city dic)
  | .insert entry => h.insert entry
  | .modify fp f keeps => by
    refine ⟨fun e he => ?_, h.capacity⟩
    rcases RecencyMap.mem_of_mem_adjust he with he | ⟨old, hold, rfl⟩
    · exact h.keyed e he
    · have hkeyed := h.keyed _ hold
      obtain ⟨hkey, hvalue⟩ := keeps old
      dsimp only at hkeyed ⊢
      rw [hkey, hvalue]
      exact hkeyed
  | .erase fps => by
    show IsKeyed city (fps.foldl RecencyMap.erase dic)
    induction fps generalizing dic with
    | nil => exact h
    | cons fp fps ih => exact ih (h.erase fp)

theorem IsKeyed.loadEntry (h : IsKeyed city dic) (e : FileEntry) :
    IsKeyed city (loadEntry city dic e) := by
  unfold HistorySync.loadEntry
  split
  · exact h.insert { e.entry with
      suggestionFreq := max e.entry.suggestionFreq e.conversionFreqDeprecated }
  · exact h

/-- A `Load` puts in what it would keep. -/
theorem loadEntry_loadable (h : ∀ e ∈ dic.entries, isLoadable e.2 = true) (e : FileEntry) :
    ∀ e' ∈ (loadEntry city dic e).entries, isLoadable e'.2 = true := by
  intro e' he'
  unfold loadEntry at he'
  split at he'
  · next hload =>
    rcases RecencyMap.mem_of_mem_insert he' with rfl | he'
    · exact hload
    · exact h e' he'
  · exact h e' he'

theorem foldl_loadEntry (proto : List FileEntry) (hkeyed : IsKeyed city dic)
    (hload : ∀ e ∈ dic.entries, isLoadable e.2 = true) :
    IsKeyed city (proto.foldl (loadEntry city) dic) ∧
      ∀ e ∈ (proto.foldl (loadEntry city) dic).entries, isLoadable e.2 = true := by
  induction proto generalizing dic with
  | nil => exact ⟨hkeyed, hload⟩
  | cons e proto ih => exact ih (hkeyed.loadEntry e) (loadEntry_loadable hload e)

theorem loadDic_spec (file : Option (List FileEntry)) :
    IsKeyed city (loadDic city legacy file) ∧
      kept (loadDic city legacy file) = (loadDic city legacy file).entries := by
  have hboth : IsKeyed city (loadDic city legacy file) ∧
      ∀ e ∈ (loadDic city legacy file).entries, isLoadable e.2 = true := by
    cases file with
    | none => exact ⟨IsKeyed.empty, fun _ he => absurd he List.not_mem_nil⟩
    | some proto =>
      exact foldl_loadEntry _ IsKeyed.empty fun _ he => absurd he List.not_mem_nil
  exact ⟨hboth.1, List.filter_eq_self.mpr hboth.2⟩

/-! ## Between saves -/

/-- What a `Load` in a new process makes of the file is what it would keep of the cache. -/
def IsSaved (city : City) (legacy : Legacy) (s : SyncState) : Prop :=
  (loadDic city legacy s.file).entries = kept s.dic

instance (s : SyncState) : Decidable (IsSaved city legacy s) :=
  inferInstanceAs (Decidable (_ = _))

/-- A `Save` has its copy and has not cleared the flag. -/
def isBehindCopy (s : SyncState) : Bool :=
  match s.syncer with
  | .writing _ | .clearing _ => true
  | _ => false

/-- No mutator comes between the copy of a `Save` and its clearing of the flag. -/
def IsTimely (x : Transition SyncState SyncEvent) : Prop :=
  x.event = .enter → isBehindCopy x.source = false

/-- Whether the task is one of `Save`, if there is one. -/
def isSaving : Syncer → Bool
  | .idle | .testing | .copying | .writing _ | .clearing _ => true
  | _ => false

structure IsSynced (city : City) (legacy : Legacy) (s : SyncState) : Prop where
  dic : IsKeyed city s.dic
  saving : isSaving s.syncer = true
  mutating : isMutating s = true → s.needsSync = true ∧ isBehindCopy s = false
  writing : ∀ copy, s.syncer = .writing copy → copy = copyOf s.dic
  clearing : ∀ copy, s.syncer = .clearing copy → copy = copyOf s.dic ∧ s.file = some copy
  saved : s.needsSync = false → IsSaved city legacy s
  closed : s.input = .closed → s.syncer = .idle ∧ IsSaved city legacy s

theorem kept_of_copyOf_nil (h : copyOf dic = []) : kept dic = [] := by
  have hlength := congrArg List.length h
  rw [copyOf, List.length_map, List.length_reverse, List.length_take, List.length_map,
    List.length_nil] at hlength
  have hpos : 0 < kLruCacheSize := by decide
  have hnil : dic.entries = [] := List.length_eq_zero_iff.mp (by omega)
  rw [kept, hnil]
  rfl

/-- A `Save` that nothing comes in between of. -/
theorem isSaved_save {s : SyncState} (hdic : IsKeyed city s.dic)
    (h : s.needsSync = false → IsSaved city legacy s) : IsSaved city legacy (save s) := by
  unfold save
  cases hneeds : s.needsSync with
  | false => exact h hneeds
  | true =>
    rw [Bool.not_true, if_neg Bool.false_ne_true]
    split
    · next hnil => exact (kept_of_copyOf_nil hnil).symm
    · exact loadDic_copyOf hdic

/-! ## One step -/

variable {s t : SyncState}

/-- What the input thread does. -/
inductive InputMove (city : City) (s : SyncState) : SyncEvent → SyncState → Prop
  | enter (depth : Nat) (hlock : isFilling s = false) :
    InputMove city s .enter { s with needsSync := true, input := .mutating depth }
  | change (mutation : Mutation) (hmutating : isMutating s = true) :
    InputMove city s (.change mutation) { s with dic := mutation.apply city s.dic }
  | leave (input : InputThread) (hmutating : isMutating s = true) (hopen : input ≠ .closed) :
    InputMove city s .leave { s with input := input }
  | asyncSave (hfree : s.input = .free) (hneeds : s.needsSync = true) :
    InputMove city s .asyncSave { s with syncer := .testing }
  | noSave : InputMove city s .asyncSave s
  | asyncLoad : InputMove city s .asyncLoad { s with syncer := .reading }
  | noLoad : InputMove city s .asyncLoad s
  | beginClear : InputMove city s .beginClear { s with canceled := true, input := .clearing }
  | endClear (hidle : s.syncer = .idle) :
    InputMove city s .endClear
      (save { s with dic := emptyDic, needsSync := true, canceled := false, input := .free })
  | beginClose (canceled : Bool) :
    InputMove city s .beginClose { s with canceled := canceled, input := .closing }
  | endClose (hidle : s.syncer = .idle) :
    InputMove city s .endClose { save s with input := .closed }

theorem inputMove_of_step {e : SyncEvent} (hstep : step city legacy s e = some t)
    (htask : e ≠ .task) : InputMove city s e t := by
  cases e with
  | enter =>
    rw [step] at hstep
    split at hstep
    · cases hstep
    · next hlock =>
      rw [Bool.not_eq_true] at hlock
      split at hstep
      · cases hstep
        exact .enter 0 hlock
      · cases hstep
        exact .enter _ hlock
      · cases hstep
  | change mutation =>
    rw [step] at hstep
    split at hstep
    · next hmutating =>
      cases hstep
      exact .change mutation hmutating
    · cases hstep
  | leave =>
    rw [step] at hstep
    split at hstep
    · next hinput =>
      cases hstep
      exact .leave .free (by rw [isMutating, hinput]) InputThread.noConfusion
    · next depth hinput =>
      cases hstep
      exact .leave (.mutating depth) (by rw [isMutating, hinput]) InputThread.noConfusion
    · cases hstep
  | asyncSave =>
    rw [step] at hstep
    split at hstep
    · next hfree =>
      cases hstep
      split
      · next hneeds => exact .asyncSave hfree ((Bool.and_eq_true _ _).mp hneeds).1
      · exact .noSave
    · cases hstep
  | asyncLoad =>
    rw [step] at hstep
    split at hstep
    · cases hstep
      split
      · exact .asyncLoad
      · exact .noLoad
    · cases hstep
  | beginClear =>
    rw [step] at hstep
    split at hstep
    · cases hstep
      exact .beginClear
    · cases hstep
  | endClear =>
    rw [step] at hstep
    split at hstep
    · next hboth =>
      cases hstep
      exact .endClear hboth.2
    · cases hstep
  | beginClose =>
    rw [step] at hstep
    split at hstep
    · cases hstep
      exact .beginClose _
    · cases hstep
  | endClose =>
    rw [step] at hstep
    split at hstep
    · next hboth =>
      cases hstep
      exact .endClose hboth.2
    · cases hstep
  | task => exact absurd rfl htask

/-- What the background task does. -/
inductive TaskMove (city : City) (legacy : Legacy) (s : SyncState) : SyncState → Prop
  | tested (hsyncer : s.syncer = .testing) :
    TaskMove city legacy s { s with syncer := if s.needsSync then .copying else .idle }
  | copied (hsyncer : s.syncer = .copying) (hfree : isMutating s = false) :
    TaskMove city legacy s { s with syncer := .writing (copyOf s.dic) }
  | unlinked (hsyncer : s.syncer = .writing []) :
    TaskMove city legacy s { s with file := none, syncer := .idle }
  | written (copy : List FileEntry) (hsyncer : s.syncer = .writing copy) (hne : copy ≠ []) :
    TaskMove city legacy s { s with file := some copy, syncer := .clearing copy }
  | cleared (copy : List FileEntry) (hsyncer : s.syncer = .clearing copy) :
    TaskMove city legacy s { s with needsSync := false, syncer := .idle }
  | read (hsyncer : s.syncer = .reading) :
    TaskMove city legacy s { s with syncer := .entering s.file }
  | nothingRead (hsyncer : s.syncer = .entering none) :
    TaskMove city legacy s { s with dic := emptyDic, needsSync := false, syncer := .idle }
  | entered (proto : List FileEntry) (hsyncer : s.syncer = .entering (some proto)) :
    TaskMove city legacy s
      { s with
        dic := emptyDic
        needsSync := false
        syncer := .filling (migrateNextEntries city legacy proto) }
  | filled (rest : List FileEntry) (hsyncer : s.syncer = .filling rest) :
    TaskMove city legacy s { s with syncer := .idle }
  | put (e : FileEntry) (rest : List FileEntry) (hsyncer : s.syncer = .filling (e :: rest)) :
    TaskMove city legacy s { s with dic := loadEntry city s.dic e, syncer := .filling rest }

theorem taskMove_of_step (hstep : taskStep city legacy s = some t) :
    TaskMove city legacy s t := by
  unfold taskStep at hstep
  split at hstep
  · cases hstep
  · next hsyncer =>
    cases hstep
    exact .tested hsyncer
  · next hsyncer =>
    split at hstep
    · cases hstep
    · next hfree =>
      cases hstep
      exact .copied hsyncer (Bool.eq_false_iff.mpr hfree)
  · next copy hsyncer =>
    split at hstep
    · next hnil =>
      cases hstep
      exact .unlinked (hnil ▸ hsyncer)
    · next hne =>
      cases hstep
      exact .written copy hsyncer hne
  · next copy hsyncer =>
    cases hstep
    exact .cleared copy hsyncer
  · next hsyncer =>
    cases hstep
    exact .read hsyncer
  · next input hsyncer =>
    split at hstep
    · cases hstep
    · cases hstep
      cases input with
      | none => exact .nothingRead hsyncer
      | some proto => exact .entered proto hsyncer
  · next hsyncer =>
    cases hstep
    exact .filled [] hsyncer
  · next e rest hsyncer =>
    split at hstep
    · cases hstep
      exact .filled (e :: rest) hsyncer
    · cases hstep
      exact .put e rest hsyncer

/-! ## What the steps keep -/

theorem IsSynced.enter (h : IsSynced city legacy s) (hlate : isBehindCopy s = false)
    (depth : Nat) :
    IsSynced city legacy { s with needsSync := true, input := .mutating depth } := by
  have hcopy : ∀ copy, s.syncer ≠ .writing copy ∧ s.syncer ≠ .clearing copy := by
    intro copy
    constructor <;> intro hsyncer <;> rw [isBehindCopy, hsyncer] at hlate <;> cases hlate
  exact
    { dic := h.dic
      saving := h.saving
      mutating := fun _ => ⟨rfl, hlate⟩
      writing := fun copy hsyncer => absurd hsyncer (hcopy copy).1
      clearing := fun copy hsyncer => absurd hsyncer (hcopy copy).2
      saved := fun hneeds => by cases hneeds
      closed := fun hinput => by cases hinput }

theorem IsSynced.change (h : IsSynced city legacy s) (mutation : Mutation)
    (hmutating : isMutating s = true) :
    IsSynced city legacy { s with dic := mutation.apply city s.dic } := by
  obtain ⟨hneeds, hlate⟩ := h.mutating hmutating
  -- the flag is set, and nothing was copied yet
  refine
    { dic := h.dic.apply mutation
      saving := h.saving
      mutating := h.mutating
      writing := fun copy hsyncer => ?_
      clearing := fun copy hsyncer => ?_
      saved := fun hfalse => ?_
      closed := fun hinput => ?_ }
  · simp [isBehindCopy, show s.syncer = .writing copy from hsyncer] at hlate
  · simp [isBehindCopy, show s.syncer = .clearing copy from hsyncer] at hlate
  · simp [show s.needsSync = false from hfalse] at hneeds
  · simp [isMutating, show s.input = .closed from hinput] at hmutating

/-- The input thread goes elsewhere, and no mutator is left that was not there. -/
theorem IsSynced.withInput (h : IsSynced city legacy s) {input : InputThread} (canceled : Bool)
    (hmutating : (∃ depth, input = .mutating depth) → isMutating s = true)
    (hclosed : input ≠ .closed) :
      IsSynced city legacy { s with input := input, canceled := canceled } :=
  { dic := h.dic
    saving := h.saving
    mutating := fun hm => h.mutating (hmutating (by
      cases input with
      | mutating depth => exact ⟨depth, rfl⟩
      | free => cases hm
      | clearing => cases hm
      | closing => cases hm
      | closed => cases hm))
    writing := h.writing
    clearing := h.clearing
    saved := h.saved
    closed := fun hinput => absurd hinput hclosed }

@[simp] theorem save_input (s : SyncState) : (HistorySync.save s).input = s.input := by
  unfold HistorySync.save
  split
  · rfl
  · split <;> rfl

/-- A `Save` of the input thread, which then goes on or ends. -/
theorem IsSynced.save (hdic : IsKeyed city s.dic) (hsyncer : s.syncer = .idle)
    (hsaved : s.needsSync = false → IsSaved city legacy s) {input : InputThread}
    (hinput : ∀ depth, input ≠ .mutating depth) :
    IsSynced city legacy { HistorySync.save s with input := input } := by
  have hkept : (HistorySync.save s).dic = s.dic ∧ (HistorySync.save s).syncer = s.syncer := by
    unfold HistorySync.save
    split
    · exact ⟨rfl, rfl⟩
    · split <;> exact ⟨rfl, rfl⟩
  have hfile := isSaved_save hdic hsaved
  have hidle : (HistorySync.save s).syncer = .idle := by rw [hkept.2, hsyncer]
  refine
    { dic := by rw [hkept.1]; exact hdic
      saving := by rw [hidle]; rfl
      mutating := fun hm => ?_
      writing := fun copy hcopy => ?_
      clearing := fun copy hcopy => ?_
      saved := fun _ => hfile
      closed := fun _ => ⟨hidle, hfile⟩ }
  · cases input with
    | mutating depth => exact absurd rfl (hinput depth)
    | free => cases hm
    | clearing => cases hm
    | closing => cases hm
    | closed => cases hm
  · simp [hidle] at hcopy
  · simp [hidle] at hcopy

/-- The task goes to a place where it has no copy. -/
theorem IsSynced.withSyncer (h : IsSynced city legacy s) {syncer : Syncer}
    (hsaving : isSaving syncer = true)
      (hcopy : ∀ copy, syncer ≠ .writing copy ∧ syncer ≠ .clearing copy)
    (hclosed : s.input ≠ .closed) : IsSynced city legacy { s with syncer := syncer } :=
  { dic := h.dic
    saving := hsaving
    mutating := fun hm => ⟨(h.mutating hm).1, by
      cases syncer with
      | writing copy => exact absurd rfl (hcopy copy).1
      | clearing copy => exact absurd rfl (hcopy copy).2
      | idle => rfl
      | testing => rfl
      | copying => rfl
      | reading => rfl
      | entering _ => rfl
      | filling _ => rfl⟩
    writing := fun copy hsyncer => absurd hsyncer (hcopy copy).1
    clearing := fun copy hsyncer => absurd hsyncer (hcopy copy).2
    saved := h.saved
    closed := fun hinput => absurd hinput hclosed }

theorem not_mutating_of_behind (h : IsSynced city legacy s) (hbehind : isBehindCopy s = true) :
    isMutating s = false := by
  rw [Bool.eq_false_iff]
  intro hm
  simp [(h.mutating hm).2] at hbehind

theorem IsSynced.task (h : IsSynced city legacy s) (hstep : taskStep city legacy s = some t) :
    IsSynced city legacy t := by
  have hsaving := h.saving
  have hopen : ∀ syncer, s.syncer = syncer → syncer ≠ .idle → s.input ≠ .closed :=
    fun syncer hsyncer hrunning hinput => hrunning (hsyncer ▸ (h.closed hinput).1)
  cases taskMove_of_step hstep with
  | tested hsyncer =>
    refine h.withSyncer ?_ (fun copy => ?_) (hopen _ hsyncer Syncer.noConfusion)
    · split <;> rfl
    · constructor <;> split <;> exact Syncer.noConfusion
  | copied hsyncer hfree =>
    -- the copy is taken under the lock
    have hinput := hopen _ hsyncer Syncer.noConfusion
    exact
      { dic := h.dic
        saving := rfl
        mutating := fun hm => absurd hm (Bool.eq_false_iff.mp hfree)
        writing := fun copy hcopy => (Syncer.writing.inj hcopy).symm
        clearing := fun copy hcopy => by cases hcopy
        saved := h.saved
        closed := fun hclosed => absurd hclosed hinput }
  | unlinked hsyncer =>
    have hinput := hopen _ hsyncer Syncer.noConfusion
    have hfree := not_mutating_of_behind h (by rw [isBehindCopy, hsyncer])
    have hnil := (h.writing [] hsyncer).symm
    exact
      { dic := h.dic
        saving := rfl
        mutating := fun hm => absurd hm (Bool.eq_false_iff.mp hfree)
        writing := fun copy hcopy => by cases hcopy
        clearing := fun copy hcopy => by cases hcopy
        saved := fun _ => (kept_of_copyOf_nil hnil).symm
        closed := fun hclosed => absurd hclosed hinput }
  | written copy hsyncer hne =>
    have hinput := hopen _ hsyncer Syncer.noConfusion
    have hfree := not_mutating_of_behind h (by rw [isBehindCopy, hsyncer])
    obtain rfl := h.writing copy hsyncer
    exact
      { dic := h.dic
        saving := rfl
        mutating := fun hm => absurd hm (Bool.eq_false_iff.mp hfree)
        writing := fun copy hcopy => by cases hcopy
        clearing := fun copy hcopy => ⟨(Syncer.clearing.inj hcopy).symm, by
          rw [← Syncer.clearing.inj hcopy]⟩
        saved := fun _ => loadDic_copyOf h.dic
        closed := fun hclosed => absurd hclosed hinput }
  | cleared copy hsyncer =>
    have hinput := hopen _ hsyncer Syncer.noConfusion
    have hfree := not_mutating_of_behind h (by rw [isBehindCopy, hsyncer])
    obtain ⟨rfl, hfile⟩ := h.clearing copy hsyncer
    exact
      { dic := h.dic
        saving := rfl
        mutating := fun hm => absurd hm (Bool.eq_false_iff.mp hfree)
        writing := fun copy hcopy => by cases hcopy
        clearing := fun copy hcopy => by cases hcopy
        saved := fun _ => by
          show (loadDic city legacy s.file).entries = kept s.dic
          rw [hfile]
          exact loadDic_copyOf h.dic
        closed := fun hclosed => absurd hclosed hinput }
  | read hsyncer =>
    rw [hsyncer] at hsaving
    cases hsaving
  | nothingRead hsyncer =>
    rw [hsyncer] at hsaving
    cases hsaving
  | entered proto hsyncer =>
    rw [hsyncer] at hsaving
    cases hsaving
  | filled rest hsyncer =>
    rw [hsyncer] at hsaving
    cases hsaving
  | put e rest hsyncer =>
    rw [hsyncer] at hsaving
    cases hsaving

/-- **What a step keeps that loads nothing and begins no mutator behind a copy.** -/
theorem IsSynced.step {e : SyncEvent} (h : IsSynced city legacy s) (hload : e ≠ .asyncLoad)
    (hlate : e = .enter → isBehindCopy s = false) (hstep : step city legacy s e = some t) :
    IsSynced city legacy t := by
  by_cases htask : e = .task
  · subst htask
    exact h.task hstep
  cases inputMove_of_step hstep htask with
  | enter depth hlock => exact h.enter (hlate rfl) depth
  | change mutation hmutating => exact h.change mutation hmutating
  | leave input hmutating hopen => exact h.withInput s.canceled (fun _ => hmutating) hopen
  | asyncSave hfree hneeds =>
    exact h.withSyncer rfl (fun copy => ⟨Syncer.noConfusion, Syncer.noConfusion⟩)
      (by rw [hfree]; exact InputThread.noConfusion)
  | noSave => exact h
  | asyncLoad => exact absurd rfl hload
  | noLoad => exact h
  | beginClear => exact h.withInput true (fun ⟨_, hd⟩ => by cases hd) InputThread.noConfusion
  | endClear hidle =>
    let cleared : SyncState :=
      { s with dic := emptyDic, needsSync := true, canceled := false, input := .free }
    have hsaved : IsSynced city legacy { HistorySync.save cleared with input := .free } :=
      IsSynced.save (s := cleared) IsKeyed.empty hidle (fun hneeds => by cases hneeds)
        fun depth => InputThread.noConfusion
    have hinput : (HistorySync.save cleared).input = .free := save_input cleared
    rw [← hinput] at hsaved
    exact hsaved
  | beginClose canceled =>
    exact h.withInput canceled (fun ⟨_, hd⟩ => by cases hd) InputThread.noConfusion
  | endClose hidle =>
    exact IsSynced.save h.dic hidle h.saved fun depth => InputThread.noConfusion

theorem isSynced_opened (file : Option (List FileEntry)) :
    IsSynced city legacy (opened city legacy file) :=
  { dic := (loadDic_spec file).1
    saving := rfl
    mutating := fun hm => by cases hm
    writing := fun copy hcopy => by cases hcopy
    clearing := fun copy hcopy => by cases hcopy
    saved := fun _ => (loadDic_spec file).2.symm
    closed := fun hinput => by cases hinput }

end Mozkey.Prediction.HistorySync
