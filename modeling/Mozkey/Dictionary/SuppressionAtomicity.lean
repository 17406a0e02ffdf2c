import Mozkey.Dictionary.HiddenDictionary

/-!
# Hiding a candidate, all or nothing

A call finds the entry in the hidden-candidate dictionary, adds it, or leaves everything as it is.

Two things stand between a call and its promise. The file is written although it is too big, and
the call reports a failure. And an entry of the file may not take effect: the entry that is found is
not valid, or the fingerprint of an entry in front of it is the same.
-/

namespace Mozkey.Dictionary

open Infra Base

/-! ## What a call promises -/

/-- Every operation on the files succeeds. -/
def FileOutcomes.Writes (outcomes : FileOutcomes) : Prop :=
  outcomes.opensForWrite = true ∧ outcomes.serializes = true ∧ outcomes.closes = true ∧
    outcomes.atomicRename.isOk = true

namespace SuppressionState

variable (services : Services) (outcomes : FileOutcomes) (key value : Bytes)

/-- The promise of `AddSuppressionEntry`, and that a second call adds nothing. -/
structure AllOrNothing (before : SuppressionState) (answer : Bool × SuppressionState) : Prop where
  of_true : answer.1 = true →
    (∃ entry ∈ answer.2.file.entries, standsFor services (services.readingOf key) value entry) ∧
      answer.2.suppression.isSuppressedEntry (services.readingOf key) value = true
  of_false : answer.1 = false →
    answer.2.file = before.file ∧ answer.2.suppression = before.suppression
  others : OthersKept before.file answer.2.file
  released : answer.2.locked = false
  once : answer.2.file ≠ before.file → ∀ outcomes' newId',
    (addSuppressionEntry { services with newId := newId' } outcomes' key value answer.2).2.file =
      answer.2.file

/-- The call gets as far as the hidden-candidate dictionary, at an index of the storage. -/
structure ReachesDictionary (s : SuppressionState) (storage : Storage) (index : Nat) : Prop where
  key_ne_nil : key ≠ []
  value_ne_nil : value ≠ []
  valid : (validateEntry (newEntry services key value)).isOk = true
  locks : outcomes.locks = true
  loads : (load outcomes services.newId services.filename s.file).2.isOk = true ∨
    (load outcomes services.newId services.filename s.file).2.code = .notFound
  found : ∃ id, findOrCreate services (load outcomes services.newId services.filename s.file).1 =
    .inr (id, storage) ∧ storage.getUserDictionaryIndex id = some index

/-- The word is hidden by the dictionary already. -/
def Finds (storage : Storage) (index : Nat) : Prop :=
  (storage.dictionaries.getD index {}).entries.any
    (standsFor services (services.readingOf key) value) = true

/-- The dictionary has room, and the file can be replaced. -/
def CanAdd (storage : Storage) (index : Nat) : Prop :=
  (storage.dictionaries.getD index {}).isFull = false ∧ outcomes.Writes

/-- The storage with the new entry. -/
def added (storage : Storage) (index : Nat) : Storage :=
  storage.addEntry index (newEntry services key value)

/-- The file is not too big, the entry takes effect, and it is the hidden-candidate dictionary that
has its id. -/
def HoldsWhen (s : SuppressionState) : Prop :=
  ∀ storage index, ReachesDictionary services outcomes key value s storage index →
    (Finds services key value storage index →
      services.Hides storage.entries (services.readingOf key) value) ∧
    (¬Finds services key value storage index → CanAdd outcomes storage index →
      services.fileSize (added services key value storage index) <
          kDefaultWarningTotalBytesLimit ∧
        services.Hides (added services key value storage index).entries (services.readingOf key)
          value ∧
        (storage.dictionaries.getD index {}).name = kHiddenCandidateDictionaryName)

/-! ## What a call does -/

/-- The ways in which a call ends. -/
inductive Ends (s : SuppressionState) : Bool × SuppressionState → Prop where
  | refused : (∀ storage index, ReachesDictionary services outcomes key value s storage index →
      ¬Finds services key value storage index ∧ ¬CanAdd outcomes storage index) →
      Ends s (false, s)
  | found {storage : Storage} {index : Nat} :
      ReachesDictionary services outcomes key value s storage index →
      Finds services key value storage index →
      Ends s (true, { s with suppression := services.loadSuppression storage })
  | warned {storage : Storage} {index : Nat} :
      ReachesDictionary services outcomes key value s storage index →
      ¬Finds services key value storage index → CanAdd outcomes storage index →
      kDefaultWarningTotalBytesLimit ≤
        services.fileSize (added services key value storage index) →
      Ends s (false, { s with file := .intact (added services key value storage index) })
  | adds {storage : Storage} {index : Nat} :
      ReachesDictionary services outcomes key value s storage index →
      ¬Finds services key value storage index → CanAdd outcomes storage index →
      services.fileSize (added services key value storage index) <
        kDefaultWarningTotalBytesLimit →
      Ends s (true,
        { s with
          file := .intact (added services key value storage index)
          suppression := services.loadSuppression (added services key value storage index) })

variable {services : Services} {outcomes : FileOutcomes} {key value : Bytes}
  {s : SuppressionState} {storage : Storage} {index : Nat}

theorem ReachesDictionary.unique {storage' : Storage} {index' : Nat}
    (h : ReachesDictionary services outcomes key value s storage index)
    (h' : ReachesDictionary services outcomes key value s storage' index') :
    storage' = storage ∧ index' = index := by
  obtain ⟨id, hfound, hindex⟩ := h.found
  obtain ⟨id', hfound', hindex'⟩ := h'.found
  rw [hfound, Sum.inr.injEq, Prod.mk.injEq] at hfound'
  obtain ⟨rfl, rfl⟩ := hfound'
  rw [hindex, Option.some.injEq] at hindex'
  exact ⟨rfl, hindex'.symm⟩

/-- The lock that a call takes is released. -/
theorem unlock_eq (h : s.locked = false) (file : StoredFile) (suppression : SuppressionDictionary) :
    unlock { file := file, suppression := suppression, locked := true } =
      { s with file := file, suppression := suppression } := by
  rw [unlock, h]

/-- The file is replaced if and only if every operation on it succeeds, also by one that is too
big. -/
theorem save_cases (services : Services) (outcomes : FileOutcomes) (proto : Storage)
    (file : StoredFile) :
    (∃ status, save outcomes services.fileSize services.filename true proto file = (status, file) ∧
      status.isOk = false ∧ ¬outcomes.Writes) ∨
    ∃ status, save outcomes services.fileSize services.filename true proto file =
        (status, .intact proto) ∧
      (status.isOk = true ↔ services.fileSize proto < kDefaultWarningTotalBytesLimit) ∧
      outcomes.Writes := by
  unfold save FileOutcomes.Writes
  simp only [Bool.not_true, Bool.false_eq_true, if_false, Bool.not_eq_true']
  split
  · next h => exact Or.inl ⟨_, rfl, rfl, by simp [h]⟩
  · split
    · next h => exact Or.inl ⟨_, rfl, rfl, by simp [h]⟩
    · split
      · next h => exact Or.inl ⟨_, rfl, rfl, by simp [h]⟩
      · split
        · next h => exact Or.inl ⟨_, rfl, rfl, by simp [h]⟩
        · split
          · next hbig =>
            refine Or.inr ⟨_, rfl, ?_, by simp_all⟩
            simp [Status.isOk, reduceCtorEq, decide_false, false_iff]
            omega
          · next hsmall =>
            refine Or.inr ⟨_, rfl, ?_, by simp_all⟩
            simp only [Status.isOk, decide_true, true_iff]
            omega

theorem addToDictionary_ends (h : s.locked = false) {id : Nat}
    (hreach : ∀ index, storage.getUserDictionaryIndex id = some index →
      ReachesDictionary services outcomes key value s storage index)
    (hnone : storage.getUserDictionaryIndex id = none →
      ∀ storage index, ¬ReachesDictionary services outcomes key value s storage index) :
    Ends services outcomes key value s
      (addToDictionary services outcomes key value storage id { s with locked := true }) := by
  unfold addToDictionary
  cases hindex : storage.getUserDictionaryIndex id with
  | none =>
    rw [unlock_eq h]
    exact .refused fun storage index hreach => absurd hreach (hnone hindex storage index)
  | some index =>
    have hreach := hreach index hindex
    dsimp only
    split
    · next hfinds =>
      rw [unlock_eq h]
      exact .found hreach hfinds
    · next hfinds =>
      split
      · next hfull =>
        rw [unlock_eq h]
        refine .refused fun storage' index' hreach' => ?_
        obtain ⟨rfl, rfl⟩ := hreach.unique hreach'
        refine ⟨hfinds, fun hadd => ?_⟩
        rw [hadd.1] at hfull
        cases hfull
      · next hfull =>
        rw [Bool.not_eq_true] at hfull
        rcases save_cases services outcomes (added services key value storage index) s.file with
          ⟨status, hsave, hnot, hfails⟩ | ⟨status, hsave, hok, hwrites⟩
        · rw [added] at hsave
          simp only [hsave, hnot, Bool.not_false, if_true]
          rw [unlock_eq h]
          refine .refused fun storage' index' hreach' => ?_
          obtain ⟨rfl, rfl⟩ := hreach.unique hreach'
          exact ⟨hfinds, fun hadd => hfails hadd.2⟩
        · rw [added] at hsave
          simp only [hsave]
          split
          · next hwarned =>
            rw [unlock_eq h]
            refine .warned hreach hfinds ⟨hfull, hwrites⟩ ?_
            simp only [Bool.not_eq_true', ← Bool.not_eq_true] at hwarned
            exact Nat.not_lt.mp fun hlt => hwarned (hok.mpr hlt)
          · next hsaved =>
            rw [unlock_eq h]
            exact .adds hreach hfinds ⟨hfull, hwrites⟩ (hok.mp (by simpa using hsaved))

/-- **Every call ends in one of four ways.** -/
theorem addSuppressionEntry_ends (h : s.locked = false) :
    Ends services outcomes key value s (addSuppressionEntry services outcomes key value s) := by
  unfold addSuppressionEntry
  split
  · next hempty =>
    refine .refused fun storage index hreach => ?_
    simp [hreach.key_ne_nil, hreach.value_ne_nil] at hempty
  · next hempty =>
    rw [Bool.not_eq_true, Bool.or_eq_false_iff, List.isEmpty_eq_false_iff,
      List.isEmpty_eq_false_iff] at hempty
    split
    · next hinvalid =>
      refine .refused fun storage index hreach => ?_
      simp [hreach.valid] at hinvalid
    · next hvalid =>
      split
      · next hlocks =>
        refine .refused fun storage index hreach => ?_
        simp [hreach.locks] at hlocks
      · next hlocks =>
        dsimp only
        split
        · next hload =>
          rw [unlock_eq h]
          refine .refused fun storage index hreach => ?_
          rcases hreach.loads with hok | hnotFound
          · simp [hok] at hload
          · simp [hnotFound] at hload
        · next hload =>
          cases hfound : findOrCreate services
              (load outcomes services.newId services.filename s.file).1 with
          | inl status =>
            dsimp only
            rw [unlock_eq h]
            refine .refused fun storage index hreach => ?_
            obtain ⟨id, hfound', -⟩ := hreach.found
            simp [hfound] at hfound'
          | inr result =>
            obtain ⟨id, storage⟩ := result
            refine addToDictionary_ends h
              (fun index hindex => ?_) fun hindex storage' index' hreach => ?_
            · exact ⟨hempty.1, hempty.2, by simpa using hvalid, by simpa using hlocks,
                by simpa [or_iff_not_imp_left] using hload, id, hfound, hindex⟩
            · obtain ⟨id', hfound', hindex'⟩ := hreach.found
              rw [hfound, Sum.inr.injEq, Prod.mk.injEq] at hfound'
              obtain ⟨rfl, rfl⟩ := hfound'
              simp [hindex] at hindex'

/-! ## The dictionary that is reached -/

theorem ReachesDictionary.targets
    (h : ReachesDictionary services outcomes key value s storage index) :
    List.Forall₂ SameDictionary (withHidden s.file.dictionaries) storage.dictionaries ∧
      (∀ dictionary ∈ storage.dictionaries, dictionary.id ≠ 0) ∧
        ∃ id, Targets storage id index := by
  obtain ⟨hsame, hids⟩ := load_spec h.loads
  obtain ⟨id, hfound, hindex⟩ := h.found
  obtain ⟨hsame', hids', hid⟩ := findOrCreate_spec hfound hids
  refine ⟨?_, hids', id, hid, hindex⟩
  have hwith : List.Forall₂ SameDictionary (withHidden s.file.dictionaries)
      (withHidden (load outcomes services.newId services.filename s.file).1.dictionaries) := by
    have hany : ∀ l : List UserDictionary,
        (l.any fun d => d.name = kHiddenCandidateDictionaryName) =
          (l.map (·.name)).any fun name => name = kHiddenCandidateDictionaryName := by
      intro l
      rw [List.any_map]
      rfl
    unfold withHidden
    rw [hany, hany, names_of_same hsame]
    split
    · exact hsame
    · exact List.rel_append hsame (.cons (sameDictionary_refl _) .nil)
  exact forall₂_sameDictionary_trans hwith hsame'

theorem ReachesDictionary.entries
    (h : ReachesDictionary services outcomes key value s storage index) :
    storage.entries = s.file.entries := by
  have hentries := entries_of_same h.targets.1
  rw [Storage.entries, StoredFile.entries, ← entries_withHidden s.file.dictionaries,
    List.flatMap_def, hentries, List.flatMap_def]

/-- The file with one more entry is another file. -/
theorem ReachesDictionary.file_ne
    (h : ReachesDictionary services outcomes key value s storage index) (entry : Entry) :
    StoredFile.intact (storage.addEntry index entry) ≠ s.file := by
  intro heq
  obtain ⟨-, -, id, htargets⟩ := h.targets
  have hlength := (@Storage.entries_addEntry storage index entry htargets.name_iff.1).length_eq
  have hsame : (storage.addEntry index entry).entries = storage.entries := by
    rw [h.entries, ← heq]
    rfl
  rw [hsame, List.length_cons] at hlength
  omega

/-- **The other dictionaries are kept if and only if the entry went to the hidden-candidate
dictionary.** -/
theorem ReachesDictionary.othersKept_iff
    (h : ReachesDictionary services outcomes key value s storage index) (entry : Entry) :
    OthersKept s.file (.intact (storage.addEntry index entry)) ↔
      (storage.dictionaries.getD index {}).name = kHiddenCandidateDictionaryName := by
  obtain ⟨hsame, -, id, htargets⟩ := h.targets
  obtain ⟨hlt, hle, hhidden, hname⟩ := htargets.name_iff
  rw [hname]
  constructor
  · rintro (heq | ⟨kept, entry', hkept, heq⟩)
    · exact absurd heq (h.file_ne entry)
    · by_contra hne
      have hnames := (names_of_same hsame).trans (names_of_same hkept).symm
      rw [← hiddenIndex_of_names hnames] at heq
      have hdictionaries := congrArg Storage.dictionaries (StoredFile.intact.inj heq)
      have hat := congrArg (fun l => (l[hiddenIndex storage.dictionaries]?).map (·.entries))
        hdictionaries
      have hentries : kept.map (·.entries) = storage.dictionaries.map (·.entries) :=
        (entries_of_same hkept).trans (entries_of_same hsame).symm
      have hkeptAt : (kept[hiddenIndex storage.dictionaries]?).map (·.entries) =
          (storage.dictionaries[hiddenIndex storage.dictionaries]?).map (·.entries) := by
        simp [← List.getElem?_map, hentries]
      simp only [Storage.addEntry, List.getElem?_modify_ne _ _ hne, List.getElem?_modify_eq]
        at hat
      rw [← hkeptAt] at hat
      cases hget : kept[hiddenIndex storage.dictionaries]? with
      | none =>
        simp [hget, List.getElem?_eq_getElem hhidden] at hkeptAt
      | some dictionary =>
        rw [hget] at hat
        simp at hat
  · rintro rfl
    exact Or.inr ⟨storage.dictionaries, entry, hsame, rfl⟩

/-- The entry that was added stands for the word. -/
theorem standsFor_newEntry (hidem : ∀ key, services.readingOf (services.readingOf key) =
    services.readingOf key) :
    standsFor services (services.readingOf key) value (newEntry services key value) = true := by
  simp [standsFor, newEntry, Entry.pos, hidem]

/-- Behind a call that has written the file, another call finds the entry. -/
theorem ReachesDictionary.finds_again
    (h : ReachesDictionary services outcomes key value s storage index)
    (hidem : ∀ key, services.readingOf (services.readingOf key) = services.readingOf key)
    {t : SuppressionState} (hfile : t.file = .intact (added services key value storage index))
    {newId : IdSource} {outcomes' : FileOutcomes} {storage' : Storage} {index' : Nat}
    (h' : ReachesDictionary { services with newId := newId } outcomes' key value t storage'
      index') :
    Finds { services with newId := newId } key value storage' index' := by
  obtain ⟨-, hids, id, htargets⟩ := h.targets
  have hids' : ∀ dictionary ∈ (added services key value storage index).dictionaries,
      dictionary.id ≠ 0 := Storage.ids_addEntry hids
  have htargets' : Targets (added services key value storage index) id index :=
    htargets.addEntry _
  -- the file is loaded as it was written
  have hload : (load outcomes' newId services.filename t.file).1 =
      added services key value storage index := by
    have hloads := h'.loads
    rw [hfile] at hloads ⊢
    exact load_intact hloads hids'
  obtain ⟨id', hfound, hindex⟩ := h'.found
  have hget := htargets'.getId
  rw [show (load outcomes' (({ services with newId := newId } : Services).newId)
    ({ services with newId := newId } : Services).filename t.file).1 = _ from hload,
    findOrCreate, hget] at hfound
  obtain ⟨rfl, rfl⟩ := Prod.mk.inj (Sum.inr.inj hfound)
  rw [htargets'.getIndex, Option.some.injEq] at hindex
  subst hindex
  show List.any _ _ = true
  refine List.any_eq_true.mpr ⟨newEntry services key value, ?_, standsFor_newEntry hidem⟩
  rw [added, Storage.dictionary_addEntry htargets.name_iff.1]
  exact List.mem_append_right _ List.mem_cons_self

/-- A call that finds the word in the dictionary writes nothing. -/
theorem file_of_finds (h : s.locked = false)
    (hfinds : ∀ storage index, ReachesDictionary services outcomes key value s storage index →
      Finds services key value storage index) :
    (addSuppressionEntry services outcomes key value s).2.file = s.file := by
  have hends := @addSuppressionEntry_ends services outcomes key value s h
  generalize addSuppressionEntry services outcomes key value s = answer at hends ⊢
  cases hends with
  | refused _ => rfl
  | found _ _ => rfl
  | warned hreach hnot _ _ => exact absurd (hfinds _ _ hreach) hnot
  | adds hreach hnot _ _ => exact absurd (hfinds _ _ hreach) hnot

/-! ## All or nothing -/

/-- **A call keeps its promise if and only if the file it writes is not too big and the entry takes
effect in the hidden-candidate dictionary.** -/
theorem allOrNothing_iff (h : s.locked = false)
    (hidem : ∀ key, services.readingOf (services.readingOf key) = services.readingOf key) :
    AllOrNothing services key value s (addSuppressionEntry services outcomes key value s) ↔
      HoldsWhen services outcomes key value s := by
  have hends := @addSuppressionEntry_ends services outcomes key value s h
  generalize addSuppressionEntry services outcomes key value s = answer at hends ⊢
  cases hends with
  | refused hno =>
    constructor
    · intro _ storage index hreach
      exact ⟨fun hfinds => absurd hfinds (hno _ _ hreach).1,
        fun _ hadd => absurd hadd (hno _ _ hreach).2⟩
    · exact fun _ => ⟨fun htrue => (by cases htrue), fun _ => ⟨rfl, rfl⟩, Or.inl rfl, h,
        fun hne => absurd rfl hne⟩
  | @found storage index hreach hfinds =>
    constructor
    · intro hall storage' index' hreach'
      obtain ⟨rfl, rfl⟩ := hreach.unique hreach'
      exact ⟨fun _ => Services.isSuppressedEntry_iff.mp (hall.of_true rfl).2,
        fun hnot => absurd hfinds hnot⟩
    · intro hwhen
      have hhides := (hwhen _ _ hreach).1 hfinds
      refine ⟨fun _ => ⟨?_, Services.isSuppressedEntry_iff.mpr hhides⟩, fun hfalse =>
        (by cases hfalse),
        Or.inl rfl, h, fun hne => absurd rfl hne⟩
      obtain ⟨entry, hmem, hstands⟩ := List.any_eq_true.mp hfinds
      obtain ⟨-, -, id, htargets⟩ := hreach.targets
      have hlt := htargets.name_iff.1
      refine ⟨entry, ?_, hstands⟩
      rw [List.getD_eq_getElem?_getD, List.getElem?_eq_getElem hlt, Option.getD_some] at hmem
      show entry ∈ s.file.entries
      rw [← hreach.entries]
      exact List.mem_flatMap.mpr ⟨_, List.getElem_mem hlt, hmem⟩
  | @warned storage index hreach hnot hadd hbig =>
    constructor
    · intro hall
      exact absurd (hall.of_false rfl).1 (hreach.file_ne _)
    · intro hwhen
      have hsmall := ((hwhen _ _ hreach).2 hnot hadd).1
      omega
  | @adds storage index hreach hnot hadd hsmall =>
    constructor
    · intro hall storage' index' hreach'
      obtain ⟨rfl, rfl⟩ := hreach.unique hreach'
      exact ⟨fun hfinds => absurd hfinds hnot, fun _ _ =>
        ⟨hsmall, Services.isSuppressedEntry_iff.mp (hall.of_true rfl).2,
          (hreach.othersKept_iff _).mp hall.others⟩⟩
    · intro hwhen
      obtain ⟨-, hhides, hname⟩ := (hwhen _ _ hreach).2 hnot hadd
      obtain ⟨-, -, id, htargets⟩ := hreach.targets
      refine ⟨fun _ => ⟨⟨newEntry services key value, ?_, standsFor_newEntry hidem⟩,
        Services.isSuppressedEntry_iff.mpr hhides⟩, fun hfalse => (by cases hfalse),
        (hreach.othersKept_iff _).mpr hname, h, fun _ outcomes' newId' => ?_⟩
      · exact Storage.mem_entries_addEntry htargets.name_iff.1
      · exact file_of_finds h fun storage' index' hreach' => hreach.finds_again hidem rfl hreach'

/-! ## A file that is too big -/

theorem le_foldr_max : ∀ {ids : List Nat} {id : Nat}, id ∈ ids → id ≤ ids.foldr max 0
  | _ :: _, _, .head _ => Nat.le_max_left _ _
  | _ :: _, _, .tail _ h => Nat.le_trans (le_foldr_max h) (Nat.le_max_right _ _)

/-- An id above all others. -/
def nextId : IdSource := fun ids =>
  ⟨ids.foldr max 0 + 1, Nat.succ_ne_zero _, fun h => Nat.not_succ_le_self _ (le_foldr_max h)⟩

/-- Services for texts in hiragana, and files with so many bytes of other fields. -/
def hiraganaServices (otherBytes : Nat) : Services where
  japanese := ⟨id, id, id, id⟩
  cityFingerprint := fun text => UInt64.ofNat (text.foldl (fun n b => n * 31 + b.toNat) 7)
  fileSize := fun storage => otherBytes + storage.entries.length * 64
  newId := nextId
  filename := utf8 "user_dictionary.db"

/-- Every operation on the files succeeds. -/
def allSucceed : FileOutcomes where
  stat := fun file => if file = .absent then ⟨.notFound, utf8 "Cannot stat"⟩ else {}
  absent_of_notFound := by
    intro file h
    by_contra hfile
    simp [hfile] at h

theorem allOrNothing_iff_hiragana :
    AllOrNothing (hiraganaServices 0) (utf8 "きょう") (utf8 "凶") ⟨.absent, {}, false⟩
        (addSuppressionEntry (hiraganaServices 0) allSucceed (utf8 "きょう") (utf8 "凶")
          ⟨.absent, {}, false⟩) ↔
      HoldsWhen (hiraganaServices 0) allSucceed (utf8 "きょう") (utf8 "凶") ⟨.absent, {}, false⟩ :=
  allOrNothing_iff rfl fun _ => rfl

/-- The candidate is in the file, and the answer is that it could not be hidden. -/
theorem not_allOrNothing_big :
    ¬AllOrNothing (hiraganaServices (256 * 1024 * 1024)) (utf8 "きょう") (utf8 "凶")
      ⟨.intact {}, {}, false⟩
      (addSuppressionEntry (hiraganaServices (256 * 1024 * 1024)) allSucceed (utf8 "きょう")
        (utf8 "凶") ⟨.intact {}, {}, false⟩) := by
  intro h
  have hfalse : (addSuppressionEntry (hiraganaServices (256 * 1024 * 1024)) allSucceed
      (utf8 "きょう") (utf8 "凶") ⟨.intact {}, {}, false⟩).1 = false := by decide +kernel
  have hwritten : (addSuppressionEntry (hiraganaServices (256 * 1024 * 1024)) allSucceed
      (utf8 "きょう") (utf8 "凶") ⟨.intact {}, {}, false⟩).2.file ≠ .intact {} := by decide +kernel
  exact hwritten (h.of_false hfalse).1

end SuppressionState

end Mozkey.Dictionary
