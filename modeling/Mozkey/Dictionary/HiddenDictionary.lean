import Mathlib.Data.List.Forall2
import Mozkey.Dictionary.SuppressionEffect

/-!
# The hidden-candidate dictionary in a file

A dictionary is looked up by its name, and then by its id. The first dictionary with the id is the
hidden-candidate dictionary itself, unless one in front of it has the same id.
-/

namespace Mozkey.Dictionary

open Infra Base

/-! ## The dictionaries of a file -/

def StoredFile.dictionaries : StoredFile → List UserDictionary
  | .intact storage => storage.dictionaries
  | _ => []

def StoredFile.entries (file : StoredFile) : List Entry := file.dictionaries.flatMap (·.entries)

/-- The same dictionary. One without an id may have been given one. -/
structure SameDictionary (old new : UserDictionary) : Prop where
  name : new.name = old.name
  entries : new.entries = old.entries
  id : old.id ≠ 0 → new.id = old.id

theorem sameDictionary_refl (dictionary : UserDictionary) :
    SameDictionary dictionary dictionary :=
  ⟨rfl, rfl, fun _ => rfl⟩

/-- An empty hidden-candidate dictionary stands for one that is not there. -/
def withHidden (dictionaries : List UserDictionary) : List UserDictionary :=
  if dictionaries.any fun dictionary => dictionary.name = kHiddenCandidateDictionaryName then
    dictionaries
  else dictionaries ++ [{ name := kHiddenCandidateDictionaryName }]

def hiddenIndex (dictionaries : List UserDictionary) : Nat :=
  dictionaries.findIdx fun dictionary => dictionary.name = kHiddenCandidateDictionaryName

/-- Nothing is changed but for one entry behind those of the hidden-candidate dictionary. -/
def OthersKept (old new : StoredFile) : Prop :=
  new = old ∨ ∃ kept entry, List.Forall₂ SameDictionary (withHidden old.dictionaries) kept ∧
    new = .intact ((⟨kept⟩ : Storage).addEntry (hiddenIndex kept) entry)

theorem forall₂_sameDictionary_refl (dictionaries : List UserDictionary) :
    List.Forall₂ SameDictionary dictionaries dictionaries :=
  List.forall₂_same.mpr fun dictionary _ => sameDictionary_refl dictionary

theorem forall₂_sameDictionary_trans {l₁ l₂ l₃ : List UserDictionary}
    (h : List.Forall₂ SameDictionary l₁ l₂) (h' : List.Forall₂ SameDictionary l₂ l₃) :
    List.Forall₂ SameDictionary l₁ l₃ := by
  induction h generalizing l₃ with
  | nil => exact h'
  | cons hsame _ ih =>
    cases h' with
    | cons hsame' h' =>
      refine .cons ⟨hsame'.name.trans hsame.name, hsame'.entries.trans hsame.entries, fun hid => ?_⟩
        (ih h')
      have hid' := hsame.id hid
      exact (hsame'.id (hid' ▸ hid)).trans hid'

theorem names_of_same {old new : List UserDictionary} (h : List.Forall₂ SameDictionary old new) :
    new.map (·.name) = old.map (·.name) := by
  induction h with
  | nil => rfl
  | cons hsame _ ih => rw [List.map_cons, List.map_cons, hsame.name, ih]

theorem entries_of_same {old new : List UserDictionary} (h : List.Forall₂ SameDictionary old new) :
    new.map (·.entries) = old.map (·.entries) := by
  induction h with
  | nil => rfl
  | cons hsame _ ih => rw [List.map_cons, List.map_cons, hsame.entries, ih]

theorem hiddenIndex_of_names {old new : List UserDictionary}
    (h : new.map (·.name) = old.map (·.name)) : hiddenIndex new = hiddenIndex old := by
  have hmap : ∀ l : List UserDictionary, hiddenIndex l =
      (l.map (·.name)).findIdx fun name => name = kHiddenCandidateDictionaryName := by
    intro l
    rw [List.findIdx_map]
    rfl
  rw [hmap, hmap, h]

theorem entries_withHidden (dictionaries : List UserDictionary) :
    (withHidden dictionaries).flatMap (·.entries) = dictionaries.flatMap (·.entries) := by
  unfold withHidden
  split <;> simp

/-! ## Ids -/

theorem assignIds_spec (newId : IdSource) : ∀ (rest before : List UserDictionary),
    ∃ rest', assignIds newId before rest = before ++ rest' ∧
      List.Forall₂ SameDictionary rest rest' ∧ ∀ dictionary ∈ rest', dictionary.id ≠ 0
  | [], before => ⟨[], by simp [assignIds], .nil, by simp⟩
  | dictionary :: rest, before => by
    rw [assignIds]
    split
    · next hzero =>
      obtain ⟨rest', heq, hsame, hids⟩ := assignIds_spec newId rest _
      refine ⟨{ dictionary with id := (newId ((before ++ dictionary :: rest).map (·.id))).1 } ::
        rest', by rw [heq, List.append_assoc, List.singleton_append],
        .cons ⟨rfl, rfl, fun hid => absurd hzero hid⟩ hsame, ?_⟩
      rintro d hd
      rcases List.mem_cons.mp hd with rfl | hd
      · exact (newId _).2.1
      · exact hids d hd
    · next hid =>
      obtain ⟨rest', heq, hsame, hids⟩ := assignIds_spec newId rest _
      refine ⟨dictionary :: rest', by rw [heq, List.append_assoc, List.singleton_append],
        .cons (sameDictionary_refl _) hsame, ?_⟩
      rintro d hd
      rcases List.mem_cons.mp hd with rfl | hd
      · exact hid
      · exact hids d hd

/-- Nothing is assigned where every dictionary has an id. -/
theorem assignIds_of_ids (newId : IdSource) : ∀ (rest before : List UserDictionary),
    (∀ dictionary ∈ rest, dictionary.id ≠ 0) → assignIds newId before rest = before ++ rest
  | [], before, _ => by simp [assignIds]
  | dictionary :: rest, before, h => by
    simp [assignIds, if_neg (h _ List.mem_cons_self), assignIds_of_ids newId rest _
      (List.forall_mem_cons.mp h).2]

/-- A file that is loaded, or was not found. -/
theorem load_spec {outcomes : FileOutcomes} {newId : IdSource} {filename : Bytes}
    {file : StoredFile}
    (h : (load outcomes newId filename file).2.isOk = true ∨
      (load outcomes newId filename file).2.code = .notFound) :
    List.Forall₂ SameDictionary file.dictionaries
        (load outcomes newId filename file).1.dictionaries ∧
      ∀ dictionary ∈ (load outcomes newId filename file).1.dictionaries, dictionary.id ≠ 0 := by
  have hassigned : (loadInternal outcomes filename file).1.dictionaries = file.dictionaries := by
    have hcannot : ∀ file, ¬(outcomes.stat file).isOk = true →
        (outcomes.stat file).isOk = true ∨ (outcomes.stat file).code = .notFound →
        file = .absent := by
      intro file hnot h
      rcases h with h | h
      · exact absurd h hnot
      · exact outcomes.absent_of_notFound _ h
    unfold load loadInternal at h
    unfold loadInternal
    cases file with
    | absent => rfl
    | damaged parsed =>
      dsimp only at h ⊢
      split at h
      · simp [Status.isOk] at h
      · split at h
        · simp [Status.isOk] at h
        · next hstat => cases hcannot _ hstat h
    | intact storage =>
      dsimp only at h ⊢
      split at h
      · next hopens => simp [hopens, StoredFile.dictionaries]
      · split at h
        · simp [Status.isOk] at h
        · next hstat => cases hcannot _ hstat h
  obtain ⟨rest, heq, hsame, hids⟩ :=
    assignIds_spec newId (loadInternal outcomes filename file).1.dictionaries []
  rw [hassigned] at heq hsame
  unfold load
  dsimp only
  simpa [hassigned, heq] using ⟨hsame, hids⟩

/-- A file that is there and was not rejected was read. -/
theorem load_intact {outcomes : FileOutcomes} {newId : IdSource} {filename : Bytes}
    {storage : Storage} (h : (load outcomes newId filename (.intact storage)).2.isOk = true ∨
      (load outcomes newId filename (.intact storage)).2.code = .notFound)
    (hids : ∀ dictionary ∈ storage.dictionaries, dictionary.id ≠ 0) :
    (load outcomes newId filename (.intact storage)).1 = storage := by
  unfold load loadInternal at h ⊢
  dsimp only at h ⊢
  split at h
  · next hopens =>
    simp [hopens, assignIds_of_ids _ _ _ hids]
  · split at h
    · simp [Status.isOk] at h
    · next hnot =>
      rcases h with hok | hnotFound
      · exact absurd hok hnot
      · cases outcomes.absent_of_notFound _ hnotFound

/-! ## Looking up -/

/-- The dictionary that the entry goes to: the first one with the id of the hidden-candidate
dictionary. -/
structure Targets (storage : Storage) (id index : Nat) : Prop where
  getId : storage.getUserDictionaryId kHiddenCandidateDictionaryName = .inr id
  getIndex : storage.getUserDictionaryIndex id = some index

theorem getUserDictionaryId_some {storage : Storage} {id : Nat} {name : Bytes}
    (h : storage.getUserDictionaryId name = .inr id) :
    ∃ dictionary, (storage.dictionaries.find? fun d => d.name = name) = some dictionary ∧
      dictionary.id = id := by
  unfold Storage.getUserDictionaryId at h
  split at h
  · next dictionary hfind => exact ⟨dictionary, hfind, Sum.inr.inj h⟩
  · cases h

theorem getUserDictionaryId_of_find {storage : Storage} {dictionary : UserDictionary} {name : Bytes}
    (h : (storage.dictionaries.find? fun d => d.name = name) = some dictionary) :
    storage.getUserDictionaryId name = .inr dictionary.id := by
  rw [Storage.getUserDictionaryId, h]

/-- What `findOrCreate` finds, or creates. -/
theorem findOrCreate_spec {services : Services} {storage storage' : Storage} {id : Nat}
    (h : SuppressionState.findOrCreate services storage = .inr (id, storage'))
    (hids : ∀ dictionary ∈ storage.dictionaries, dictionary.id ≠ 0) :
    List.Forall₂ SameDictionary (withHidden storage.dictionaries) storage'.dictionaries ∧
      (∀ dictionary ∈ storage'.dictionaries, dictionary.id ≠ 0) ∧
      storage'.getUserDictionaryId kHiddenCandidateDictionaryName = .inr id := by
  unfold SuppressionState.findOrCreate at h
  split at h
  · next id' hid =>
    obtain ⟨rfl, rfl⟩ := Prod.mk.inj (Sum.inr.inj h)
    obtain ⟨dictionary, hfind, -⟩ := getUserDictionaryId_some hid
    refine ⟨?_, hids, hid⟩
    rw [withHidden, if_pos]
    · exact forall₂_sameDictionary_refl _
    · exact List.any_eq_true.mpr ⟨dictionary, List.mem_of_find?_eq_some hfind,
        by simpa using List.find?_some hfind⟩
  · next status hnone =>
    have hno : ∀ dictionary ∈ storage.dictionaries,
        ¬dictionary.name = kHiddenCandidateDictionaryName := by
      unfold Storage.getUserDictionaryId at hnone
      split at hnone
      · cases hnone
      · next hfind =>
        intro dictionary hmem hname
        exact absurd hname (by simpa using List.find?_eq_none.mp hfind dictionary hmem)
    split at h
    · cases h
    · unfold Storage.createDictionary at h
      split at h
      · cases h
      · split at h
        · cases h
        · obtain ⟨hid, rfl⟩ := Prod.mk.inj (Sum.inr.inj h)
          have hpos := (services.newId ((storage.dictionaries ++ [({} : UserDictionary)]).map
            (·.id))).2.1
          refine ⟨?_, ?_, ?_⟩
          · rw [withHidden, if_neg]
            · exact List.rel_append (forall₂_sameDictionary_refl _)
                (.cons ⟨rfl, rfl, fun h => absurd rfl h⟩ .nil)
            · intro hany
              obtain ⟨dictionary, hmem, hname⟩ := List.any_eq_true.mp hany
              exact hno dictionary hmem (by simpa using hname)
          · rintro d hd
            rcases List.mem_append.mp hd with hd | hd
            · exact hids d hd
            · simpa [List.mem_singleton.mp hd] using hpos
          · rw [← hid]
            refine @getUserDictionaryId_of_find _ ⟨_, kHiddenCandidateDictionaryName, []⟩ _ ?_
            rw [List.find?_append, List.find?_eq_none.mpr fun d hd => by simpa using hno d hd,
              Option.none_or, List.find?_cons_of_pos (by simp)]

/-- The index is that of the hidden-candidate dictionary if and only if it has its name. -/
theorem Targets.name_iff {storage : Storage} {id index : Nat} (h : Targets storage id index) :
    index < storage.dictionaries.length ∧ index ≤ hiddenIndex storage.dictionaries ∧
      hiddenIndex storage.dictionaries < storage.dictionaries.length ∧
      ((storage.dictionaries.getD index {}).name = kHiddenCandidateDictionaryName ↔
        index = hiddenIndex storage.dictionaries) := by
  obtain ⟨dictionary, hfind, rfl⟩ := getUserDictionaryId_some h.getId
  obtain ⟨hlt, hid, hbefore⟩ := List.findIdx?_eq_some_iff_getElem.mp h.getIndex
  have hexists : ∃ d ∈ storage.dictionaries, decide (d.name = kHiddenCandidateDictionaryName) :=
    ⟨dictionary, List.mem_of_find?_eq_some hfind, by simpa using List.find?_some hfind⟩
  have hhidden : hiddenIndex storage.dictionaries < storage.dictionaries.length :=
    List.findIdx_lt_length_of_exists hexists
  have hat : storage.dictionaries[hiddenIndex storage.dictionaries] = dictionary := by
    rw [List.find?_eq_getElem?_findIdx] at hfind
    exact Option.some.inj ((List.getElem?_eq_getElem hhidden).symm.trans hfind)
  have hle : index ≤ hiddenIndex storage.dictionaries := by
    refine Nat.not_lt.mp fun hgt => ?_
    exact hbefore _ hgt (by simp [hat])
  refine ⟨hlt, hle, hhidden, ?_⟩
  have hget : storage.dictionaries.getD index {} = storage.dictionaries[index] := by
    simp [List.getD_eq_getElem?_getD, List.getElem?_eq_getElem hlt]
  rw [hget]
  constructor
  · intro hname
    refine Nat.le_antisymm hle (Nat.not_lt.mp fun hgt => ?_)
    have hnot := List.not_of_lt_findIdx hgt
    exact absurd hname (by simpa using hnot)
  · rintro rfl
    rw [hat]
    simpa using List.find?_some hfind

/-! ## One more entry -/

theorem map_modify_of_eq {α β : Type} {f : α → α} {g : α → β} (h : ∀ x, g (f x) = g x)
    (l : List α) (i : Nat) : (l.modify i f).map g = l.map g := by
  refine List.ext_getElem? fun j => ?_
  rw [List.getElem?_map, List.getElem?_modify, List.getElem?_map]
  by_cases hij : i = j <;> cases l[j]? <;> simp [hij, h]

namespace Storage

variable {storage : Storage} {id index i : Nat} {entry : Entry}

theorem getUserDictionaryId_addEntry (name : Bytes) :
    (storage.addEntry i entry).getUserDictionaryId name = storage.getUserDictionaryId name := by
  have hfind : ∀ l : List UserDictionary, (l.find? fun d => d.name = name).map (·.id) =
      ((l.map fun d => (d.name, d.id)).find? fun p => p.1 = name).map (·.2) := by
    intro l
    rw [List.find?_map, Option.map_map]
    rfl
  have hsame : ((storage.addEntry i entry).dictionaries.find? fun d => d.name = name).map (·.id) =
      (storage.dictionaries.find? fun d => d.name = name).map (·.id) := by
    rw [hfind, hfind, addEntry, map_modify_of_eq (by simp)]
  unfold getUserDictionaryId
  cases hold : storage.dictionaries.find? fun d => d.name = name <;>
    cases hnew : (storage.addEntry i entry).dictionaries.find? fun d => d.name = name <;>
    simp_all

theorem getUserDictionaryIndex_addEntry (dictionaryId : Nat) :
    (storage.addEntry i entry).getUserDictionaryIndex dictionaryId =
      storage.getUserDictionaryIndex dictionaryId := by
  have hfind : ∀ l : List UserDictionary, (l.findIdx? fun d => d.id = dictionaryId) =
      (l.map (·.id)).findIdx? fun id => id = dictionaryId := by
    intro l
    rw [List.findIdx?_map]
    rfl
  rw [getUserDictionaryIndex, getUserDictionaryIndex, hfind, hfind, addEntry,
    map_modify_of_eq (by simp)]

theorem ids_addEntry (h : ∀ dictionary ∈ storage.dictionaries, dictionary.id ≠ 0) :
    ∀ dictionary ∈ (storage.addEntry i entry).dictionaries, dictionary.id ≠ 0 := by
  have hids : (storage.addEntry i entry).dictionaries.map (·.id) =
      storage.dictionaries.map (·.id) := map_modify_of_eq (by simp) _ _
  intro dictionary hmem
  have hid : dictionary.id ∈ storage.dictionaries.map (·.id) := hids ▸ List.mem_map_of_mem hmem
  obtain ⟨d, hd, heq⟩ := List.mem_map.mp hid
  exact heq ▸ h d hd

theorem dictionary_addEntry (h : i < storage.dictionaries.length) :
    ((storage.addEntry i entry).dictionaries.getD i {}).entries =
      (storage.dictionaries.getD i {}).entries ++ [entry] := by
  simp [addEntry, List.getD_eq_getElem?_getD, List.getElem?_eq_getElem h]

theorem mem_entries_addEntry (h : i < storage.dictionaries.length) :
    entry ∈ (storage.addEntry i entry).entries := by
  have hlt : i < (storage.addEntry i entry).dictionaries.length := by
    simpa [addEntry] using h
  refine List.mem_flatMap.mpr ⟨(storage.addEntry i entry).dictionaries[i], List.getElem_mem hlt, ?_⟩
  simp [addEntry]

/-- There is one entry more. -/
theorem entries_addEntry (h : i < storage.dictionaries.length) :
    (storage.addEntry i entry).entries.Perm (entry :: storage.entries) := by
  unfold addEntry entries
  dsimp only
  rw [List.modify_eq_take_cons_drop h]
  conv_rhs => rw [← List.take_append_drop i storage.dictionaries, List.drop_eq_getElem_cons h]
  simp only [List.flatMap_append, List.flatMap_cons]
  refine List.Perm.trans ?_ List.perm_middle
  refine List.Perm.append_left _ ?_
  simp

end Storage

theorem Targets.addEntry {storage : Storage} {id index i : Nat} (h : Targets storage id index)
    (entry : Entry) : Targets (storage.addEntry i entry) id index where
  getId := by rw [Storage.getUserDictionaryId_addEntry, h.getId]
  getIndex := by rw [Storage.getUserDictionaryIndex_addEntry, h.getIndex]

end Mozkey.Dictionary
