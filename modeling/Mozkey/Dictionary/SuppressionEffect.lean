import Mozkey.Dictionary.UserDictionaryStorage
import Mathlib.Data.List.Induction

/-!
# The entries that take effect

An entry of the file is suppressed when it is valid and no valid entry in front of it has its
fingerprint. These are the entries that the suppression dictionary holds.
-/

/-!
## Hiding a candidate

`dictionary/user_dictionary.cc`: the suppression dictionary, its part of `TokensIndex::Load`, and
`AddSuppressionEntry`.

The reloader has come to rest (`WaitForReloader`), so the file and the suppressed entries belong to
the call. The tokens of the other parts of speech are left out.
-/

namespace Mozkey.Dictionary

open Infra Base

/-- `非表示候補` -/
def kHiddenCandidateDictionaryName : Bytes := utf8 "非表示候補"

/-! ## Suppressed entries -/

/-- `absl::flat_hash_set::emplace` -/
def emplace {α : Type} [DecidableEq α] (set : List α) (x : α) : List α :=
  if x ∈ set then set else set ++ [x]

structure SuppressionDictionary where
  keysValues : List (Bytes × Bytes) := []
  keysOnly : List Bytes := []
  valuesOnly : List Bytes := []
  deriving DecidableEq

namespace SuppressionDictionary

def addEntry (dictionary : SuppressionDictionary) (key value : Bytes) : SuppressionDictionary :=
  if key.isEmpty && value.isEmpty then dictionary
  else if key.isEmpty then { dictionary with valuesOnly := emplace dictionary.valuesOnly value }
  else if value.isEmpty then { dictionary with keysOnly := emplace dictionary.keysOnly key }
  else { dictionary with keysValues := emplace dictionary.keysValues (key, value) }

def isEmpty (dictionary : SuppressionDictionary) : Bool :=
  dictionary.keysOnly.isEmpty && dictionary.valuesOnly.isEmpty && dictionary.keysValues.isEmpty

def isSuppressedEntry (dictionary : SuppressionDictionary) (key value : Bytes) : Bool :=
  !dictionary.isEmpty &&
    (dictionary.keysValues.contains (key, value) || dictionary.keysOnly.contains key ||
      dictionary.valuesOnly.contains value)

end SuppressionDictionary

/-- What is not part of the call: the conversions, the fingerprint of a text, the size of the file
that a storage is written to, and the ids that are drawn. -/
structure Services where
  japanese : Japanese
  cityFingerprint : Bytes → UInt64
  fileSize : Storage → Nat
  newId : IdSource
  filename : Bytes

namespace Services

variable (services : Services)

/-- The reading of an entry, as it is looked up. -/
def readingOf (key : Bytes) : Bytes :=
  services.japanese.normalizeVoicedSoundMark (services.japanese.normalizeReading key)

def entryFingerprint (entry : Entry) : UInt64 :=
  services.cityFingerprint (services.readingOf entry.key ++ utf8 "\t" ++ entry.value ++
    utf8 "\t" ++ [UInt8.ofNat entry.pos.ctorIdx])

/-- One round of the loop of `TokensIndex::Load`, with the fingerprints that were seen. -/
def loadEntry (s : List UInt64 × SuppressionDictionary) (entry : Entry) :
    List UInt64 × SuppressionDictionary :=
  if !(validateEntry entry).isOk then s
  else if services.entryFingerprint entry ∈ s.1 then s
  else
    (services.entryFingerprint entry :: s.1,
      if entry.pos = .suppressionWord then
        s.2.addEntry (services.readingOf entry.key) entry.value
      else s.2)

/-- `UserDictionary::Load`, which begins with new tokens. -/
def loadSuppression (storage : Storage) : SuppressionDictionary :=
  (storage.entries.foldl services.loadEntry ([], {})).2

end Services

/-! ## Adding an entry -/

/-- What a call reads and writes, and whether the storage of the call holds the lock. -/
structure SuppressionState where
  file : StoredFile
  suppression : SuppressionDictionary
  locked : Bool := false
  deriving DecidableEq

namespace SuppressionState

variable (services : Services) (outcomes : FileOutcomes)

def unlock (s : SuppressionState) : SuppressionState := { s with locked := false }

/-- Whether an entry of the hidden-candidate dictionary stands for the same word already. -/
def standsFor (normalizedKey value : Bytes) (entry : Entry) : Bool :=
  entry.pos = .suppressionWord && entry.value = value &&
    services.readingOf entry.key = normalizedKey

def newEntry (key value : Bytes) : Entry where
  key := services.readingOf key
  value := value
  posField := some .suppressionWord

/-- The hidden-candidate dictionary's id, and the storage, with the dictionary if it was not there.
-/
def findOrCreate (storage : Storage) : Status ⊕ (Nat × Storage) :=
  match storage.getUserDictionaryId kHiddenCandidateDictionaryName with
  | .inr id => .inr (id, storage)
  | .inl status =>
    if status.code ≠ .notFound then .inl status
    else storage.createDictionary services.newId kHiddenCandidateDictionaryName

/-- What is done with the dictionaries of the file: behind the search for the dictionary. -/
def addToDictionary (key value : Bytes) (storage : Storage) (dictionaryId : Nat)
    (s : SuppressionState) : Bool × SuppressionState :=
  match storage.getUserDictionaryIndex dictionaryId with
  | none => (false, s.unlock)
  | some index =>
    let dictionary := storage.dictionaries.getD index {}
    if dictionary.entries.any (standsFor services (services.readingOf key) value) then
      (true, { s with suppression := services.loadSuppression storage }.unlock)
    else if dictionary.isFull then (false, s.unlock)
    else
      let storage := storage.addEntry index (newEntry services key value)
      let (status, file) :=
        save outcomes services.fileSize services.filename s.locked storage s.file
      if !status.isOk then (false, { s with file := file }.unlock)
      else
        (true, { s with file := file, suppression := services.loadSuppression storage }.unlock)

/-- `UserDictionary::AddSuppressionEntry`: the answer, and the state behind the call. -/
def addSuppressionEntry (key value : Bytes) (s : SuppressionState) : Bool × SuppressionState :=
  if key.isEmpty || value.isEmpty then (false, s)
  else if !(validateEntry (newEntry services key value)).isOk then (false, s)
  else if !outcomes.locks then (false, s)
  else
    let s := { s with locked := true }
    let (storage, status) := load outcomes services.newId services.filename s.file
    if !status.isOk && status.code ≠ .notFound then (false, s.unlock)
    else
      match findOrCreate services storage with
      | .inl _ => (false, s.unlock)
      | .inr (dictionaryId, storage) =>
        addToDictionary services outcomes key value storage dictionaryId s

end SuppressionState

@[simp] theorem mem_emplace {α : Type} [DecidableEq α] {set : List α} {x y : α} :
    y ∈ emplace set x ↔ y ∈ set ∨ y = x := by
  unfold emplace
  split
  · next h =>
    constructor
    · exact Or.inl
    · rintro (hy | rfl)
      · exact hy
      · exact h
  · simp

namespace SuppressionDictionary

variable {dictionary : SuppressionDictionary} {key value : Bytes}

theorem mem_keysValues_addEntry {k v : Bytes} :
    (k, v) ∈ (dictionary.addEntry key value).keysValues ↔
    (k, v) ∈ dictionary.keysValues ∨ (key ≠ [] ∧ value ≠ [] ∧ k = key ∧ v = value) := by
  unfold addEntry
  split_ifs <;> simp_all

theorem mem_valuesOnly_addEntry {v : Bytes} : v ∈ (dictionary.addEntry key value).valuesOnly ↔
    v ∈ dictionary.valuesOnly ∨ (key = [] ∧ value ≠ [] ∧ v = value) := by
  unfold addEntry
  split_ifs <;> simp_all

theorem keysOnly_addEntry (h : value ≠ []) :
    (dictionary.addEntry key value).keysOnly = dictionary.keysOnly := by
  unfold addEntry
  split_ifs <;> simp_all

end SuppressionDictionary

namespace Services

variable {services : Services} {entries : List Entry} {entry x : Entry} {key value : Bytes}

def IsValid (entry : Entry) : Prop := (validateEntry entry).isOk = true

/-- No valid entry in front of it takes its place. -/
def IsEffective (services : Services) (entries : List Entry) (entry : Entry) : Prop :=
  ∃ before after, entries = before ++ entry :: after ∧ IsValid entry ∧
    ∀ x ∈ before, IsValid x → services.entryFingerprint x ≠ services.entryFingerprint entry

/-- An effective entry hides the word. An entry without a reading hides it in every reading. -/
def Hides (services : Services) (entries : List Entry) (key value : Bytes) : Prop :=
  ∃ entry, services.IsEffective entries entry ∧ entry.pos = .suppressionWord ∧
    entry.value = value ∧
    (services.readingOf entry.key = key ∨ services.readingOf entry.key = [])

theorem IsEffective.of_mem_append (h : services.IsEffective entries entry) :
    services.IsEffective (entries ++ [x]) entry := by
  obtain ⟨before, after, rfl, hvalid, hbefore⟩ := h
  exact ⟨before, after ++ [x], by simp, hvalid, hbefore⟩

theorem isEffective_concat : services.IsEffective (entries ++ [x]) entry ↔
    services.IsEffective entries entry ∨ (entry = x ∧ IsValid x ∧
      ∀ y ∈ entries, IsValid y → services.entryFingerprint y ≠ services.entryFingerprint x) := by
  constructor
  · rintro ⟨before, after, heq, hvalid, hbefore⟩
    rcases List.eq_nil_or_concat after with rfl | ⟨after, last, rfl⟩
    · obtain ⟨rfl, hx⟩ := List.append_inj' heq rfl
      obtain rfl : x = entry := by simpa using hx
      exact Or.inr ⟨rfl, hvalid, hbefore⟩
    · refine Or.inl ⟨before, after, ?_, hvalid, hbefore⟩
      have hcut : entries ++ [x] = (before ++ entry :: after) ++ [last] := by
        simp [heq]
      exact (List.append_inj' hcut rfl).1
  · rintro (h | ⟨rfl, hvalid, hbefore⟩)
    · exact h.of_mem_append
    · exact ⟨entries, [], rfl, hvalid, hbefore⟩

/-- The state of `TokensIndex::Load` behind some entries. -/
structure HasLoaded (services : Services) (entries : List Entry)
    (s : List UInt64 × SuppressionDictionary) : Prop where
  seen : ∀ fp, fp ∈ s.1 ↔ ∃ x ∈ entries, IsValid x ∧ services.entryFingerprint x = fp
  keysOnly : s.2.keysOnly = []
  keysValues : ∀ key value, (key, value) ∈ s.2.keysValues ↔ key ≠ [] ∧
    ∃ entry, services.IsEffective entries entry ∧ entry.pos = .suppressionWord ∧
      entry.value = value ∧ services.readingOf entry.key = key
  valuesOnly : ∀ value, value ∈ s.2.valuesOnly ↔
    ∃ entry, services.IsEffective entries entry ∧ entry.pos = .suppressionWord ∧
      entry.value = value ∧ services.readingOf entry.key = []

/-- The effective suppression entries with a property, with one more entry. -/
theorem exists_isEffective_concat {P : Entry → Prop} :
    (∃ entry, services.IsEffective (entries ++ [x]) entry ∧ entry.pos = .suppressionWord ∧
        P entry) ↔
      (∃ entry, services.IsEffective entries entry ∧ entry.pos = .suppressionWord ∧ P entry) ∨
        (services.IsEffective (entries ++ [x]) x ∧ x.pos = .suppressionWord ∧ P x) := by
  constructor
  · rintro ⟨entry, heffective, hpos⟩
    rcases isEffective_concat.mp heffective with h | ⟨rfl, -, -⟩
    · exact Or.inl ⟨entry, h, hpos⟩
    · exact Or.inr ⟨heffective, hpos⟩
  · rintro (⟨entry, heffective, hpos⟩ | h)
    · exact ⟨entry, heffective.of_mem_append, hpos⟩
    · exact ⟨x, h⟩

/-- An entry that is passed over. -/
theorem HasLoaded.skip {s : List UInt64 × SuppressionDictionary}
    (h : HasLoaded services entries s) (hseen : IsValid x → services.entryFingerprint x ∈ s.1) :
    HasLoaded services (entries ++ [x]) s := by
  have hsame : ∀ entry, services.IsEffective (entries ++ [x]) entry ↔
      services.IsEffective entries entry := by
    intro entry
    rw [isEffective_concat, or_iff_left_iff_imp]
    rintro ⟨-, hvalid, hnew⟩
    obtain ⟨y, hy, hyvalid, hfp⟩ := (h.seen _).mp (hseen hvalid)
    exact absurd hfp (hnew y hy hyvalid)
  refine ⟨fun fp => ?_, h.keysOnly, fun key value => ?_, fun value => ?_⟩
  · rw [h.seen]
    constructor
    · rintro ⟨y, hy, hrest⟩
      exact ⟨y, List.mem_append_left _ hy, hrest⟩
    · rintro ⟨y, hy, hyvalid, rfl⟩
      rcases List.mem_append.mp hy with hy | hy
      · exact ⟨y, hy, hyvalid, rfl⟩
      · rw [List.mem_singleton.mp hy] at hyvalid ⊢
        exact (h.seen _).mp (hseen hyvalid)
  · simpa [hsame] using h.keysValues key value
  · simpa [hsame] using h.valuesOnly value

theorem HasLoaded.loadEntry {s : List UInt64 × SuppressionDictionary}
    (h : HasLoaded services entries s) (x : Entry) :
    HasLoaded services (entries ++ [x]) (services.loadEntry s x) := by
  unfold Services.loadEntry
  split
  · next hinvalid => exact h.skip fun hvalid => absurd hvalid (by simpa [IsValid] using hinvalid)
  · next hnot =>
    have hvalid : IsValid x := by simpa [IsValid] using hnot
    split
    · next hseen => exact h.skip fun _ => hseen
    · next hnew =>
      have heffective : services.IsEffective (entries ++ [x]) x := by
        refine isEffective_concat.mpr (Or.inr ⟨rfl, hvalid, fun y hy hyvalid hfp => ?_⟩)
        exact hnew ((h.seen _).mpr ⟨y, hy, hyvalid, hfp⟩)
      have hvalue : x.value ≠ [] := (validateEntry_isOk.mp hvalid).2.2.1
      refine ⟨fun fp => ?_, ?_, fun key value => ?_, fun value => ?_⟩
      · show fp ∈ _ :: s.1 ↔ _
        rw [List.mem_cons, h.seen]
        simp only [List.mem_append, List.mem_singleton, or_and_right, exists_or, exists_eq_left]
        constructor
        · rintro (rfl | hfp)
          · exact Or.inr ⟨hvalid, rfl⟩
          · exact Or.inl hfp
        · rintro (hfp | ⟨-, rfl⟩)
          · exact Or.inr hfp
          · exact Or.inl rfl
      · by_cases hpos : x.pos = .suppressionWord
        · simp only [if_pos hpos]
          rw [SuppressionDictionary.keysOnly_addEntry hvalue, h.keysOnly]
        · simp [hpos, h.keysOnly]
      · rw [exists_isEffective_concat, and_or_left, ← h.keysValues]
        by_cases hpos : x.pos = .suppressionWord
        · simp only [if_pos hpos, SuppressionDictionary.mem_keysValues_addEntry]
          refine or_congr_right ⟨?_, ?_⟩
          · rintro ⟨hkey, -, rfl, rfl⟩
            exact ⟨hkey, heffective, hpos, rfl, rfl⟩
          · rintro ⟨hkey, -, -, rfl, rfl⟩
            exact ⟨hkey, hvalue, rfl, rfl⟩
        · simp [hpos]
      · rw [exists_isEffective_concat, ← h.valuesOnly]
        by_cases hpos : x.pos = .suppressionWord
        · simp only [if_pos hpos, SuppressionDictionary.mem_valuesOnly_addEntry]
          refine or_congr_right ⟨?_, ?_⟩
          · rintro ⟨hkey, -, rfl⟩
            exact ⟨heffective, hpos, rfl, hkey⟩
          · rintro ⟨-, -, rfl, hkey⟩
            exact ⟨hkey, hvalue, rfl⟩
        · simp [hpos]

theorem hasLoaded_nil : HasLoaded services [] ([], {}) where
  seen := by simp
  keysOnly := rfl
  keysValues := by simp [IsEffective]
  valuesOnly := by simp [IsEffective]

theorem hasLoaded (entries : List Entry) :
    HasLoaded services entries (entries.foldl services.loadEntry ([], {})) := by
  induction entries using List.reverseRecOn with
  | nil => exact hasLoaded_nil
  | append_singleton entries x ih =>
    simpa using ih.loadEntry x

/-- **The suppression dictionary holds what the effective entries hide.** -/
theorem isSuppressedEntry_iff {storage : Storage} :
    (services.loadSuppression storage).isSuppressedEntry key value = true ↔
      services.Hides storage.entries key value := by
  have h : HasLoaded services storage.entries _ := hasLoaded storage.entries
  have hsome : (services.loadSuppression storage).isSuppressedEntry key value = true ↔
      (key, value) ∈ (services.loadSuppression storage).keysValues ∨
        value ∈ (services.loadSuppression storage).valuesOnly := by
    have hkeys : (services.loadSuppression storage).keysOnly = [] := h.keysOnly
    simp only [SuppressionDictionary.isSuppressedEntry, SuppressionDictionary.isEmpty, hkeys,
      Bool.and_eq_true, Bool.or_eq_true, List.contains_iff_mem,
      Bool.not_eq_true', Bool.and_eq_false_iff]
    constructor
    · rintro ⟨-, (hmem | hmem) | hmem⟩
      · exact Or.inl hmem
      · cases hmem
      · exact Or.inr hmem
    · rintro (hmem | hmem)
      · exact ⟨Or.inr (by simpa using List.ne_nil_of_mem hmem), Or.inl (Or.inl hmem)⟩
      · exact ⟨Or.inl (Or.inr (by simpa using List.ne_nil_of_mem hmem)), Or.inr hmem⟩
  rw [hsome]
  show _ ∈ (storage.entries.foldl services.loadEntry ([], {})).2.keysValues ∨
    _ ∈ (storage.entries.foldl services.loadEntry ([], {})).2.valuesOnly ↔ _
  rw [h.keysValues, h.valuesOnly]
  constructor
  · rintro (⟨-, entry, heffective, hpos, hvalue, hkey⟩ | ⟨entry, heffective, hpos, hvalue, hkey⟩)
    · exact ⟨entry, heffective, hpos, hvalue, Or.inl hkey⟩
    · exact ⟨entry, heffective, hpos, hvalue, Or.inr hkey⟩
  · rintro ⟨entry, heffective, hpos, hvalue, hkey⟩
    by_cases hempty : services.readingOf entry.key = []
    · exact Or.inr ⟨entry, heffective, hpos, hvalue, hempty⟩
    · rcases hkey with rfl | hkey
      · exact Or.inl ⟨hempty, entry, heffective, hpos, hvalue, rfl⟩
      · exact absurd hkey hempty

end Services

end Mozkey.Dictionary
