import Mozkey.Base.Utf8

/-!
# The user dictionary file

`dictionary/user_dictionary_storage.cc`. How the operations on the file system end is given by
`FileOutcomes`, and the ids that are drawn by an `IdSource`.
-/

/-!
## Entries of a user dictionary

`protocol/user_dictionary_storage.proto` and `dictionary/user_dictionary_util.cc`.

The conversions of `base/strings/japanese.h` are tables and stay parameters.
-/

/-!
## `absl::Status` in the dictionaries

The codes that the dictionaries return. `ExtendedErrorCode` is cast to a status code.
-/

namespace Mozkey.Dictionary

open Infra

/-- `user_dictionary::ExtendedErrorCode`, the codes that the code below returns. -/
inductive ExtendedErrorCode where
  | unknownError | dictionarySizeLimitExceeded | unknownDictionaryId
  | dictionaryNameEmpty | dictionaryNameTooLong | dictionaryNameContainsInvalidCharacter
  | dictionaryNameDuplicated
  | readingEmpty | readingTooLong | readingContainsInvalidCharacter
  | wordEmpty | wordTooLong | wordContainsInvalidCharacter
  | invalidPosType | commentTooLong | commentContainsInvalidCharacter
  deriving DecidableEq

inductive StatusCode where
  | ok | unknown | notFound | permissionDenied | resourceExhausted | failedPrecondition
  | outOfRange | dataLoss
  | extended (code : ExtendedErrorCode)
  deriving DecidableEq

structure Status where
  code : StatusCode := .ok
  message : Bytes := []
  deriving DecidableEq

def Status.isOk (status : Status) : Bool := status.code = .ok

def toStatus (code : ExtendedErrorCode) : Status := ⟨.extended code, utf8 "Extended Error"⟩

open Base

/-- `user_dictionary::UserDictionary::PosType`, in the order of its numbers. -/
inductive PosType where
  | noPos | noun | abbreviation | suggestionOnly | properNoun | personalName | familyName
  | firstName | organizationName | placeName | saIrregularConjugationNoun
  | adjectiveVerbalNoun | number | alphabet | symbol | emoticon | adverb | prenounAdjectival
  | conjunction | interjection | prefixPos | counterSuffix | genericSuffix | personNameSuffix
  | placeNameSuffix | waGroup1Verb | kaGroup1Verb | saGroup1Verb | taGroup1Verb | naGroup1Verb
  | maGroup1Verb | raGroup1Verb | gaGroup1Verb | baGroup1Verb | haGroup1Verb | group2Verb
  | kuruGroup3Verb | suruGroup3Verb | zuruGroup3Verb | ruGroup3Verb | adjective
  | sentenceEndingParticle | punctuation | freeStandingWord | suppressionWord
  deriving DecidableEq

/-- `UserDictionary::Entry`. A field `pos` that is not set is `none`. -/
structure Entry where
  key : Bytes := []
  value : Bytes := []
  comment : Bytes := []
  posField : Option PosType := none
  locale : Bytes := []
  deriving DecidableEq

def Entry.pos (entry : Entry) : PosType := entry.posField.getD .noun

/-- `user_dictionary::UserDictionary`. No dictionary has the id 0, it stands for none. -/
structure UserDictionary where
  id : Nat := 0
  name : Bytes := []
  entries : List Entry := []
  deriving DecidableEq

/-- `user_dictionary::UserDictionaryStorage` -/
structure Storage where
  dictionaries : List UserDictionary := []
  deriving DecidableEq

/-- All entries, in the order of the file. -/
def Storage.entries (storage : Storage) : List Entry := storage.dictionaries.flatMap (·.entries)

/-- Conversions of `base/strings/japanese.h` -/
structure Japanese where
  fullWidthAsciiToHalfWidthAscii : Bytes → Bytes
  halfWidthKatakanaToFullWidthKatakana : Bytes → Bytes
  katakanaToHiragana : Bytes → Bytes
  normalizeVoicedSoundMark : Bytes → Bytes

def Japanese.normalizeReading (japanese : Japanese) (input : Bytes) : Bytes :=
  let tmp1 := japanese.fullWidthAsciiToHalfWidthAscii input
  let tmp2 := japanese.halfWidthKatakanaToFullWidthKatakana tmp1
  japanese.normalizeVoicedSoundMark (japanese.katakanaToHiragana tmp2)

/-! ## Validation -/

def kMaxStringSize : Nat := 300

def kInvalidChars : Bytes := utf8 "\n\r\t"

def isTooLongString (s : Bytes) : Bool := kMaxStringSize < s.length

def containsInvalidChars (s : Bytes) : Bool :=
  s.any kInvalidChars.contains || !isValidUtf8 s

def validateEntry (entry : Entry) : Status :=
  if entry.key.isEmpty then toStatus .readingEmpty
  else if isTooLongString entry.key then toStatus .readingTooLong
  else if containsInvalidChars entry.key then toStatus .readingContainsInvalidCharacter
  else if entry.value.isEmpty then toStatus .wordEmpty
  else if isTooLongString entry.value then toStatus .wordTooLong
  else if containsInvalidChars entry.value then toStatus .wordContainsInvalidCharacter
  else if isTooLongString entry.comment then toStatus .commentTooLong
  else if containsInvalidChars entry.comment then toStatus .commentContainsInvalidCharacter
  else if entry.posField.isNone then toStatus .invalidPosType
  else {}

def validateDictionaryName (name : Bytes) : Status :=
  if name.isEmpty then toStatus .dictionaryNameEmpty
  else if isTooLongString name then toStatus .dictionaryNameTooLong
  else if containsInvalidChars name then toStatus .dictionaryNameContainsInvalidCharacter
  else {}

/-- A text that may stand in a field. -/
def IsFieldText (s : Bytes) : Prop := isTooLongString s = false ∧ containsInvalidChars s = false

/-- **What a valid entry is made of.** -/
theorem validateEntry_isOk {entry : Entry} :
    (validateEntry entry).isOk = true ↔ entry.key ≠ [] ∧ IsFieldText entry.key ∧
      entry.value ≠ [] ∧ IsFieldText entry.value ∧ IsFieldText entry.comment ∧
      entry.posField.isSome = true := by
  unfold validateEntry IsFieldText
  repeat' split
  all_goals simp_all [Status.isOk, toStatus, Option.isSome_iff_ne_none]

def kDefaultWarningTotalBytesLimit : Nat := 256 * 1024 * 1024

def kMaxDictionarySize : Nat := 100

def kMaxEntrySize : Nat := 1000000

/-- What is in the file. Of a damaged one, some dictionaries may still be read. -/
inductive StoredFile where
  | absent
  | damaged (parsed : Storage)
  | intact (storage : Storage)
  deriving DecidableEq

/-- What the operations of one call come to. A file that is there is found. -/
structure FileOutcomes where
  locks : Bool := true
  stat : StoredFile → Status
  opensForRead : Bool := true
  opensForWrite : Bool := true
  serializes : Bool := true
  closes : Bool := true
  atomicRename : Status := {}
  absent_of_notFound : ∀ file, (stat file).code = .notFound → file = .absent

/-- `CreateNewDictionaryId` draws numbers until one is new. -/
abbrev IdSource := (ids : List Nat) → {id : Nat // id ≠ 0 ∧ id ∉ ids}

/-! ## Loading -/

def loadInternal (outcomes : FileOutcomes) (filename : Bytes) (file : StoredFile) :
    Storage × Status :=
  let cannotOpen : Status :=
    if (outcomes.stat file).isOk then
      ⟨.unknown, filename ++ utf8 " exists but cannot open it: OK"⟩
    else outcomes.stat file
  match file with
  | .absent => ({}, cannotOpen)
  | .damaged parsed =>
    if outcomes.opensForRead then
      (parsed, ⟨.dataLoss, utf8 "ParseFromCodedStream failed. File seems broken"⟩)
    else ({}, cannotOpen)
  | .intact storage => if outcomes.opensForRead then (storage, {}) else ({}, cannotOpen)

/-- The loop of `Load` over the dictionaries behind `before`. -/
def assignIds (newId : IdSource) : List UserDictionary → List UserDictionary → List UserDictionary
  | before, [] => before
  | before, dictionary :: rest =>
    let dictionary :=
      if dictionary.id = 0 then
        { dictionary with id := newId ((before ++ dictionary :: rest).map (·.id)) }
      else dictionary
    assignIds newId (before ++ [dictionary]) rest

def load (outcomes : FileOutcomes) (newId : IdSource) (filename : Bytes) (file : StoredFile) :
    Storage × Status :=
  let (proto, status) := loadInternal outcomes filename file
  (⟨assignIds newId [] proto.dictionaries⟩, status)

/-! ## Saving -/

/-- The status of `Save`, and the file behind it. -/
def save (outcomes : FileOutcomes) (fileSize : Storage → Nat) (filename : Bytes) (locked : Bool)
    (proto : Storage) (file : StoredFile) : Status × StoredFile :=
  let tmpFilename := filename ++ utf8 ".tmp"
  if !locked then
    (⟨.failedPrecondition, utf8 "Must be locked before saving the dictionary (SYNC_FAILURE)"⟩, file)
  else if !outcomes.opensForWrite then
    (⟨.permissionDenied,
      utf8 "Cannot open " ++ tmpFilename ++ utf8 " for write (SYNC_FAILURE)"⟩, file)
  else if !outcomes.serializes then
    (⟨.permissionDenied,
      utf8 "SerializeToOstream failed (SYNC_FAILURE); path = " ++ tmpFilename⟩, file)
  else if !outcomes.closes then
    (⟨.permissionDenied, utf8 "Failed to close " ++ tmpFilename ++ utf8 " (SYNC_FAILURE)"⟩, file)
  else
    let tooBigFileBytes := kDefaultWarningTotalBytesLimit ≤ fileSize proto
    let sizeErrorMsg := utf8 "The file size exceeds the limit: size = " ++
      decimal (fileSize proto) ++ utf8 ", limit = " ++ decimal kDefaultWarningTotalBytesLimit
    if !outcomes.atomicRename.isOk then
      let msg := outcomes.atomicRename.message ++ utf8 "; Atomic rename from " ++ tmpFilename ++
        utf8 " to " ++ filename ++ utf8 " failed (SYNC_FAILURE)"
      (⟨.permissionDenied, if tooBigFileBytes then msg ++ utf8 "; " ++ sizeErrorMsg else msg⟩, file)
    else if tooBigFileBytes then
      (⟨.resourceExhausted,
        utf8 "Save was successful with error (TOO_BIG_FILE_BYTES): " ++ sizeErrorMsg⟩,
        .intact proto)
    else ({}, .intact proto)

/-! ## Dictionaries -/

namespace Storage

def isStorageFull (storage : Storage) : Bool := kMaxDictionarySize ≤ storage.dictionaries.length

def getUserDictionaryIndex (storage : Storage) (dictionaryId : Nat) : Option Nat :=
  storage.dictionaries.findIdx? fun dictionary => dictionary.id = dictionaryId

def getUserDictionaryId (storage : Storage) (dictionaryName : Bytes) : Status ⊕ Nat :=
  match storage.dictionaries.find? fun dictionary => dictionary.name = dictionaryName with
  | some dictionary => .inr dictionary.id
  | none => .inl ⟨.notFound, utf8 "Dictionary id is not found for " ++ dictionaryName⟩

def isValidDictionaryName (storage : Storage) (dictionaryName : Bytes) : Status :=
  if !(validateDictionaryName dictionaryName).isOk then validateDictionaryName dictionaryName
  else if storage.dictionaries.any fun dictionary => dictionary.name = dictionaryName then
    toStatus .dictionaryNameDuplicated
  else {}

/-- The id of the new dictionary, and the storage with it. -/
def createDictionary (newId : IdSource) (storage : Storage) (dictionaryName : Bytes) :
    Status ⊕ (Nat × Storage) :=
  if !(storage.isValidDictionaryName dictionaryName).isOk then
    .inl (storage.isValidDictionaryName dictionaryName)
  else if storage.isStorageFull then .inl (toStatus .dictionarySizeLimitExceeded)
  else
    -- the new dictionary is already in the list when its id is drawn
    let id := newId ((storage.dictionaries ++ [({} : UserDictionary)]).map (·.id))
    .inr (id, ⟨storage.dictionaries ++ [{ id := id, name := dictionaryName }]⟩)

/-- `*GetUserDictionary(id)->add_entries() = entry` -/
def addEntry (storage : Storage) (index : Nat) (entry : Entry) : Storage :=
  ⟨storage.dictionaries.modify index fun dictionary =>
    { dictionary with entries := dictionary.entries ++ [entry] }⟩

end Storage

def UserDictionary.isFull (dictionary : UserDictionary) : Bool :=
  kMaxEntrySize ≤ dictionary.entries.length

end Mozkey.Dictionary
