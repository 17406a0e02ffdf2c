import Mathlib.Data.List.Sort
import Mozkey.Base.ScriptType
import Mozkey.Infra.RecencyMap
import Std.Data.TreeMap
import Mathlib.Data.List.Dedup
import Mathlib.Data.List.Induction

/-!
# Character forms

`config/character_form_manager.cc`: the manager of the conversion, the number style and the storage
that they share. The manager of the preedit has fixed forms and is left out.

A key of the storage is the `char16_t` itself: no two of them have the same fingerprint under
`kSeedValue`.
-/

namespace Mozkey.Config

open Infra Base Std

inductive CharacterForm where
  | halfWidth
  | fullWidth
  | lastForm
  | noConversion
deriving DecidableEq

/-- `NumberUtil::NumberString::Style` -/
inductive NumberStyle where
  | defaultStyle
  | numberSeparatedArabicHalfwidth
  | numberSeparatedArabicFullwidth
  | numberArabicAndKanjiHalfwidth
  | numberArabicAndKanjiFullwidth
  | numberKanji
  | numberOldKanji
  | numberRomanCapital
  | numberRomanSmall
  | numberCircled
  | numberKanjiArabic
  | numberHex
  | numberOct
  | numberBin
  | numberSuperscript
  | numberSubscript
deriving DecidableEq

def adaptNumberStyleToForm (style : NumberStyle) (form : CharacterForm) : NumberStyle :=
  match style with
  | .numberSeparatedArabicHalfwidth | .numberSeparatedArabicFullwidth =>
    if form = .halfWidth then .numberSeparatedArabicHalfwidth else .numberSeparatedArabicFullwidth
  | .numberArabicAndKanjiHalfwidth | .numberArabicAndKanjiFullwidth =>
    if form = .halfWidth then .numberArabicAndKanjiHalfwidth else .numberArabicAndKanjiFullwidth
  | style => style

structure NumberFormStyle where
  form : CharacterForm
  style : NumberStyle
deriving DecidableEq

/-! ## Characters -/

/-- `HalfWidthToFullWidth` of `base/strings/japanese.h`, which is compiled from a table. -/
structure Japanese where
  halfWidthToFullWidth : Bytes → Bytes

/-- The character that stands for `str`, or 0. -/
def getNormalizedCharacter (japanese : Japanese) (str : Bytes) : Nat :=
  match getScriptTypeOfString str with
  | .katakana => 0x30A2
  | .number => 0x0030
  | .alphabet => 0x0041
  | .kanji | .hiragana => 0x0000
  | _ =>
    if isOneChar str then
      match decodeUtf8 (japanese.halfWidthToFullWidth str) with
      | some (codepoint, _) => if codepoint ≤ 0xFFFF then codepoint else 0x0000
      | none => 0x0000
    else 0x0000

/-! ## The storage -/

/-- What is stored under a key. -/
inductive Record where
  | form (form : CharacterForm)
  | numberStyle (formStyle : NumberFormStyle)
deriving DecidableEq

abbrev FormStorage := RecencyMap Nat Record

def kLruSize : Nat := 128

def emptyStorage : FormStorage where
  capacity := kLruSize
  positive := by decide

/-- The key of the number style, "N". -/
def kKey : Nat := 0x004E

def zero : Nat := 0x0030

/-! ## The number style -/

def setNumberStyle (storage : FormStorage) (formStyle : NumberFormStyle) : FormStorage :=
  storage.insert kKey (.numberStyle formStyle)

def getNumberStyle (storage : FormStorage) : Option NumberFormStyle :=
  match storage.get? kKey with
  | some (.numberStyle formStyle) => some formStyle
  | _ => none

def synchronizeNumberForm (storage : FormStorage) (form : CharacterForm) : FormStorage :=
  match getNumberStyle storage with
  | none => storage
  | some current =>
    let synced : NumberFormStyle := ⟨form, adaptNumberStyleToForm current.style form⟩
    if current.form ≠ synced.form ∨ current.style ≠ synced.style then setNumberStyle storage synced
    else storage

/-! ## The rules -/

/-- `CharacterFormManagerImpl`, what the rules have made of it. -/
structure CharacterFormManager where
  conversionTable : TreeMap Nat CharacterForm := ∅
  groupTable : TreeMap Nat (List Nat) := ∅

/-- A group and the form of its conversion. -/
abbrev CharacterFormRule := Bytes × CharacterForm

variable (japanese : Japanese)

/-- The characters of a rule before they are sorted. -/
def ruleChars (key : Bytes) : List Nat :=
  ((unicodeChars key).map fun ch => getNormalizedCharacter japanese ch.utf8).filter (· ≠ 0x0000)

/-- Sorted, and every one once. -/
def ruleGroup (key : Bytes) : List Nat :=
  ((ruleChars japanese key).insertionSort (· ≤ ·)).dedup

def kMaxGroupSize : Nat := 128
def kMaxTableSize : Nat := 256

/-- The rule is skipped because it is too long, or because a table would become too big. -/
def ruleSkipped (m : CharacterFormManager) (key : Bytes) : Bool :=
  let size := (ruleChars japanese key).length
  kMaxGroupSize < size || kMaxTableSize < m.conversionTable.size + size ||
    kMaxTableSize < m.groupTable.size + size

/-- The loop over the group. -/
def addGroup (form : CharacterForm) (group : List Nat) (m : CharacterFormManager) (ucs2 : Nat) :
    CharacterFormManager where
  conversionTable := m.conversionTable.insert ucs2 form
  groupTable := if 1 < group.length then m.groupTable.insert ucs2 group else m.groupTable

def addRule (m : CharacterFormManager) (rule : CharacterFormRule) : CharacterFormManager :=
  if (ruleChars japanese rule.1).isEmpty then m
  else if ruleSkipped japanese m rule.1 then m
  else
    let group := ruleGroup japanese rule.1
    group.foldl (addGroup rule.2 group) m

def defaultRules : List CharacterFormRule :=
  [(utf8 "ア", .fullWidth), (utf8 "A", .lastForm), (utf8 "0", .lastForm),
    ([0x28, 0x29, 0x7B, 0x7D, 0x5B, 0x5D], .lastForm), (utf8 ".,", .lastForm),
    (utf8 "。、", .fullWidth), (utf8 "・「」", .fullWidth), (utf8 "\"'", .lastForm),
    (utf8 ":;", .lastForm), (utf8 "#%&@$^_|`\\", .lastForm), (utf8 "~", .lastForm),
    (utf8 "<>=+-/*", .lastForm), (utf8 "?!", .lastForm)]

/-- The rules that `ReloadConfig` adds for those of the configuration. -/
def effectiveRules (rules : List CharacterFormRule) : List CharacterFormRule :=
  if rules.isEmpty then defaultRules else rules

def reloadConfig (rules : List CharacterFormRule) : CharacterFormManager :=
  (effectiveRules rules).foldl (addRule japanese) {}

/-! ## Forms -/

variable (m : CharacterFormManager)

def getCharacterFormFromStorage (storage : FormStorage) (ucs2 : Nat) : CharacterForm :=
  match storage.get? ucs2 with
  | some (.form form) => form
  | _ => .fullWidth

def getCharacterForm (storage : FormStorage) (str : Bytes) : CharacterForm :=
  let ucs2 := getNormalizedCharacter japanese str
  if ucs2 = 0x0000 then .noConversion
  else
    match m.conversionTable[ucs2]? with
    | none => .noConversion
    | some form => if form = .lastForm then getCharacterFormFromStorage storage ucs2 else form

/-- `ucs2` and what is written together with it. -/
def groupOf (ucs2 : Nat) : List Nat := (m.groupTable[ucs2]?).getD [ucs2]

def saveCharacterFormToStorage (storage : FormStorage) (ucs2 : Nat) (form : CharacterForm) :
    FormStorage :=
  if form ≠ .fullWidth ∧ form ≠ .halfWidth then storage
  else
    let synchronize (storage : FormStorage) :=
      if ucs2 = zero then synchronizeNumberForm storage form else storage
    if storage.get? ucs2 = some (.form form) then synchronize storage
    else
      synchronize ((groupOf m ucs2).foldl
        (fun storage groupUcs2 => storage.insert groupUcs2 (.form form)) storage)

def setCharacterForm (storage : FormStorage) (str : Bytes) (form : CharacterForm) : FormStorage :=
  let ucs2 := getNormalizedCharacter japanese str
  if ucs2 = 0x0000 then storage
  else
    match m.conversionTable[ucs2]? with
    | none => storage
    | some ruleForm =>
      if ruleForm = .lastForm then saveCharacterFormToStorage m storage ucs2 form else storage

/-! ## Guessing -/

/-- `flush_chunk`, the form that is set for a chunk of `str`. -/
def flushChunk (str target : Bytes) (type : ScriptType) : List (Bytes × CharacterForm) :=
  if target.isEmpty then []
  -- symbols inside a larger string are ignored
  else if type = .unknownScript && target.length != str.length then []
  else
    match getFormTypeOfString target with
    | .fullWidth => [(target, .fullWidth)]
    | .halfWidth => [(target, .halfWidth)]
    | _ => []

/-- The loop over the characters, with the chunk so far and its type. -/
def guessChunks (str : Bytes) : Bytes → ScriptType → List UnicodeChar →
    List (Bytes × CharacterForm)
  | chunk, prevType, [] => flushChunk str chunk prevType
  | chunk, prevType, c :: rest =>
    if !c.ok then flushChunk str chunk prevType ++ guessChunks str [] .unknownScript rest
    else
      let type := if c.char32 = 0x30FB then .unknownScript else getScriptType c.char32
      if !chunk.isEmpty && type != prevType then
        flushChunk str chunk prevType ++ guessChunks str c.utf8 type rest
      else guessChunks str (chunk ++ c.utf8) type rest

def guessedForms (str : Bytes) : List (Bytes × CharacterForm) :=
  guessChunks str [] .unknownScript (unicodeChars str)

def setAll (storage : FormStorage) (forms : List (Bytes × CharacterForm)) : FormStorage :=
  forms.foldl (fun storage f => setCharacterForm japanese m storage f.1 f.2) storage

def guessAndSetCharacterForm (storage : FormStorage) (str : Bytes) : FormStorage :=
  setAll japanese m storage (guessedForms str)

def setLastNumberStyle (storage : FormStorage) (formStyle : NumberFormStyle) : FormStorage :=
  let storage :=
    if formStyle.form = .halfWidth ∨ formStyle.form = .fullWidth then
      setCharacterForm japanese m storage (utf8 "0") formStyle.form
    else storage
  setNumberStyle storage formStyle

end Mozkey.Config

/-!
## What the rules make of the tables

Rules whose groups are disjoint leave every character with the form and the group of its own rule.
-/

namespace Mozkey.Config

open Infra Base Std

variable {japanese : Japanese} {m : CharacterFormManager} {ucs2 : Nat}

theorem nodup_ruleGroup (key : Bytes) : (ruleGroup japanese key).Nodup := List.nodup_dedup _

theorem mem_ruleGroup {key : Bytes} :
    ucs2 ∈ ruleGroup japanese key ↔ ucs2 ∈ ruleChars japanese key := by
  unfold ruleGroup
  simp

theorem ne_zero_of_mem_ruleGroup {key : Bytes} (h : ucs2 ∈ ruleGroup japanese key) : ucs2 ≠ 0 := by
  have := (List.mem_filter.mp (mem_ruleGroup.mp h)).2
  simpa using this

/-! ## Adding a group -/

theorem getElem?_insert_eq {α : Type} (t : TreeMap Nat α) (c ucs2 : Nat) (a : α) :
    (t.insert c a)[ucs2]? = if ucs2 = c then some a else t[ucs2]? := by
  rw [TreeMap.getElem?_insert]
  by_cases h : ucs2 = c
  · simp [h]
  · rw [if_neg h, if_neg]
    rw [Nat.compare_eq_eq]
    exact fun heq => h heq.symm

theorem conversionTable_addGroups (form : CharacterForm) (group : List Nat) :
    ∀ (l : List Nat) (m : CharacterFormManager),
    (l.foldl (addGroup form group) m).conversionTable[ucs2]? =
      if ucs2 ∈ l then some form else m.conversionTable[ucs2]?
  | [], m => by simp
  | c :: l, m => by
    rw [List.foldl_cons, conversionTable_addGroups form group l, addGroup]
    dsimp only
    rw [getElem?_insert_eq]
    by_cases hl : ucs2 ∈ l
    · simp [hl]
    · by_cases hc : ucs2 = c <;> simp [hl, hc]

theorem groupTable_addGroups (form : CharacterForm) (group : List Nat) :
    ∀ (l : List Nat) (m : CharacterFormManager),
    (l.foldl (addGroup form group) m).groupTable[ucs2]? =
      if ucs2 ∈ l ∧ 1 < group.length then some group else m.groupTable[ucs2]?
  | [], m => by simp
  | c :: l, m => by
    rw [List.foldl_cons, groupTable_addGroups form group l, addGroup]
    dsimp only
    by_cases hg : 1 < group.length
    · rw [if_pos hg, getElem?_insert_eq]
      by_cases hl : ucs2 ∈ l
      · simp [hl, hg]
      · by_cases hc : ucs2 = c <;> simp [hl, hc, hg]
    · simp [hg]

/-! ## Loading rules -/

/-- The rules are all added, and no character is in two of them. -/
structure LoadedAsWritten (japanese : Japanese) (rules : List CharacterFormRule) : Prop where
  disjoint : (effectiveRules rules).Pairwise fun a b =>
    List.Disjoint (ruleGroup japanese a.1) (ruleGroup japanese b.1)
  notSkipped : ∀ before rule after, effectiveRules rules = before ++ rule :: after →
    ruleSkipped japanese (before.foldl (addRule japanese) {}) rule.1 = false

variable {rule : CharacterFormRule}

theorem addRule_eq (h : ruleSkipped japanese m rule.1 = false) :
    addRule japanese m rule =
      (ruleGroup japanese rule.1).foldl (addGroup rule.2 (ruleGroup japanese rule.1)) m := by
  unfold addRule
  by_cases hempty : ruleChars japanese rule.1 = []
  · simp [hempty, ruleGroup]
  · rw [if_neg (by simpa using hempty), if_neg (by simp [h])]

/-- The entries of `ucs2` are those of the rule. -/
def EntriesOf (japanese : Japanese) (m : CharacterFormManager) (rule : CharacterFormRule)
    (ucs2 : Nat) : Prop :=
  m.conversionTable[ucs2]? = some rule.2 ∧ groupOf m ucs2 = ruleGroup japanese rule.1

def NoEntries (m : CharacterFormManager) (ucs2 : Nat) : Prop :=
  m.conversionTable[ucs2]? = none ∧ m.groupTable[ucs2]? = none

theorem entriesOf_addRule (h : ruleSkipped japanese m rule.1 = false) (hnone : NoEntries m ucs2)
    (hc : ucs2 ∈ ruleGroup japanese rule.1) :
    EntriesOf japanese (addRule japanese m rule) rule ucs2 := by
  rw [addRule_eq h]
  refine ⟨by rw [conversionTable_addGroups, if_pos hc], ?_⟩
  unfold groupOf
  rw [groupTable_addGroups]
  by_cases hlen : 1 < (ruleGroup japanese rule.1).length
  · rw [if_pos ⟨hc, hlen⟩, Option.getD_some]
  · -- a group of one character has no entry
    rw [if_neg fun hand => hlen hand.2, hnone.2, Option.getD_none]
    have hpos := List.length_pos_of_mem hc
    obtain ⟨c, hgroup⟩ := List.length_eq_one_iff.mp (by omega :
      (ruleGroup japanese rule.1).length = 1)
    rw [hgroup] at hc ⊢
    rw [List.mem_singleton.mp hc]

theorem entries_addRule_of_not_mem (h : ruleSkipped japanese m rule.1 = false)
    (hc : ucs2 ∉ ruleGroup japanese rule.1) :
    (addRule japanese m rule).conversionTable[ucs2]? = m.conversionTable[ucs2]? ∧
      (addRule japanese m rule).groupTable[ucs2]? = m.groupTable[ucs2]? := by
  rw [addRule_eq h, conversionTable_addGroups, if_neg hc, groupTable_addGroups,
    if_neg fun hand => hc hand.1]
  exact ⟨rfl, rfl⟩

/-- What the tables say about `ucs2` after `rules`. -/
def TablesSay (japanese : Japanese) (m : CharacterFormManager) (rules : List CharacterFormRule)
    (ucs2 : Nat) : Prop :=
  (∀ rule ∈ rules, ucs2 ∈ ruleGroup japanese rule.1 → EntriesOf japanese m rule ucs2) ∧
    ((∀ rule ∈ rules, ucs2 ∉ ruleGroup japanese rule.1) → NoEntries m ucs2)

theorem tablesSay_foldl (ucs2 : Nat) (rules : List CharacterFormRule)
    (hdisjoint : rules.Pairwise fun a b =>
      List.Disjoint (ruleGroup japanese a.1) (ruleGroup japanese b.1))
    (hskipped : ∀ before rule after, rules = before ++ rule :: after →
      ruleSkipped japanese (before.foldl (addRule japanese) {}) rule.1 = false) :
    TablesSay japanese (rules.foldl (addRule japanese) {}) rules ucs2 := by
  induction rules using List.reverseRecOn with
  | nil => exact ⟨fun _ h => absurd h (by simp), fun _ => ⟨by simp, by simp⟩⟩
  | append_singleton rules last ih =>
    obtain ⟨hrules, -, hcross⟩ := List.pairwise_append.mp hdisjoint
    obtain ⟨hmem, hnone⟩ := ih hrules fun before rule after heq =>
      hskipped before rule (after ++ [last]) (by rw [heq]; simp)
    have hlast := hskipped rules last [] rfl
    rw [List.foldl_append, List.foldl_cons, List.foldl_nil]
    by_cases hc : ucs2 ∈ ruleGroup japanese last.1
    · have hbefore : ∀ rule ∈ rules, ucs2 ∉ ruleGroup japanese rule.1 := fun rule hr h =>
        hcross rule hr last (List.mem_singleton_self _) h hc
      refine ⟨fun rule hr h => ?_, fun h => absurd hc (h last (by simp))⟩
      rcases List.mem_append.mp hr with hr | hr
      · exact absurd h (hbefore rule hr)
      · rw [List.mem_singleton.mp hr]
        exact entriesOf_addRule hlast (hnone hbefore) hc
    · obtain ⟨htable, hgroup⟩ := entries_addRule_of_not_mem hlast hc
      refine ⟨fun rule hr h => ?_, fun h => ?_⟩
      · rcases List.mem_append.mp hr with hr | hr
        · obtain ⟨h₁, h₂⟩ := hmem rule hr h
          exact ⟨htable.trans h₁, by rw [groupOf, hgroup]; exact h₂⟩
        · rw [List.mem_singleton.mp hr] at h
          exact absurd h hc
      · obtain ⟨h₁, h₂⟩ := hnone fun rule hr => h rule (by simp [hr])
        exact ⟨htable.trans h₁, hgroup.trans h₂⟩

/-- Every character has the entries of its rule, or none. -/
theorem tablesSay_reloadConfig {rules : List CharacterFormRule}
    (h : LoadedAsWritten japanese rules) (ucs2 : Nat) :
    TablesSay japanese (reloadConfig japanese rules) (effectiveRules rules) ucs2 :=
  tablesSay_foldl ucs2 _ h.disjoint h.notSkipped

end Mozkey.Config
