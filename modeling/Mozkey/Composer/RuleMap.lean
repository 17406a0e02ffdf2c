import Mozkey.Composer.SpecialKeyCodes
import Mozkey.Composer.TableLoading
import Mozkey.Composer.VisibleText

/-!
# The romaji table as a map

The rules that were added are found again by their inputs. An input is registered with codes for its
special keys, and a table is looked up in lower case until a rule has a capital letter.

* `addRules_faithful` — what is found in a table, for any rules that were added to it
-/

namespace Mozkey.Composer

open Infra Base

/-- What the trie steps through. -/
def Entry.key (entry : Entry) : List Nat := (char32s entry.input).map (·.1)

theorem char32s_flatten : ∀ {chars : List Bytes}, (∀ u ∈ chars, IsChar u) →
    (char32s chars.flatten).map (·.1) = chars.map utf8ToCodepoint
  | [], _ => rfl
  | u :: chars, h => by
    have hsplit := (h u List.mem_cons_self).split_codepoint chars.flatten
    simp [char32s_of_some hsplit, char32s_flatten (List.forall_mem_cons.mp h).2]

/-- Unicode texts with the same characters are the same. -/
theorem char32s_injective {s s' : Bytes} (h : IsUnicode s) (h' : IsUnicode s')
    (heq : (char32s s).map (·.1) = (char32s s').map (·.1)) : s = s' := by
  obtain ⟨chars, hchars, rfl⟩ := (isUnicode_iff s).mp h
  obtain ⟨chars', hchars', rfl⟩ := (isUnicode_iff s').mp h'
  rw [char32s_flatten hchars, char32s_flatten hchars'] at heq
  congr 1
  induction chars generalizing chars' with
  | nil => exact (List.map_eq_nil_iff.mp heq.symm).symm
  | cons u chars ih =>
    cases chars' with
    | nil => cases heq
    | cons u' chars' =>
      obtain ⟨hcode, htail⟩ := List.cons.inj heq
      have hall : ∀ v ∈ chars, IsChar v := (List.forall_mem_cons.mp hchars).2
      have hall' : ∀ v ∈ chars', IsChar v := (List.forall_mem_cons.mp hchars').2
      rw [(hchars u List.mem_cons_self).codepoint_injective (hchars' u' List.mem_cons_self) hcode,
        ih hall (isUnicode_flatten hall) chars' hall' (isUnicode_flatten hall') htail]

/-! ## Calls -/

/-- A call of `AddRuleWithAttributes` that was not refused for a length, and its entry. -/
structure Registration where
  rule : Rule
  entry : Entry
  added : Bool

def Table.registration (table : Table) (rule : Rule) (added : Bool) : List Registration :=
  if rule.isTooLong then []
  else
    let (_, input, pending) := table.register rule
    [⟨rule, ⟨input, rule.output, pending, rule.attributes⟩, added⟩]

/-- The calls one after another. -/
def Table.registrations (fuel : Nat) : Table → List Rule → List Registration
  | _, [] => []
  | table, rule :: rules =>
    match table.addOneRule fuel rule with
    | none => []
    | some (table', added) =>
      table.registration rule added ++ table'.registrations fuel rules

/-- The entries of the calls that returned one. -/
def accepted (calls : List Registration) : List Entry :=
  (calls.filter (·.added)).map (·.entry)

theorem accepted_append (calls calls' : List Registration) :
    accepted (calls ++ calls') = accepted calls ++ accepted calls' := by
  simp [accepted]

/-! ## One call -/

theorem register_grows (table : Table) (rule : Rule) :
    table.specialKeyMap <+: (table.register rule).1.specialKeyMap ∧
      (Registered table.specialKeyMap → Registered (table.register rule).1.specialKeyMap) ∧
      RegisteredAs (table.register rule).1.specialKeyMap rule.escapedInput
        (table.register rule).2.1 := by
  obtain ⟨hmap, hregistered, hinput⟩ := register_spec table.specialKeyMap rule.escapedInput
  obtain ⟨hmap', hregistered', -⟩ :=
    register_spec (table.specialKeyMap.register rule.escapedInput).2 rule.escapedPending
  exact ⟨hmap.trans hmap', fun h => hregistered' (hregistered h), hinput _ hmap'⟩

/-- The table is what the calls have made. -/
structure BuiltBy (table : Table) (calls : List Registration) : Prop where
  entries : table.entries = Trie.ofEntries Entry.key (accepted calls)
  caseSensitive : table.caseSensitive = (accepted calls).any fun e => hasCapitalLetter e.input
  registered : Registered table.specialKeyMap
  inputs : ∀ call ∈ calls,
    RegisteredAs table.specialKeyMap call.rule.escapedInput call.entry.input

theorem builtBy_new : BuiltBy Table.new [] where
  entries := rfl
  caseSensitive := rfl
  registered := registered_foldl _ registered_nil
  inputs := by simp

variable {table table' : Table} {calls : List Registration}

/-- The keys of a new rule are registered whether it is added or not. -/
theorem BuiltBy.register (h : BuiltBy table calls) {rule : Rule} (added : Bool)
    (hlong : rule.isTooLong = false) :
    ∀ call ∈ calls ++ table.registration rule added,
      RegisteredAs (table.register rule).1.specialKeyMap call.rule.escapedInput
        call.entry.input := by
  obtain ⟨hmap, -, hinput⟩ := register_grows table rule
  intro call hcall
  rcases List.mem_append.mp hcall with hcall | hcall
  · exact (h.inputs call hcall).mono hmap
  · rw [Table.registration, hlong, if_neg Bool.false_ne_true] at hcall
    rw [List.mem_singleton.mp hcall]
    exact hinput

/-- What one call makes of a table. -/
theorem BuiltBy.addOneRule (h : BuiltBy table calls) {fuel : Nat} {rule : Rule} {added : Bool}
    (hadd : table.addOneRule fuel rule = some (table', added)) :
    BuiltBy table' (calls ++ table.registration rule added) := by
  unfold Table.addOneRule at hadd
  split at hadd
  · next hlong =>
    cases hadd
    simpa [Table.registration, hlong] using h
  · next hlong =>
    rw [Bool.not_eq_true] at hlong
    have hinputs : ∀ added, ∀ call ∈ calls ++ table.registration rule added,
        RegisteredAs (table.register rule).1.specialKeyMap call.rule.escapedInput
          call.entry.input := fun added => h.register added hlong
    have hregistered := (register_grows table rule).2.1 h.registered
    dsimp only at hadd
    split at hadd
    · cases hadd
    · -- the rule is looping
      cases hadd
      have hsame : accepted (calls ++ table.registration rule false) = accepted calls := by
        rw [accepted_append, Table.registration, hlong, if_neg Bool.false_ne_true]
        exact List.append_nil _
      exact ⟨by rw [hsame]; exact h.entries, by rw [hsame]; exact h.caseSensitive, hregistered,
        hinputs false⟩
    · cases hadd
      have hsnoc : accepted (calls ++ table.registration rule true) = accepted calls ++
          [⟨(table.register rule).2.1, rule.output, (table.register rule).2.2,
            rule.attributes⟩] := by
        rw [accepted_append, Table.registration, hlong, if_neg Bool.false_ne_true]
        rfl
      refine ⟨?_, ?_, hregistered, hinputs true⟩
      · rw [hsnoc, Trie.ofEntries_snoc, ← h.entries]
        rfl
      · rw [hsnoc, List.any_append, ← h.caseSensitive, List.any_cons, List.any_nil, Bool.or_false]
        rfl

/-- **What the calls make of a table.** -/
theorem BuiltBy.addCalls {fuel : Nat} : ∀ {rules : List Rule} {table : Table}
    {calls : List Registration}, BuiltBy table calls →
    table.addCalls fuel rules = some table' →
    BuiltBy table' (calls ++ table.registrations fuel rules)
  | [], table, calls, h, hadd => by
    simpa [← Option.some.inj hadd, Table.registrations] using h
  | rule :: rules, table, calls, h, hadd => by
    rw [Table.addCalls] at hadd
    rw [Table.registrations]
    cases hone : table.addOneRule fuel rule with
    | none =>
      simp [hone] at hadd
    | some next =>
      rw [hone] at hadd
      dsimp only at hadd ⊢
      rw [← List.append_assoc]
      exact (h.addOneRule hone).addCalls hadd

/-! ## Lower case -/

/-- A capital letter that is not inside a special key is seen. -/
theorem hasCapitalLetter_of_mem {input : Bytes} (h : IsUnicode input)
    (hblock : ¬blockBytes.Sublist input) {b : UInt8} (hb : b ∈ input)
    (hrange : inRange b.toNat 0x41 0x5A = true) : hasCapitalLetter input = true := by
  have hbounds : 0x41 ≤ b.toNat ∧ b.toNat ≤ 0x5A := by simpa [inRange] using hrange
  have hmem := h.ascii_mem hb (by omega)
  have hblocks : deleteBlocksFrom input.length input = input := by
    cases input with
    | nil => rfl
    | cons c s => rw [List.length_cons, deleteBlocksFrom, findBlock_of_not_sublist hblock]
  unfold hasCapitalLetter deleteSpecialKeys
  dsimp only
  rw [hblocks, List.any_eq_true]
  refine ⟨b.toNat, ?_, hrange⟩
  split
  · rw [utf8ToUtf32_flatMap_codepointToUtf8]
    · refine List.mem_filter.mpr ⟨List.mem_filter.mpr ⟨hmem, ?_⟩, ?_⟩
      · rw [isSpecialKey, Bool.not_eq_true', Bool.and_eq_false_iff, decide_eq_false_iff_not]
        unfold kSpecialKeyBegin
        omega
      · rw [decide_eq_true_eq]
        omega
    · intro c hc
      have hle := h.2 c (List.mem_filter.mp hc).1
      omega
  · exact hmem

/-- **A rule is looked up as it is registered.** -/
theorem BuiltBy.normalize (h : BuiltBy table calls) {entry : Entry}
    (hentry : entry ∈ accepted calls) (hunicode : IsUnicode entry.input)
    (hblock : ¬blockBytes.Sublist entry.input) (hwide : ¬HasFullWidthCapital entry.input) :
    table.normalize entry.input = entry.input := by
  unfold Table.normalize
  split
  · rfl
  · next hcase =>
    refine lowerString_of_not_hasCapital _ (Nat.le_refl _) ?_
    rintro (⟨b, hb, hrange⟩ | hcapital)
    · refine hcase ?_
      simpa [h.caseSensitive] using ⟨entry, hentry, hasCapitalLetter_of_mem hunicode hblock hb
        hrange⟩
    · exact hwide hcapital

/-! ## The map -/

/-- What a table finds, after these calls. -/
structure FaithfulMap (table : Table) (calls : List Registration) : Prop where
  lookUp : ∀ before entry after, accepted calls = before ++ entry :: after →
    (∀ later ∈ after, later.key ≠ entry.key) → table.normalize entry.input = entry.input →
    table.lookUp entry.input = some entry
  normalize : ∀ entry ∈ accepted calls, IsUnicode entry.input →
    ¬blockBytes.Sublist entry.input → ¬HasFullWidthCapital entry.input →
    table.normalize entry.input = entry.input
  key : ∀ entry ∈ accepted calls, ∀ entry' ∈ accepted calls, IsUnicode entry.input →
    IsUnicode entry'.input → entry.key = entry'.key → entry.input = entry'.input
  distinct : table.specialKeyMap.length ≤ kSpecialKeys → ∀ call ∈ calls, ∀ call' ∈ calls,
    ¬WrittenOut (symbols call.rule.escapedInput) → ¬WrittenOut (symbols call'.rule.escapedInput) →
    call.entry.input = call'.entry.input →
    symbols call.rule.escapedInput = symbols call'.rule.escapedInput ∧
      (¬EscapesBrace call.rule.escapedInput → ¬EscapesBrace call'.rule.escapedInput →
        call.rule.escapedInput = call'.rule.escapedInput)
  lookUpPrefix : ∀ s, ∃ found,
    Trie.LongestMatch Entry.key (accepted calls) ((char32s (table.normalize s)).map (·.1)) found ∧
      (table.lookUpPrefix s).entry = found.data ∧
      (table.lookUpPrefix s).keyLength = bytesOf (char32s (table.normalize s)) found.length ∧
      (table.lookUpPrefix s).fixed = found.fixed

theorem BuiltBy.faithful (h : BuiltBy table calls) : FaithfulMap table calls where
  lookUp before entry after heq hafter hnormalize := by
    rw [Table.lookUp, hnormalize, h.entries]
    exact Trie.lookUp_ofEntries_iff.mpr ⟨before, after, heq, rfl, hafter⟩
  normalize entry hentry := h.normalize hentry
  key entry _ entry' _ hunicode hunicode' heq := char32s_injective hunicode hunicode' heq
  distinct hlen call hcall call' hcall' hwritten hwritten' heq := by
    have hinput := h.inputs call hcall
    have hinput' := h.inputs call' hcall'
    rw [hinput.text, hinput'.text] at heq
    have hsymbols := render_injective h.registered hlen hinput.keys hinput'.keys hwritten hwritten'
      heq
    exact ⟨hsymbols, fun hbrace hbrace' => symbols_injective hbrace hbrace' hsymbols⟩
  lookUpPrefix s := by
    refine ⟨_, Trie.lookUpPrefix_longestMatch _, ?_, ?_, ?_⟩ <;> rw [Table.lookUpPrefix, h.entries]

/-- **A table is a map of the rules that were added to it.** -/
theorem addRules_faithful {fuel : Nat} {rules : List Rule}
    (hadd : Table.new.addRules fuel rules = some table) :
    FaithfulMap table (Table.new.registrations fuel (rules.flatMap Rule.calls)) := by
  rw [addRules_eq_addCalls] at hadd
  have hbuilt := builtBy_new.addCalls hadd
  rw [List.nil_append] at hbuilt
  exact hbuilt.faithful

def keyRules : List Rule :=
  [⟨utf8 "ka", utf8 "か", [], {}⟩, ⟨utf8 "k\x7b!\x7d", [], utf8 "k", {}⟩,
    ⟨utf8 "ka", utf8 "カ", [], {}⟩]

theorem addRules_faithful_keys : ∃ table, Table.new.addRules 2 keyRules = some table ∧
    FaithfulMap table (Table.new.registrations 2 (keyRules.flatMap Rule.calls)) :=
  ⟨_, rfl, addRules_faithful rfl⟩

def braceRules : List Rule :=
  [⟨utf8 "\x7b", utf8 "x", [], {}⟩, ⟨utf8 "\x7b\x7b\x7d", utf8 "y", [], {}⟩,
    ⟨utf8 "a", utf8 "z", [], {}⟩]

/-- **Two inputs have the same key, and a rule is found whose input does not begin the text.** -/
theorem addRules_not_faithful : ∃ table, Table.new.addRules 2 braceRules = some table ∧
    (∃ call call', Table.new.registrations 2 (braceRules.flatMap Rule.calls)
        = call :: call' :: (Table.new.registrations 2 (braceRules.flatMap Rule.calls)).drop 2 ∧
      call.rule.escapedInput ≠ call'.rule.escapedInput ∧ call.entry.input = call'.entry.input) ∧
    (∀ entry ∈ accepted (Table.new.registrations 2 (braceRules.flatMap Rule.calls)),
      entry.input = [] ∨ ¬entry.input <+: utf8 "A") ∧
    (table.lookUpPrefix (utf8 "A")).entry.map (·.result) = some (utf8 "z") :=
  ⟨_, rfl, ⟨_, _, rfl, by decide, by decide⟩, by decide, rfl⟩

end Mozkey.Composer
