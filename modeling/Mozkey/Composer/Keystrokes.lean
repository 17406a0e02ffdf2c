import Mozkey.Composer.TypingTotal

/-!
# What becomes of a keystroke

What a step of `AddInputInternal` takes of the input is put behind the raw text of the chunk, and
what it does not take is left. A special key in front of the input is dropped, and the raw text is
dropped with a result that is not transliterated. Nothing else is lost (`Outcome.raw_append`).
-/

namespace Mozkey.Composer

open Infra Base

/-! ## The attributes of a table -/

/-- All entries have attributes of one kind. -/
def Table.AllAttributes (Q : TableAttributes → Prop) (table : Table) : Prop :=
  ∀ key entry, table.entries.lookUp key = some entry → Q entry.attributes

variable {Q : TableAttributes → Prop} {table table' : Table}

theorem Table.AllAttributes.lookUpPrefix (h : table.AllAttributes Q) {key : Bytes} {entry : Entry}
    (hentry : (table.lookUpPrefix key).entry = some entry) : Q entry.attributes :=
  h _ entry ((Trie.lookUp_take_lookUpPrefix _ _).trans hentry)

theorem allAttributes_new : Table.new.AllAttributes Q := by
  intro key entry h
  simp [Table.new, Trie.lookUp_empty] at h

theorem addOneRule_allAttributes {fuel : Nat} {rule : Rule} {added : Bool}
    (h : table.AllAttributes Q) (hrule : Q rule.attributes)
    (hadd : table.addOneRule fuel rule = some (table', added)) : table'.AllAttributes Q := by
  unfold Table.addOneRule at hadd
  split at hadd
  · obtain ⟨rfl, -⟩ := Prod.mk.inj (Option.some.inj hadd)
    exact h
  · dsimp only at hadd
    split at hadd
    · cases hadd
    · obtain ⟨rfl, -⟩ := Prod.mk.inj (Option.some.inj hadd)
      exact h
    · obtain ⟨rfl, -⟩ := Prod.mk.inj (Option.some.inj hadd)
      intro key entry hentry
      rw [Table.insert, Trie.lookUp_addEntry] at hentry
      split at hentry
      · rw [← Option.some.inj hentry]
        exact hrule
      · exact h key entry hentry

theorem addCalls_allAttributes {fuel : Nat} : ∀ {rules : List Rule} {table table' : Table},
    table.AllAttributes Q → (∀ rule ∈ rules, Q rule.attributes) →
    table.addCalls fuel rules = some table' → table'.AllAttributes Q
  | [], table, table', h, _, hadd => Option.some.inj hadd ▸ h
  | rule :: rules, table, table', h, hrules, hadd => by
    rw [Table.addCalls] at hadd
    split at hadd
    · cases hadd
    · next next added hone =>
      exact addCalls_allAttributes
        (addOneRule_allAttributes h (hrules rule List.mem_cons_self) hone)
        (fun r hr => hrules r (List.mem_cons_of_mem rule hr)) hadd

/-- **The entries of a table have the attributes of its rules, or none.** -/
theorem addRules_allAttributes {fuel : Nat} {rules : List Rule} (hnone : Q {})
    (hrules : ∀ rule ∈ rules, Q rule.attributes)
      (hadd : Table.new.addRules fuel rules = some table') :
    table'.AllAttributes Q := by
  rw [addRules_eq_addCalls] at hadd
  refine addCalls_allAttributes allAttributes_new (fun call hcall => ?_) hadd
  obtain ⟨rule, hrule, hcall⟩ := List.mem_flatMap.mp hcall
  unfold Rule.calls at hcall
  split at hcall
  · rcases List.mem_cons.mp hcall with rfl | hcall
    · exact hnone
    · rw [List.mem_singleton.mp hcall]
      exact hrules rule hrule
  · rw [List.mem_singleton.mp hcall]
    exact hrules rule hrule

/-! ## Steps -/

/-- The displayed result is gone back to. -/
structure RollsBack (c : CharChunk) (input : Bytes) : Prop where
  noEntry : (c.table.table.lookUpPrefix (c.pending ++ input)).entry = none
  notTaken : (c.table.table.lookUpPrefix (c.pending ++ input)).keyLength ≤ c.pending.length
  fallback : c.hasDisplayAmbiguousResultFallback = true

variable {c : CharChunk} {input : Bytes} {s : CharChunk × Bytes}
  {o : (CharChunk × Bytes) ⊕ Option (CharChunk × Bytes)}

theorem RollsBack.snapshot (h : RollsBack c input) :
    c.displayAmbiguousResultRaw ≠ [] := by
  intro hnil
  have hfallback := h.fallback
  simp [CharChunk.hasDisplayAmbiguousResultFallback, hnil] at hfallback

/-- What is left of the input behind a rule. -/
def restBehind (c : CharChunk) (input : Bytes) : Bytes :=
  input.drop ((c.table.table.lookUpPrefix (c.pending ++ input)).keyLength - c.pending.length)

/-- No rule is found. -/
def NoEntry (c : CharChunk) (input : Bytes) : Prop :=
  (c.table.table.lookUpPrefix (c.pending ++ input)).entry = none

/-- What a step of `AddInputInternal` does. -/
inductive Outcome (c : CharChunk) (input : Bytes) :
    (CharChunk × Bytes) ⊕ Option (CharChunk × Bytes) → Prop
  | restored : RollsBack c input →
    Outcome c input (.inr (some (c.restoreDisplayAmbiguousResultFallback input)))
  | dropped : NoEntry c input → (trimLeadingSpecialKey input).length < input.length →
    Outcome c input (.inl (c, trimLeadingSpecialKey input))
  | front : NoEntry c input → c.pending = [] →
    Outcome c input (.inr (some
      ({ c with
          raw := c.raw ++ (CharChunk.frontChar input).1
          conversion := c.conversion ++ (CharChunk.frontChar input).1 },
        (CharChunk.frontChar input).2)))
  | kept : NoEntry c input → c.pending ≠ [] → Outcome c input (.inr (some (c, input)))
  | extended (m : Nat) : NoEntry c input → 0 < m →
    Outcome c input (.inr (some
      ({ c with
          raw := c.raw ++ input.take m
          pending := c.pending ++ input.take m
          ambiguous := []
          displayAmbiguousAsResult := false }, input.drop m)))
  | cut : Outcome c input (.inr none)
  | cleared {entry : Entry} {found : PrefixMatch} :
    found = c.table.table.lookUpPrefix (c.pending ++ input) → found.entry = some entry →
    (c.takeEntry input found entry).attributes.noTransliteration = true →
    Outcome c input (.inr (some ({ c.takeEntry input found entry with raw := [] },
      restBehind c input)))
  | matched {entry : Entry} {found : PrefixMatch} :
    found = c.table.table.lookUpPrefix (c.pending ++ input) → found.entry = some entry →
    c.pending.length ≤ found.keyLength →
    Outcome c input (.inr (some (c.takeEntry input found entry, restBehind c input)))
  | again {entry : Entry} {found : PrefixMatch} :
    found = c.table.table.lookUpPrefix (c.pending ++ input) → found.entry = some entry →
    c.pending.length ≤ found.keyLength → restBehind c input ≠ [] →
    Outcome c input (.inl (c.takeEntry input found entry, restBehind c input))

theorem addUnmatchedInput_outcome
    (hentry : (c.table.table.lookUpPrefix (c.pending ++ input)).entry = none) :
    Outcome c input (c.addUnmatchedInput input
      (c.table.table.lookUpPrefix (c.pending ++ input)).keyLength) := by
  unfold CharChunk.addUnmatchedInput
  dsimp only
  split
  · next h =>
    rw [Bool.and_eq_true, decide_eq_true_eq] at h
    exact .restored ⟨hentry, h.1, h.2⟩
  · split
    · next hzero =>
      split
      · next htrim => exact .dropped hentry htrim
      · split
        · next hp => exact .front hentry (List.isEmpty_iff.mp hp)
        · next hp => exact .kept hentry (by simpa using hp)
    · next hzero =>
      have hne : ∀ n, (c.table.table.lookUpPrefix (c.pending ++ input)).keyLength ≤ n →
          n = c.pending.length → c.pending ≠ [] := by
        rintro n hle hn hp
        rw [hn, hp, List.length_nil] at hle
        rw [hp] at hzero
        omega
      split
      · next heq =>
        split
        · next h =>
          rw [Bool.and_eq_true, decide_eq_true_eq] at h
          exact .dropped hentry h.2
        · exact .kept hentry (hne _ (Nat.le_of_eq heq) rfl)
      · split
        · next hlt => exact .kept hentry (hne _ (Nat.le_of_lt hlt) rfl)
        · next hlt => exact .extended _ hentry (by omega)

theorem addInputInternal_outcome (c : CharChunk) (input : Bytes) :
    Outcome c input (CharChunk.addInputInternal (c, input)) := by
  cases hentry : (c.table.table.lookUpPrefix (c.pending ++ input)).entry with
  | none =>
    rw [Composition.addInputInternal_of_none hentry]
    exact addUnmatchedInput_outcome hentry
  | some entry =>
    unfold CharChunk.addInputInternal
    dsimp only
    rw [hentry]
    dsimp only
    split
    · exact .cut
    · next hlen =>
      split
      · next h =>
        simp only [Bool.and_eq_true] at h
        exact .cleared rfl hentry h.2
      · split
        · exact .matched rfl hentry (Nat.not_lt.mp hlen)
        · next h =>
          rw [Bool.or_eq_true, not_or] at h
          exact .again rfl hentry (Nat.not_lt.mp hlen)
            fun hnil => h.1 (List.isEmpty_iff.mpr hnil)

/-! ## Nothing is lost -/

/-- A special key is taken out nowhere in the text. -/
def NoSpecialKey (text : Bytes) : Prop := ∀ part, part <:+: text → trimLeadingSpecialKey part = part

theorem NoSpecialKey.of_infix {text part : Bytes} (h : NoSpecialKey text) (hpart : part <:+: text) :
    NoSpecialKey part := fun _ hin => h _ (hin.trans hpart)

/-- The attributes of the chunk, also those that it goes back to, do not drop its raw text. -/
structure KeepsRaw (c : CharChunk) : Prop where
  table : c.table.table.AllAttributes fun attributes => attributes.noTransliteration = false
  attributes : c.attributes.noTransliteration = false
  fallback : c.displayAmbiguousResultAttributes.noTransliteration = false

theorem takeEntry_attributes (c : CharChunk) (input : Bytes) (found : PrefixMatch) (entry : Entry) :
    (c.takeEntry input found entry).attributes = c.attributes ∨
      (c.takeEntry input found entry).attributes = entry.attributes := by
  unfold CharChunk.takeEntry
  dsimp only
  split_ifs <;> first | exact Or.inl rfl | exact Or.inr rfl

/-- The result of the entry is displayed, and the chunk remembers itself with it. -/
structure Displays (c : CharChunk) (input : Bytes) (entry : Entry) (c' : CharChunk) : Prop where
  isShown : entry.attributes.displayAmbiguousResult = true
  displayed : c'.displayAmbiguousAsResult = true
  conversion : c'.conversion = c.conversion
  ambiguous : c'.ambiguous = entry.result
  pending : c'.pending = c.pending ++ input
  savedRaw : c'.displayAmbiguousResultRaw = c'.raw
  savedConversion : c'.displayAmbiguousResultConversion = c'.conversion
  savedAmbiguous : c'.displayAmbiguousResultAmbiguous = c'.ambiguous
  savedAttributes : c'.displayAmbiguousResultAttributes = c'.attributes

/-- The result that is gone back to is the one that is displayed, if there is one. -/
theorem takeEntry_fallback (c : CharChunk) (input : Bytes) (found : PrefixMatch) (entry : Entry) :
    (c.takeEntry input found entry).displayAmbiguousResultRaw = [] ∧
        (c.takeEntry input found entry).displayAmbiguousResultAttributes = {} ∨
      Displays c input entry (c.takeEntry input found entry) ∧ found.fixed = false ∧
        (c.pending ++ input).length ≤ found.keyLength := by
  unfold CharChunk.takeEntry
  dsimp only
  split
  · exact Or.inl ⟨rfl, rfl⟩
  · next hopen =>
    simp only [Bool.or_eq_true, decide_eq_true_eq, not_or, Bool.not_eq_true, Nat.not_lt] at hopen
    split
    · next hdisplay =>
      have hconversion : (if (c.conversion.isEmpty &&
            (c.raw.isEmpty || c.pending.isEmpty || decide (c.raw = c.pending))) = true then
          { c with attributes := entry.attributes } else c).conversion = c.conversion := by
        split <;> rfl
      exact Or.inr ⟨⟨hdisplay, hdisplay, hconversion, rfl, rfl, rfl, rfl, rfl, rfl⟩, hopen⟩
    · exact Or.inl ⟨rfl, rfl⟩

/-- The chunk and what is left of the input after a step. -/
def IsNext (o : (CharChunk × Bytes) ⊕ Option (CharChunk × Bytes)) (s : CharChunk × Bytes) : Prop :=
  o = .inl s ∨ o = .inr (some s)

theorem IsNext.of_inl {t : CharChunk × Bytes} (h : IsNext (.inl t) s) : s = t := by
  rcases h with h | h
  · exact (Sum.inl.inj h).symm
  · cases h

theorem IsNext.of_inr {t : CharChunk × Bytes} (h : IsNext (.inr (some t)) s) : s = t := by
  rcases h with h | h
  · cases h
  · exact (Option.some.inj (Sum.inr.inj h)).symm

theorem frontChar_append (input : Bytes) :
    (CharChunk.frontChar input).1 ++ (CharChunk.frontChar input).2 = input := by
  cases input with
  | nil => rfl
  | cons c rest => exact List.take_append_drop _ _

theorem restore_raw_append (input : Bytes) (h : c.hasDisplayAmbiguousResultFallback = true) :
    (c.restoreDisplayAmbiguousResultFallback input).1.raw
      ++ (c.restoreDisplayAmbiguousResultFallback input).2 = c.raw ++ input := by
  unfold CharChunk.hasDisplayAmbiguousResultFallback at h
  rw [Bool.and_eq_true] at h
  have hbegins := List.prefix_iff_eq_append.mp (List.isPrefixOf_iff_prefix.mp h.2)
  calc c.displayAmbiguousResultRaw
      ++ (c.raw.drop c.displayAmbiguousResultRaw.length ++ input)
      = (c.displayAmbiguousResultRaw ++ c.raw.drop c.displayAmbiguousResultRaw.length) ++
        input := by
        simp
    _ = c.raw ++ input := by rw [hbegins]

theorem takeEntry_keepsRaw {found : PrefixMatch} {entry : Entry} (h : KeepsRaw c)
    (hfound : found = c.table.table.lookUpPrefix (c.pending ++ input))
    (hentry : found.entry = some entry) : KeepsRaw (c.takeEntry input found entry) := by
  have hattributes : (c.takeEntry input found entry).attributes.noTransliteration = false := by
    rcases takeEntry_attributes c input found entry with heq | heq
    · rw [heq, h.attributes]
    · rw [heq]
      exact h.table.lookUpPrefix (hfound ▸ hentry)
  refine ⟨by rw [takeEntry_table]; exact h.table, hattributes, ?_⟩
  rcases takeEntry_fallback c input found entry with ⟨-, heq⟩ | ⟨hdisplays, -⟩
  · rw [heq]
  · rw [hdisplays.savedAttributes, hattributes]

theorem takeEntry_append {found : PrefixMatch} (entry : Entry)
    (hfound : found = c.table.table.lookUpPrefix (c.pending ++ input)) :
    (c.takeEntry input found entry).raw ++ restBehind c input = c.raw ++ input := by
  simp [takeEntry_raw, restBehind, hfound]

/-- **A step takes the input into the raw text, or leaves it.** -/
theorem Outcome.raw_append (h : Outcome c input o) (hkeeps : KeepsRaw c)
    (htrim : trimLeadingSpecialKey input = input) (hs : IsNext o s) :
    s.1.raw ++ s.2 = c.raw ++ input ∧ KeepsRaw s.1 := by
  cases h with
  | restored hback =>
    rw [hs.of_inr]
    exact ⟨restore_raw_append input hback.fallback, hkeeps.table, hkeeps.fallback, rfl⟩
  | dropped _ hlt => exact absurd hlt (by rw [htrim]; exact Nat.lt_irrefl _)
  | front _ _ =>
    rw [hs.of_inr]
    refine ⟨?_, hkeeps.table, hkeeps.attributes, hkeeps.fallback⟩
    simp [frontChar_append]
  | kept _ _ =>
    rw [hs.of_inr]
    exact ⟨rfl, hkeeps⟩
  | extended m _ _ =>
    rw [hs.of_inr]
    refine ⟨?_, hkeeps.table, hkeeps.attributes, hkeeps.fallback⟩
    simp
  | cut => rcases hs with hs | hs <;> cases hs
  | cleared hfound hentry hclear =>
    simp [(takeEntry_keepsRaw hkeeps hfound hentry).attributes] at hclear
  | matched hfound hentry _ =>
    rw [hs.of_inr]
    exact ⟨takeEntry_append _ hfound, takeEntry_keepsRaw hkeeps hfound hentry⟩
  | again hfound hentry _ _ =>
    rw [hs.of_inl]
    exact ⟨takeEntry_append _ hfound, takeEntry_keepsRaw hkeeps hfound hentry⟩

theorem takeEntry_transliterator (c : CharChunk) (input : Bytes) (found : PrefixMatch)
    (entry : Entry) : (c.takeEntry input found entry).transliterator = c.transliterator := by
  unfold CharChunk.takeEntry
  dsimp only
  split_ifs <;> rfl

/-- A chunk stays with its table and its transliterator. -/
theorem Outcome.origin (h : Outcome c input o) (hs : IsNext o s) :
    s.1.table = c.table ∧ s.1.transliterator = c.transliterator := by
  cases h with
  | restored _ =>
    rw [hs.of_inr]
    exact ⟨rfl, rfl⟩
  | dropped _ _ =>
    rw [hs.of_inl]
    exact ⟨rfl, rfl⟩
  | front _ _ =>
    rw [hs.of_inr]
    exact ⟨rfl, rfl⟩
  | kept _ _ =>
    rw [hs.of_inr]
    exact ⟨rfl, rfl⟩
  | extended m _ _ =>
    rw [hs.of_inr]
    exact ⟨rfl, rfl⟩
  | cut => rcases hs with hs | hs <;> cases hs
  | cleared _ _ _ =>
    rw [hs.of_inr]
    exact ⟨takeEntry_table .., takeEntry_transliterator ..⟩
  | matched _ _ _ =>
    rw [hs.of_inr]
    exact ⟨takeEntry_table .., takeEntry_transliterator ..⟩
  | again _ _ _ _ =>
    rw [hs.of_inl]
    exact ⟨takeEntry_table .., takeEntry_transliterator ..⟩

/-! ## The remembered result -/

/-- The chunks remember the same displayed result. -/
structure SameSnapshot (c c' : CharChunk) : Prop where
  raw : c'.displayAmbiguousResultRaw = c.displayAmbiguousResultRaw
  conversion : c'.displayAmbiguousResultConversion = c.displayAmbiguousResultConversion
  ambiguous : c'.displayAmbiguousResultAmbiguous = c.displayAmbiguousResultAmbiguous
  attributes : c'.displayAmbiguousResultAttributes = c.displayAmbiguousResultAttributes

theorem SameSnapshot.refl (c : CharChunk) : SameSnapshot c c := ⟨rfl, rfl, rfl, rfl⟩

theorem SameSnapshot.trans {c' c'' : CharChunk} (h : SameSnapshot c c') (h' : SameSnapshot c' c'') :
    SameSnapshot c c'' :=
  ⟨h'.raw.trans h.raw, h'.conversion.trans h.conversion, h'.ambiguous.trans h.ambiguous,
    h'.attributes.trans h.attributes⟩

/-- A rule is found for the pending text with all of the input, and none is longer. -/
structure Completes (c : CharChunk) (input : Bytes) : Prop where
  entry : (c.table.table.lookUpPrefix (c.pending ++ input)).entry ≠ none
  whole : (c.table.table.lookUpPrefix (c.pending ++ input)).keyLength = (c.pending ++ input).length
  fixed : (c.table.table.lookUpPrefix (c.pending ++ input)).fixed = true

/-- What a chunk remembers after a step. -/
inductive Remembers (c : CharChunk) (input : Bytes) (s : CharChunk × Bytes) : Prop
  | nothing : s.1.displayAmbiguousResultRaw = [] → Remembers c input s
  | displayed {entry : Entry} : Displays c input entry s.1 → s.2 = [] → ¬Completes c input →
    Remembers c input s
  | same : SameSnapshot c s.1 → NoEntry c input → Remembers c input s

theorem takeEntry_remembers {found : PrefixMatch} (entry : Entry)
    (hfound : found = c.table.table.lookUpPrefix (c.pending ++ input)) :
    Remembers c input (c.takeEntry input found entry, restBehind c input) := by
  rcases takeEntry_fallback c input found entry with ⟨hraw, -⟩ | ⟨hdisplays, hopen, hlen⟩
  · exact .nothing hraw
  · refine .displayed hdisplays ?_ fun hwhole => ?_
    · show restBehind c input = []
      rw [List.length_append, hfound] at hlen
      simp [restBehind]
      omega
    · simp [hfound, hwhole.fixed] at hopen

theorem Outcome.remembers (h : Outcome c input o) (hkeeps : KeepsRaw c) (hs : IsNext o s) :
    Remembers c input s := by
  cases h with
  | restored _ =>
    rw [hs.of_inr]
    exact .nothing rfl
  | dropped hentry _ =>
    rw [hs.of_inl]
    exact .same (.refl c) hentry
  | front hentry _ =>
    rw [hs.of_inr]
    exact .same ⟨rfl, rfl, rfl, rfl⟩ hentry
  | kept hentry _ =>
    rw [hs.of_inr]
    exact .same (.refl c) hentry
  | extended m hentry _ =>
    rw [hs.of_inr]
    exact .same ⟨rfl, rfl, rfl, rfl⟩ hentry
  | cut => rcases hs with hs | hs <;> cases hs
  | cleared hfound hentry hclear =>
    simp [(takeEntry_keepsRaw hkeeps hfound hentry).attributes] at hclear
  | matched hfound _ _ =>
    rw [hs.of_inr]
    exact takeEntry_remembers _ hfound
  | again hfound _ _ _ =>
    rw [hs.of_inl]
    exact takeEntry_remembers _ hfound

end Mozkey.Composer
