import Mozkey.Composer.Composition
import Mozkey.Composer.TableLoading
import Mozkey.Infra.NestedLoops

/-!
# Whether typing ends

What is typed is handed from chunk to chunk. A chunk keeps its pending text and lets the input
alone, or takes a part of it, until the rules find nothing more.

* `returns_typeStep_iff` — a chunk and what is typed into it
-/

namespace Mozkey.Composer

open Infra Base

/-! ## Rules that end inside the pending text -/

/-- The pending text and the input are followed to a rule that ends inside the pending text, and no
rule goes on from there. -/
def Table.CutsPending (table : Table) (pending input : Bytes) : Prop :=
  let chars := char32s (table.normalize (pending ++ input))
  let key := chars.map (·.1)
  ∃ n, bytesOf chars n < pending.length ∧ (table.entries.lookUp (key.take n)).isSome ∧
    table.entries.hasSubTrie (key.take (n + 1)) = false

theorem lookUpPrefix_keyLength_le (table : Table) (key : Bytes) :
    (table.lookUpPrefix key).keyLength ≤ key.length := by
  have hle := (bytesOf_char32s _ (table.normalize key) (Nat.le_refl _)
    (table.entries.lookUpPrefix ((char32s (table.normalize key)).map (·.1))).length).1
  rw [Table.normalize_length] at hle
  exact hle

/-- **A rule that is shorter than the pending text is found if and only if it cuts it.** -/
theorem cutsPending_iff {table : Table} {pending input : Bytes} :
    table.CutsPending pending input ↔
      (table.lookUpPrefix (pending ++ input)).entry.isSome ∧
        (table.lookUpPrefix (pending ++ input)).keyLength < pending.length := by
  have hchars : ∀ n, bytesOf (char32s (table.normalize (pending ++ input))) n < pending.length →
      n < ((char32s (table.normalize (pending ++ input))).map (·.1)).length := by
    intro n hn
    have hlt := (bytesOf_char32s _ (table.normalize (pending ++ input)) (Nat.le_refl _) n).2
    rw [Table.normalize_length, List.length_append] at hlt
    rw [List.length_map]
    exact hlt (by omega)
  unfold Table.CutsPending Table.lookUpPrefix
  dsimp only
  constructor
  · rintro ⟨n, hn, hdata, hsub⟩
    have hlen := Trie.lookUpPrefix_length_of_lookUp _ _ n (hchars n hn) hdata hsub
    rw [← Trie.lookUp_take_lookUpPrefix, hlen]
    exact ⟨hdata, hn⟩
  · rintro ⟨hdata, hn⟩
    refine ⟨_, hn, ?_, Trie.hasSubTrie_take_lookUpPrefix _ _ (hchars _ hn)⟩
    rw [Trie.lookUp_take_lookUpPrefix]
    exact hdata

/-! ## Pending texts that come back -/

/-- A special key in front of the input is dropped. -/
def Table.dropsSpecialKey (table : Table) (pending input : Bytes) : Bool :=
  let keyLength := (table.lookUpPrefix (pending ++ input)).keyLength
  let next := table.lookUpPrefix input
  (trimLeadingSpecialKey input).length < input.length &&
    (keyLength = 0 || keyLength = pending.length && next.entry.isNone && next.keyLength = 0)

/-- The pending text in front of the same input after a step that takes none of it. A rule as long
as the pending text is replaced. When no rule is found and nothing more belongs to the pending text,
a new chunk begins. -/
def Table.idle (table : Table) (input pending : Bytes) : Option Bytes :=
  let found := table.lookUpPrefix (pending ++ input)
  if input.isEmpty then none
  else
    match found.entry with
    | some entry => if found.keyLength = pending.length then some entry.pending else none
    | none =>
      if pending.isEmpty || pending.length < found.keyLength ||
          table.dropsSpecialKey pending input then none
      else some []

def Table.Idles (table : Table) (input pending pending' : Bytes) : Prop :=
  table.idle input pending = some pending'

/-- The same for a pending text with the input behind it. -/
def Table.IdlesBefore (table : Table) (v w : Bytes × Bytes) : Prop :=
  v.2 = w.2 ∧ table.Idles v.2 v.1 w.1

def Table.ComesBack (table : Table) (input pending : Bytes) : Prop :=
  Relation.TransGen (table.Idles input) pending pending

/-! ## One loop for what is typed -/

namespace Composition

/-- What the chunk does not take goes into a new one. -/
def nextChunk (comp : Composition) :
    Option (CharChunk × Bytes) → (CharChunk × Bytes) ⊕ Option CharChunk
  | none => .inr none
  | some (c, rest) => if rest.isEmpty then .inr (some c) else .inl (comp.newChunk, rest)

/-- The steps of all chunks one after another. -/
def typeStep (comp : Composition) : CharChunk × Bytes → (CharChunk × Bytes) ⊕ Option CharChunk :=
  flatten CharChunk.addInputInternal comp.nextChunk

/-- The chunk and the input of the first step. There is none when the input has its conversion. -/
def typingStart (forms : CharacterForms) (comp : Composition) (pos : Nat)
    (input : CompositionInput) : Option (CharChunk × Bytes) :=
  if input.isEmpty || !input.conversion.isEmpty then none
  else
    let start := (comp.insertionAt forms pos input).1
    if start.chunk.shouldInsertNewChunk input then some (comp.newChunk, input.raw)
    else some (start.chunk, input.raw)

inductive Keystroke where
  | setInputMode (t12r : Transliterator)
  | insertInput (pos : Nat) (input : CompositionInput)

def press (forms : CharacterForms) (fuel : Nat) (comp : Composition) :
    Keystroke → Except Failure Composition
  | .setInputMode t12r => .ok (comp.setInputMode t12r)
  | .insertInput pos input => (comp.insertInput forms fuel pos input).map (·.1)

def pressAll (forms : CharacterForms) (fuel : Nat) :
    Composition → List Keystroke → Except Failure Composition
  | comp, [] => .ok comp
  | comp, key :: keys =>
    match comp.press forms fuel key with
    | .error failure => .error failure
    | .ok comp => pressAll forms fuel comp keys

/-- The steps of `AddInputInternal` when the keys are pressed one after another. -/
inductive Steps (forms : CharacterForms) :
    Composition → List Keystroke → CharChunk × Bytes → Prop where
  | here {comp : Composition} {pos : Nat} {input : CompositionInput} {keys : List Keystroke}
    {start s : CharChunk × Bytes} : comp.typingStart forms pos input = some start →
    Reaches comp.typeStep start s → Steps forms comp (.insertInput pos input :: keys) s
  | later {comp comp' : Composition} {key : Keystroke} {keys : List Keystroke} {fuel : Nat}
    {s : CharChunk × Bytes} : comp.press forms fuel key = .ok comp' → Steps forms comp' keys s →
    Steps forms comp (key :: keys) s

end Composition

/-! ## What a step does -/

theorem takeEntry_raw (c : CharChunk) (input : Bytes) (found : PrefixMatch) (entry : Entry) :
    (c.takeEntry input found entry).raw
      = c.raw ++ input.take (found.keyLength - c.pending.length) := by
  unfold CharChunk.takeEntry
  dsimp only
  split_ifs <;> rfl

theorem takeEntry_table (c : CharChunk) (input : Bytes) (found : PrefixMatch) (entry : Entry) :
    (c.takeEntry input found entry).table = c.table := by
  unfold CharChunk.takeEntry
  dsimp only
  split_ifs <;> rfl

/-- The input goes on behind the rule. -/
theorem takeEntry_of_lt {c : CharChunk} {input : Bytes} {found : PrefixMatch} (entry : Entry)
    (h : found.keyLength < (c.pending ++ input).length) :
    (c.takeEntry input found entry).pending = entry.pending ∧
      (c.takeEntry input found entry).hasDisplayAmbiguousResultFallback = false := by
  unfold CharChunk.takeEntry
  dsimp only
  rw [if_pos (by rw [decide_eq_true h, Bool.or_true])]
  split_ifs <;> exact ⟨rfl, rfl⟩

/-- The bytes of a chunk and of the input that are left, and those of the input alone. -/
def typingMeasure (s : CharChunk × Bytes) : Nat × Nat := (s.1.raw.length + s.2.length, s.2.length)

/-- A step that takes nothing: the pending text is replaced in front of the same input. -/
structure IdleStep (s t : CharChunk × Bytes) : Prop where
  input : t.2 = s.2
  measure : typingMeasure t = typingMeasure s
  idles : s.1.table.table.Idles s.2 s.1.pending t.1.pending
  noFallback : t.1.hasDisplayAmbiguousResultFallback = false

/-- A step takes something, drops something, or only replaces the pending text. -/
def StepsOn (s t : CharChunk × Bytes) : Prop :=
  Prod.Lex (· < ·) (· < ·) (typingMeasure t) (typingMeasure s) ∨ IdleStep s t

namespace Composition

variable {comp : Composition}

variable {c : CharChunk} {t s : CharChunk × Bytes} {input : Bytes} {table : Table} {entry : Entry}

theorem nextChunk_of_ne_nil {rest : Bytes} (h : rest ≠ []) :
    comp.nextChunk (some (c, rest)) = .inl (comp.newChunk, rest) := by
  rw [nextChunk, if_neg (by simpa using h)]

theorem nextChunk_inl {r : Option (CharChunk × Bytes)}
    (h : Sum.elim .inl comp.nextChunk (.inr r) = .inl t) :
    ∃ c rest, r = some (c, rest) ∧ t = (comp.newChunk, rest) ∧ rest ≠ [] := by
  cases r with
  | none => cases h
  | some added =>
    obtain ⟨c, rest⟩ := added
    by_cases hrest : rest = []
    · rw [hrest] at h
      cases h
    · have h : comp.nextChunk (some (c, rest)) = .inl t := h
      rw [nextChunk_of_ne_nil hrest] at h
      exact ⟨c, rest, rfl, (Sum.inl.inj h).symm, hrest⟩

/-- A new chunk begins before what is left. -/
theorem newChunk_measure (rest : Bytes) :
    typingMeasure (comp.newChunk, rest) = (rest.length, rest.length) := by
  simp [typingMeasure, newChunk]

/-- Nothing of the input is taken, and the chunk is left as it is. -/
theorem stepsOn_newChunk (h : c.raw = [] → c.table.table.Idles input c.pending []) :
    StepsOn (c, input) (comp.newChunk, input) := by
  by_cases hraw : c.raw = []
  · refine Or.inr ⟨rfl, ?_, h hraw, rfl⟩
    rw [newChunk_measure, typingMeasure, hraw, List.length_nil, Nat.zero_add]
  · have hpos := List.length_pos_iff.mpr hraw
    refine Or.inl ?_
    rw [newChunk_measure, typingMeasure]
    exact .left _ _ (by dsimp only; omega)

/-- What is left is shorter than what was there. -/
theorem stepsOn_newChunk_of_lt {rest : Bytes} (h : rest.length < c.raw.length + input.length) :
    StepsOn (c, input) (comp.newChunk, rest) := by
  refine Or.inl ?_
  rw [newChunk_measure, typingMeasure]
  exact .left _ _ h

theorem frontChar_rest_lt (h : (CharChunk.frontChar input).2 ≠ []) :
    (CharChunk.frontChar input).2.length < input.length := by
  cases input with
  | nil => exact absurd rfl h
  | cons c rest =>
    have hpos := (oneCharLen_le c).1
    show ((c :: rest).drop (oneCharLen c)).length < _
    simp
    omega

theorem restore_length (input : Bytes) (h : c.hasDisplayAmbiguousResultFallback = true) :
    (c.restoreDisplayAmbiguousResultFallback input).2 ≠ [] ∧
      (c.restoreDisplayAmbiguousResultFallback input).2.length < c.raw.length + input.length := by
  unfold CharChunk.hasDisplayAmbiguousResultFallback at h
  rw [Bool.and_eq_true, Bool.and_eq_true, Bool.not_eq_true', List.isEmpty_eq_false_iff,
    decide_eq_true_eq] at h
  have hpos := List.length_pos_iff.mpr h.1.1
  have hlen : (c.restoreDisplayAmbiguousResultFallback input).2.length
      = c.raw.length - c.displayAmbiguousResultRaw.length + input.length := by
    simp [CharChunk.restoreDisplayAmbiguousResultFallback]
  refine ⟨?_, by omega⟩
  rw [← List.length_pos_iff, hlen]
  omega

theorem idles_of_entry {pending : Bytes} (hne : input ≠ [])
    (hentry : (table.lookUpPrefix (pending ++ input)).entry = some entry)
    (hlen : (table.lookUpPrefix (pending ++ input)).keyLength = pending.length) :
    table.Idles input pending entry.pending := by
  unfold Table.Idles Table.idle
  dsimp only
  rw [if_neg (by simpa using hne), hentry]
  exact if_pos hlen

theorem idles_of_none {pending : Bytes} (hne : input ≠ []) (hpending : pending ≠ [])
    (hentry : (table.lookUpPrefix (pending ++ input)).entry = none)
    (hlen : (table.lookUpPrefix (pending ++ input)).keyLength ≤ pending.length)
    (hdrops : table.dropsSpecialKey pending input = false) : table.Idles input pending [] := by
  unfold Table.Idles Table.idle
  dsimp only
  rw [if_neg (by simpa using hne), hentry, if_neg]
  rw [hdrops, Bool.or_false, Bool.or_eq_true, List.isEmpty_iff, decide_eq_true_eq]
  rintro (hnil | hlt)
  · exact hpending hnil
  · omega

/-- What a chunk does when no rule is found. -/
inductive Unmatched (c : CharChunk) (input : Bytes) :
    (CharChunk × Bytes) ⊕ Option (CharChunk × Bytes) → Prop where
  | restored : c.hasDisplayAmbiguousResultFallback = true →
    Unmatched c input (.inr (some (c.restoreDisplayAmbiguousResultFallback input)))
  | dropped : (trimLeadingSpecialKey input).length < input.length →
    c.table.table.dropsSpecialKey c.pending input = true →
    Unmatched c input (.inl (c, trimLeadingSpecialKey input))
  | front {c' : CharChunk} : c.pending = [] →
    Unmatched c input (.inr (some (c', (CharChunk.frontChar input).2)))
  | left : c.pending ≠ [] →
    (c.table.table.lookUpPrefix (c.pending ++ input)).keyLength ≤ c.pending.length →
    c.table.table.dropsSpecialKey c.pending input = false →
    Unmatched c input (.inr (some (c, input)))
  | extended {c' : CharChunk} {m : Nat} : 0 < m →
    c.pending.length < (c.table.table.lookUpPrefix (c.pending ++ input)).keyLength →
    Unmatched c input (.inr (some (c', input.drop m)))

theorem addUnmatchedInput_unmatched (c : CharChunk) (input : Bytes) :
    Unmatched c input (c.addUnmatchedInput input
      (c.table.table.lookUpPrefix (c.pending ++ input)).keyLength) := by
  generalize hlen : (c.table.table.lookUpPrefix (c.pending ++ input)).keyLength = keyLength
  have hdrops : c.table.table.dropsSpecialKey c.pending input =
      ((trimLeadingSpecialKey input).length < input.length &&
        (keyLength = 0 || keyLength = c.pending.length &&
          (c.table.table.lookUpPrefix input).entry.isNone &&
          (c.table.table.lookUpPrefix input).keyLength = 0)) := by
    unfold Table.dropsSpecialKey
    dsimp only
    rw [hlen]
  unfold CharChunk.addUnmatchedInput
  dsimp only
  split
  · next h =>
    rw [Bool.and_eq_true] at h
    exact .restored h.2
  · split
    · next hzero =>
      split
      · next htrim => exact .dropped htrim (by rw [hdrops]; simp [htrim, hzero])
      · next htrim =>
        split
        · next hp => exact .front (List.isEmpty_iff.mp hp)
        · next hp => exact .left (by simpa using hp) (by omega) (by rw [hdrops]; simp [htrim])
    · next hzero =>
      split
      · next heq =>
        have hp : c.pending ≠ [] := by
          rintro hp
          rw [hp, List.length_nil] at heq
          exact hzero heq
        split
        · next h =>
          rw [Bool.and_eq_true, Bool.and_eq_true, decide_eq_true_eq] at h
          exact .dropped (of_decide_eq_true h.2) (by rw [hdrops]; simp [h, heq])
        · next h =>
          have hno : c.table.table.dropsSpecialKey c.pending input = false := by
            rw [hdrops, decide_eq_false hzero, decide_eq_true heq, Bool.false_or, Bool.true_and,
              Bool.and_comm]
            simpa using h
          exact .left hp (by omega) hno
      · next hne =>
        split
        · next hlt =>
          have hno : c.table.table.dropsSpecialKey c.pending input = false := by
            simp [hdrops, decide_eq_false hzero, decide_eq_false hne]
          refine .left ?_ (by omega) hno
          rintro hp
          rw [hp, List.length_nil] at hlt
          omega
        · next hlt => exact .extended (by omega) (by omega)

theorem addInputInternal_of_none
    (hentry : (c.table.table.lookUpPrefix (c.pending ++ input)).entry = none) :
    CharChunk.addInputInternal (c, input) = c.addUnmatchedInput input
      (c.table.table.lookUpPrefix (c.pending ++ input)).keyLength := by
  unfold CharChunk.addInputInternal
  dsimp only
  rw [hentry]

/-- What a chunk does with a rule that is not shorter than the pending text. -/
theorem addInputInternal_of_some {m : Nat}
    (hentry : (c.table.table.lookUpPrefix (c.pending ++ input)).entry = some entry)
    (hlen : (c.table.table.lookUpPrefix (c.pending ++ input)).keyLength = c.pending.length + m)
    (hrest : input.drop m ≠ []) :
    ∃ c' : CharChunk, c'.table = c.table ∧ c'.raw = c.raw ++ input.take m ∧
      c'.pending = entry.pending ∧ c'.hasDisplayAmbiguousResultFallback = false ∧
      CharChunk.addInputInternal (c, input) =
        if c'.pending.isEmpty then .inr (some (c', input.drop m)) else .inl (c', input.drop m) := by
  have hpos := List.length_pos_iff.mpr hrest
  rw [List.length_drop] at hpos
  have htaken := @takeEntry_of_lt c input _ entry (by
    rw [hlen, List.length_append]
    omega)
  refine ⟨c.takeEntry input (c.table.table.lookUpPrefix (c.pending ++ input)) entry,
    takeEntry_table .., ?_, htaken.1, htaken.2, ?_⟩
  · simp [takeEntry_raw, hlen]
  · unfold CharChunk.addInputInternal
    dsimp only
    rw [hentry]
    dsimp only
    simp [hlen, List.isEmpty_eq_false_iff.mpr hrest]

/-- Nothing is left to be typed. -/
theorem addInputInternal_of_all {m : Nat}
    (hentry : (c.table.table.lookUpPrefix (c.pending ++ input)).entry = some entry)
    (hlen : (c.table.table.lookUpPrefix (c.pending ++ input)).keyLength = c.pending.length + m)
    (hrest : input.drop m = []) :
    ∃ c' : CharChunk, CharChunk.addInputInternal (c, input) = .inr (some (c', [])) := by
  unfold CharChunk.addInputInternal
  dsimp only
  rw [hentry]
  dsimp only
  rw [if_neg (by omega), hlen, Nat.add_sub_cancel_left, hrest]
  split
  · exact ⟨_, rfl⟩
  · exact ⟨_, rfl⟩

theorem addInputInternal_of_cut (h : c.table.table.CutsPending c.pending input) :
    CharChunk.addInputInternal (c, input) = .inr none := by
  obtain ⟨hsome, hlen⟩ := cutsPending_iff.mp h
  obtain ⟨entry, hentry⟩ := Option.isSome_iff_exists.mp hsome
  unfold CharChunk.addInputInternal
  dsimp only
  rw [hentry]
  exact if_pos hlen

/-- A step in which no rule is found. -/
theorem stepsOn_of_unmatched {outcome : (CharChunk × Bytes) ⊕ Option (CharChunk × Bytes)}
    (hentry : (c.table.table.lookUpPrefix (c.pending ++ input)).entry = none)
    (h : Unmatched c input outcome) (ht : outcome.elim .inl comp.nextChunk = .inl t) :
    StepsOn (c, input) t := by
  cases h with
  | restored hfallback =>
    obtain ⟨hne, hlt⟩ := restore_length input hfallback
    obtain ⟨c', rest, hc', rfl, -⟩ := nextChunk_inl ht
    rw [Option.some.inj hc'] at hlt
    exact stepsOn_newChunk_of_lt hlt
  | dropped hlt _ =>
    rw [← Sum.inl.inj ht]
    exact Or.inl (.left _ _ (by dsimp only [typingMeasure]; omega))
  | front _ =>
    obtain ⟨c', rest, hc', rfl, hne⟩ := nextChunk_inl ht
    rw [← (Prod.mk.inj (Option.some.inj hc')).2] at hne ⊢
    have hlt := frontChar_rest_lt hne
    exact stepsOn_newChunk_of_lt (by omega)
  | left hp hlen hdrops =>
    obtain ⟨c', rest, hc', rfl, hne⟩ := nextChunk_inl ht
    rw [← (Prod.mk.inj (Option.some.inj hc')).2] at hne ⊢
    exact stepsOn_newChunk fun _ => idles_of_none hne hp hentry hlen hdrops
  | @extended _ m hm _ =>
    obtain ⟨c', rest, hc', rfl, hne⟩ := nextChunk_inl ht
    rw [← (Prod.mk.inj (Option.some.inj hc')).2] at hne ⊢
    have hpos := List.length_pos_iff.mpr hne
    rw [List.length_drop] at hpos
    exact stepsOn_newChunk_of_lt (by rw [List.length_drop]; omega)

/-- A step in which a rule is found. -/
theorem stepsOn_of_some
    (hentry : (c.table.table.lookUpPrefix (c.pending ++ input)).entry = some entry)
    (ht : comp.typeStep (c, input) = .inl t) : StepsOn (c, input) t := by
  have ht : Sum.elim .inl comp.nextChunk (CharChunk.addInputInternal (c, input)) = .inl t := ht
  by_cases hcut : (c.table.table.lookUpPrefix (c.pending ++ input)).keyLength < c.pending.length
  · rw [addInputInternal_of_cut (cutsPending_iff.mpr ⟨by simp [hentry], hcut⟩)] at ht
    cases ht
  · obtain ⟨m, hm⟩ := Nat.exists_eq_add_of_le (Nat.le_of_not_lt hcut)
    by_cases hrest : input.drop m = []
    · obtain ⟨c', hc'⟩ := addInputInternal_of_all hentry hm hrest
      rw [hc'] at ht
      cases ht
    · obtain ⟨c', -, hraw, hpending, hfallback, hc'⟩ := addInputInternal_of_some hentry hm hrest
      rw [hc'] at ht
      have hpos := List.length_pos_iff.mpr hrest
      rw [List.length_drop] at hpos
      have hidles : m = 0 → c.table.table.Idles input c.pending entry.pending := by
        intro hzero
        refine idles_of_entry ?_ hentry (by omega)
        rintro rfl
        rw [List.drop_nil] at hrest
        exact hrest rfl
      split at ht
      · next hempty =>
        obtain ⟨c'', rest, hc'', rfl, -⟩ := nextChunk_inl ht
        rw [← (Prod.mk.inj (Option.some.inj hc'')).2]
        rw [List.isEmpty_iff] at hempty
        by_cases hzero : m = 0
        · subst hzero
          rw [List.drop_zero]
          refine stepsOn_newChunk fun _ => ?_
          rw [← hempty, hpending]
          exact hidles rfl
        · exact stepsOn_newChunk_of_lt (by rw [List.length_drop]; omega)
      · rw [← Sum.inl.inj ht]
        have hsize : (c.raw ++ input.take m).length + (input.drop m).length
            = c.raw.length + input.length := by
          simp
          omega
        by_cases hzero : m = 0
        · refine Or.inr ⟨?_, ?_, ?_, hfallback⟩
          · simp [hzero]
          · simp [typingMeasure, hraw, hzero]
          · simpa [hpending] using hidles hzero
        · refine Or.inl ?_
          rw [typingMeasure, typingMeasure, hraw, hsize]
          exact .right _ (show (input.drop m).length < input.length by rw [List.length_drop]; omega)

theorem typeStep_stepsOn (h : comp.typeStep s = .inl t) :
    StepsOn s t := by
  obtain ⟨c, input⟩ := s
  cases hentry : (c.table.table.lookUpPrefix (c.pending ++ input)).entry with
  | some entry => exact stepsOn_of_some hentry h
  | none =>
    refine @stepsOn_of_unmatched comp _ _ _ _ hentry (addUnmatchedInput_unmatched c input) ?_
    rw [← addInputInternal_of_none hentry]
    exact h

/-- Without a result to go back to, a pending text that idles leads to the next one. -/
theorem typeStep_of_idles {pending : Bytes} (htable : c.table = comp.table)
    (hfallback : c.hasDisplayAmbiguousResultFallback = false)
    (h : c.table.table.Idles input c.pending pending) :
    ∃ c' : CharChunk, comp.typeStep (c, input) = .inl (c', input) ∧ c'.pending = pending ∧
      c'.table = comp.table ∧ c'.hasDisplayAmbiguousResultFallback = false := by
  unfold Table.Idles Table.idle at h
  dsimp only at h
  split at h
  · cases h
  · next hne =>
    rw [List.isEmpty_iff] at hne
    split at h
    · next entry hentry =>
      split at h
      · next hlen =>
        obtain ⟨c', htable', -, hpending, hfallback', hc'⟩ :=
          addInputInternal_of_some (m := 0) hentry hlen hne
        rw [List.drop_zero] at hc'
        rw [← Option.some.inj h, ← hpending]
        by_cases hempty : c'.pending.isEmpty
        · rw [if_pos hempty] at hc'
          refine ⟨comp.newChunk, ?_, (List.isEmpty_iff.mp hempty).symm, rfl, rfl⟩
          rw [typeStep, flatten_of_inr hc', nextChunk_of_ne_nil hne]
        · rw [if_neg hempty] at hc'
          exact ⟨c', flatten_of_inl hc', rfl, htable'.trans htable, hfallback'⟩
      · cases h
    · next hentry =>
      split at h
      · cases h
      · next hleft =>
        refine ⟨comp.newChunk, ?_, Option.some.inj h, rfl, rfl⟩
        rw [Bool.or_eq_true, Bool.or_eq_true, List.isEmpty_iff, decide_eq_true_eq, not_or,
          not_or, Bool.not_eq_true] at hleft
        obtain ⟨⟨hpending, hlen⟩, hdrops⟩ := hleft
        have hcases := addUnmatchedInput_unmatched c input
        rw [← addInputInternal_of_none hentry] at hcases
        generalize hout : CharChunk.addInputInternal (c, input) = outcome at hcases
        cases hcases with
        | restored hfallback' =>
          simp [hfallback] at hfallback'
        | dropped _ hdrops' =>
          simp [hdrops] at hdrops'
        | front hpending' => exact absurd hpending' hpending
        | left _ _ _ => rw [typeStep, flatten_of_inr hout, nextChunk_of_ne_nil hne]
        | extended _ hlen' => exact absurd hlen' hlen

theorem addInputInternal_table (h : CharChunk.addInputInternal s = .inl t) :
    t.1.table = s.1.table := by
  obtain ⟨c, input⟩ := s
  cases hentry : (c.table.table.lookUpPrefix (c.pending ++ input)).entry with
  | none =>
    have hcases := addUnmatchedInput_unmatched c input
    rw [← addInputInternal_of_none hentry, h] at hcases
    cases hcases with
    | dropped _ _ => rfl
  | some entry =>
    unfold CharChunk.addInputInternal at h
    dsimp only at h
    rw [hentry] at h
    dsimp only at h
    split_ifs at h
    rw [← Sum.inl.inj h]
    exact takeEntry_table ..

theorem typeStep_table (htable : s.1.table = comp.table) (h : comp.typeStep s = .inl t) :
    t.1.table = comp.table := by
  cases hs : CharChunk.addInputInternal s with
  | inl u =>
    rw [typeStep, flatten_of_inl hs, Sum.inl.injEq] at h
    rw [← h, addInputInternal_table hs, htable]
  | inr r =>
    have h : Sum.elim .inl comp.nextChunk (CharChunk.addInputInternal s) = .inl t := h
    rw [hs] at h
    obtain ⟨c, rest, -, rfl, -⟩ := nextChunk_inl h
    rfl

/-- Only a rule that cuts the pending text makes a step fail. -/
theorem cutsPending_of_typeStep (h : comp.typeStep s = .inr none) :
    s.1.table.table.CutsPending s.1.pending s.2 := by
  obtain ⟨c, input⟩ := s
  have hfail : CharChunk.addInputInternal (c, input) = .inr none := by
    cases hs : CharChunk.addInputInternal (c, input) with
    | inl u =>
      simp [typeStep, flatten_of_inl hs] at h
    | inr r =>
      rw [typeStep, flatten_of_inr hs] at h
      cases r with
      | none => rfl
      | some added =>
        unfold nextChunk at h
        split at h
        · next heq => cases heq
        · split at h <;> cases h
  show c.table.table.CutsPending c.pending input
  cases hentry : (c.table.table.lookUpPrefix (c.pending ++ input)).entry with
  | none =>
    have hcases := addUnmatchedInput_unmatched c input
    rw [← addInputInternal_of_none hentry, hfail] at hcases
    cases hcases
  | some entry =>
    by_contra hcut
    have hle : c.pending.length ≤ (c.table.table.lookUpPrefix (c.pending ++ input)).keyLength := by
      by_contra hlt
      exact hcut (cutsPending_iff.mpr ⟨by rw [hentry]; rfl, by omega⟩)
    obtain ⟨m, hm⟩ := Nat.exists_eq_add_of_le hle
    by_cases hrest : input.drop m = []
    · obtain ⟨c', hc'⟩ := addInputInternal_of_all hentry hm hrest
      simp [hc'] at hfail
    · obtain ⟨c', -, -, -, -, hc'⟩ := addInputInternal_of_some hentry hm hrest
      rw [hc'] at hfail
      split at hfail <;> cases hfail

/-! ## Whether the steps end -/

/-- No rule cuts the pending text, and the pending text does not come back. -/
structure GoesOn (s : CharChunk × Bytes) : Prop where
  whole : ¬s.1.table.table.CutsPending s.1.pending s.2
  moves : s.1.hasDisplayAmbiguousResultFallback = false →
    ¬s.1.table.table.ComesBack s.2 s.1.pending

theorem stepsOn_le (h : StepsOn s t) :
    (typingMeasure t).1 ≤ (typingMeasure s).1 := by
  rcases h with hlex | hidle
  · rcases Prod.lex_def.mp hlex with hlt | ⟨heq, -⟩
    · exact Nat.le_of_lt hlt
    · exact Nat.le_of_eq heq
  · rw [hidle.measure]

theorem idles_pending {bound : Nat} {pending pending' : Bytes}
    (hbound : ∀ key entry, (table.lookUpPrefix key).entry = some entry →
      entry.pending.length ≤ bound) (h : table.Idles input pending pending') :
    pending'.length ≤ bound := by
  unfold Table.Idles Table.idle at h
  dsimp only at h
  split at h
  · cases h
  · split at h
    · next entry hentry =>
      split at h
      · rw [← Option.some.inj h]
        exact hbound _ entry hentry
      · cases h
    · split at h
      · cases h
      · rw [← Option.some.inj h]
        exact Nat.zero_le bound

theorem comesBack_of_idlesBefore {v w : Bytes × Bytes}
    (h : Relation.TransGen table.IdlesBefore v w) :
    v.2 = w.2 ∧ Relation.TransGen (table.Idles v.2) v.1 w.1 := by
  induction h with
  | single h => exact ⟨h.1, .single h.2⟩
  | tail _ h ih =>
    obtain ⟨heq, hgen⟩ := ih
    have hidles := h.2
    rw [← heq] at hidles
    exact ⟨heq.trans h.1, hgen.tail hidles⟩

theorem terminates_of_goesOn {start : CharChunk × Bytes}
    (htables : ∀ s, Reaches comp.typeStep start s → s.1.table = comp.table)
    (hgo : ∀ s, Reaches comp.typeStep start s → GoesOn s) : Terminates comp.typeStep start := by
  have hfinite : Finite UInt8 :=
    Finite.of_injective UInt8.toFin fun _ _ h => UInt8.toFin_inj.mp h
  obtain ⟨bound, hbound⟩ := comp.table.table.exists_pending_bound
  have hsize : ∀ s, Reaches comp.typeStep start s →
      (typingMeasure s).1 ≤ (typingMeasure start).1 := by
    intro s hs
    refine hs.invariant (I := fun s => (typingMeasure s).1 ≤ (typingMeasure start).1) ?_
      (Nat.le_refl _)
    exact fun t u ht hu => (stepsOn_le (typeStep_stepsOn hu)).trans ht
  have hviews := (List.finite_length_le UInt8 bound).prod
    (List.finite_length_le UInt8 (typingMeasure start).1)
  refine @terminates_of_no_return _ _ _ _ _ _ (Nat.lt_wfRel.wf.prod_lex Nat.lt_wfRel.wf)
    typingMeasure (fun s => (s.1.pending, s.2)) comp.table.table.IdlesBefore _ hviews start ?_
  intro t u ht hu
  rcases typeStep_stepsOn hu with hlt | hidle
  · exact Or.inl hlt
  · have hu' := Reaches.tail ht hu
    have hidles := hidle.idles
    rw [htables t ht] at hidles
    refine Or.inr ⟨hidle.measure, ⟨hidle.input.symm, hidles⟩,
      ⟨idles_pending hbound hidles, ?_⟩, fun hback => ?_⟩
    · have hle := hsize u hu'
      rw [typingMeasure] at hle
      exact (Nat.le_add_left _ _).trans hle
    · refine (hgo u hu').moves hidle.noFallback ?_
      rw [htables u hu']
      exact (comesBack_of_idlesBefore hback).2

/-- **A chunk and what is typed into it: the steps end with all of it taken if and only if all of
them go on.** -/
theorem returns_typeStep_iff {start : CharChunk × Bytes} (htable : start.1.table = comp.table) :
    (∃ c, Returns comp.typeStep start (some c)) ↔
      ∀ s, Reaches comp.typeStep start s → GoesOn s := by
  have htables : ∀ s, Reaches comp.typeStep start s → s.1.table = comp.table :=
    fun s hs => hs.invariant (fun _ _ h => typeStep_table h) htable
  constructor
  · rintro ⟨c, hc⟩ s hs
    refine ⟨fun hcut => ?_, fun hfallback hback => ?_⟩
    · -- the step fails
      have hfail : comp.typeStep s = .inr none := by
        rw [typeStep, flatten_of_inr (addInputInternal_of_cut hcut), nextChunk]
      have heq := (hc.of_reaches hs).of_inr hfail
      cases heq
    · have hnot : ¬Terminates comp.typeStep s := by
        refine not_terminates_of_invariant (I := fun t => t.2 = s.2 ∧ t.1.table = comp.table ∧
          t.1.hasDisplayAmbiguousResultFallback = false ∧
          comp.table.table.ComesBack s.2 t.1.pending) ?_ ⟨rfl, htables s hs, hfallback, ?_⟩
        · rintro ⟨c, input⟩ ⟨hinput, htable, hfallback, hback⟩
          obtain ⟨pending, hidles, hrest⟩ := Relation.TransGen.head'_iff.mp hback
          rw [← htable, ← hinput] at hidles
          obtain ⟨c', hc', hpending, htable', hfallback'⟩ :=
            typeStep_of_idles htable hfallback hidles
          rw [htable, hinput] at hidles
          refine ⟨(c', input), hc', hinput, htable', hfallback', ?_⟩
          rw [hpending]
          exact .tail' hrest hidles
        · rwa [← htables s hs]
      exact hnot (terminates_iff.mpr ⟨_, hc.of_reaches hs⟩)
  · intro hgo
    obtain ⟨r, hr⟩ := terminates_iff.mp (terminates_of_goesOn htables hgo)
    cases r with
    | some c => exact ⟨c, hr⟩
    | none =>
      obtain ⟨s, hs, hfail⟩ := hr.invariant (I := Reaches comp.typeStep start)
        (fun s t hs ht => .tail hs ht) .refl
      exact absurd (cutsPending_of_typeStep hfail) (hgo s hs).whole

end Composition

end Mozkey.Composer
