import Mozkey.Composer.EndTyping

/-!
# Displayed results that are gone back to

A chunk may display the result of a rule while a longer rule is still possible. When that one does
not come about, the chunk goes back to the displayed result and the rest is typed again.

* `keystrokes_kept` — no keystroke is lost, and the displayed text comes back
-/

namespace Mozkey.Composer

open Infra Base

/-! ## Texts without special keys -/

theorem Bare.noSpecialKey {s : Bytes} (h : Bare s) : NoSpecialKey s := by
  intro part hpart
  have hbare := h.of_infix hpart
  unfold trimLeadingSpecialKey
  dsimp only
  split
  · next len hlen =>
    split at hlen
    · next char n hsplit =>
      split at hlen
      · next hspecial =>
        exact absurd (leadingByte_of_special (c := char) hsplit hspecial)
          (hbare.noSpecial [] part rfl)
      · cases hlen
    · cases hlen
  · split
    · rfl
    · next hopen =>
      split
      · rfl
      · next j hclose =>
        rw [Bool.not_eq_true', Bool.not_eq_false, List.isPrefixOf_iff_prefix] at hopen
        obtain ⟨rest, rfl⟩ := hopen
        obtain ⟨hj, -, r, hr⟩ := find_some hclose
        obtain ⟨k, rfl⟩ := Nat.exists_eq_add_of_le' hj
        have hmem : 0x0E ∈ rest := List.mem_of_mem_drop (i := k) (by
          rw [show rest.drop k = 0x0E :: r from hr.symm]
          exact List.mem_cons_self)
        exact absurd (List.Sublist.cons_cons _ (List.singleton_sublist.mpr hmem)) hbare.noBlock

theorem bare_of_not_mem {s : Bytes} (hopen : 0x0F ∉ s) (hlead : 0xEF ∉ s) : Bare s := by
  refine ⟨fun hblock => hopen (hblock.subset List.mem_cons_self), ?_⟩
  rintro a rest rfl ⟨b, b', more, rfl, -⟩
  exact hlead (by simp)

namespace Composition

/-- What is typed at the end of a composition, key by key. -/
inductive TypedAtEnd (forms : CharacterForms) (start : Composition) :
    List CompositionInput → Composition → Prop where
  | nil : TypedAtEnd forms start [] start
  | snoc {inputs : List CompositionInput} {comp comp' : Composition} {input : CompositionInput}
    {fuel pos : Nat} : TypedAtEnd forms start inputs comp → input.conversion = [] →
    comp.insertInput forms fuel (comp.getLength forms) input = .ok (comp', pos) →
    TypedAtEnd forms start (inputs ++ [input]) comp'

def typedText (inputs : List CompositionInput) : Bytes := inputs.flatMap (·.raw)

/-- The input makes the last chunk display the result of a rule. The chunk was `c₀` before. -/
structure DisplayedBy (forms : CharacterForms) (start : Composition)
    (before : List CompositionInput) (input : CompositionInput) (shown : Composition)
    (left : List CharChunk) (c₀ c₁ : CharChunk) : Prop where
  typed : TypedAtEnd forms start (before ++ [input]) shown
  chunks : shown.chunks = left ++ [c₁]
  matched : ∃ comp s r₀ entry, TypedAtEnd forms start before comp ∧
    (∃ fuel pos, comp.insertInput forms fuel (comp.getLength forms) input = .ok (shown, pos)) ∧
    comp.typingStart forms (comp.getLength forms) input = some s ∧
    Reaches comp.typeStep s (c₀, r₀) ∧
    CharChunk.addInputInternal (c₀, r₀) = .inr (some (c₁, [])) ∧ Displays c₀ r₀ entry c₁

/-- While the input is typed, the displayed result is gone back to. -/
def RollsBackIn (forms : CharacterForms) (comp : Composition) (input : CompositionInput) : Prop :=
  ∃ start s, comp.typingStart forms (comp.getLength forms) input = some start ∧
    Reaches comp.typeStep start s ∧ RollsBack s.1 s.2

/-- What was displayed after `before` and one more input is there again. -/
structure BackToShown (forms : CharacterForms) (start : Composition)
    (inputs : List CompositionInput) (comp' : Composition) : Prop where
  back : ∃ before input after shown left c₀ c₁ restored more,
    inputs = before ++ input :: after ∧
      DisplayedBy forms start before input shown left c₀ c₁ ∧
      comp'.chunks = left ++ restored :: more ∧
      restored.conversion = c₀.conversion ++ c₁.ambiguous ∧ restored.pending = [] ∧
      restored.raw = c₁.raw ∧
      (c₁.ambiguous ≠ [] → shown.getString forms <+: comp'.getString forms)

variable {comp : Composition} {forms : CharacterForms}

/-! ## What is remembered at the end -/

/-- What the last of the chunks remembers that `s` became. -/
inductive EndRemembers (comp : Composition) (s : CharChunk × Bytes) (front : List CharChunk)
    (c : CharChunk) : Prop
  | nothing : c.displayAmbiguousResultRaw = [] → EndRemembers comp s front c
  | displayed {c₀ : CharChunk} {r₀ : Bytes} {entry : Entry} : Reaches comp.typeStep s (c₀, r₀) →
    CharChunk.addInputInternal (c₀, r₀) = .inr (some (c, [])) → Displays c₀ r₀ entry c →
    EndRemembers comp s front c
  | same : front = [] → SameSnapshot s.1 c → NoEntry s.1 s.2 → EndRemembers comp s front c

/-- A step that goes on leaves nothing to go back to. -/
theorem snapshot_of_inl {s t : CharChunk × Bytes} (h : CharChunk.addInputInternal s = .inl t)
    (htrim : trimLeadingSpecialKey s.2 = s.2) : t.1.displayAmbiguousResultRaw = [] := by
  have houtcome := addInputInternal_outcome s.1 s.2
  rw [show CharChunk.addInputInternal (s.1, s.2) = .inl t from h] at houtcome
  cases houtcome with
  | dropped _ hlt => exact absurd hlt (by rw [htrim]; exact Nat.lt_irrefl _)
  | @again entry found hfound hentry _ hrest =>
    cases takeEntry_remembers entry hfound with
    | nothing hraw => exact hraw
    | displayed _ hnil _ => exact absurd hnil hrest
    | same _ hnone =>
      simp [NoEntry, ← hfound, hentry] at hnone

/-- A chunk before which a step remembers nothing. -/
theorem EndRemembers.of_nothing {s t : CharChunk × Bytes} {front front' : List CharChunk}
    {c : CharChunk} (h : EndRemembers comp t front c) (hstep : comp.typeStep s = .inl t)
    (hnothing : t.1.displayAmbiguousResultRaw = []) : EndRemembers comp s front' c := by
  cases h with
  | nothing hraw => exact .nothing hraw
  | displayed hreach hadd hdisplays => exact .displayed (.head hstep hreach) hadd hdisplays
  | same _ hsame _ => exact .nothing (hsame.raw.trans hnothing)

theorem TypesInto.endRemembers {c : CharChunk} {input : Bytes} {chunks : List CharChunk}
    (hnew : KeepsRaw comp.newChunk) (h : TypesInto comp c input chunks) (hkeeps : KeepsRaw c)
    (hspecial : NoSpecialKey (c.raw ++ input)) (hne : c.raw ++ input ≠ []) :
    ∃ front last, chunks = front ++ [last] ∧ EndRemembers comp (c, input) front last := by
  induction h with
  | @again c c' input rest chunks hstep _ ih =>
    have htrim := hspecial _ (List.suffix_append _ _).isInfix
    obtain ⟨hraw, hkeeps'⟩ :=
      (addInputInternal_outcome c input).raw_append hkeeps htrim (Or.inl hstep)
    dsimp only at hraw hkeeps'
    obtain ⟨front, last, hchunks, hlast⟩ := ih hkeeps' (hraw ▸ hspecial) (hraw ▸ hne)
    exact ⟨front, last, hchunks,
      hlast.of_nothing (flatten_of_inl hstep) (snapshot_of_inl hstep htrim)⟩
  | @next c c' input rest chunks hstep hrest _ ih =>
    obtain ⟨hraw, -⟩ := (addInputInternal_outcome c input).raw_append hkeeps
      (hspecial _ (List.suffix_append _ _).isInfix) (Or.inr hstep)
    dsimp only at hraw
    have hin : rest <:+: c.raw ++ input := hraw ▸ (List.suffix_append _ _).isInfix
    obtain ⟨front, last, hchunks, hlast⟩ := ih hnew (hspecial.of_infix hin) hrest
    refine ⟨c' :: front, last, by rw [hchunks, List.cons_append], hlast.of_nothing ?_ rfl⟩
    rw [typeStep, flatten_of_inr hstep, nextChunk_of_ne_nil hrest]
  | @last c c' input hstep =>
    have houtcome := addInputInternal_outcome c input
    obtain ⟨hraw, -⟩ := houtcome.raw_append hkeeps
      (hspecial _ (List.suffix_append _ _).isInfix) (Or.inr hstep)
    dsimp only at hraw
    rw [List.append_nil] at hraw
    have hshown : c'.isEmpty = false := by
      simp [CharChunk.isEmpty, List.isEmpty_eq_false_iff.mpr (hraw ▸ hne)]
    rw [hshown, if_neg Bool.false_ne_true]
    refine ⟨[], c', rfl, ?_⟩
    cases houtcome.remembers hkeeps (Or.inr hstep) with
    | nothing hnothing => exact .nothing hnothing
    | displayed hdisplays _ _ => exact .displayed .refl hstep hdisplays
    | same hsame hnone => exact .same rfl hsame hnone

/-! ## Runs -/

/-- What holds after inputs at the end of an empty composition. -/
structure Conserved (forms : CharacterForms) (start : Composition)
    (inputs : List CompositionInput) (comp : Composition) : Prop where
  table : comp.table = start.table
  inputT12r : comp.inputT12r = start.inputT12r
  raw : rawOf comp.chunks = typedText inputs
  kept : ∀ c ∈ comp.chunks, Kept comp c
  history : ∀ left c, comp.chunks = left ++ [c] → c.displayAmbiguousResultRaw ≠ [] →
    ∃ before input after shown c₀ c₁, inputs = before ++ input :: after ∧
      DisplayedBy forms start before input shown left c₀ c₁ ∧ SameSnapshot c₁ c

variable {start : Composition} {inputs : List CompositionInput}

theorem typedText_snoc (inputs : List CompositionInput) (input : CompositionInput) :
    typedText (inputs ++ [input]) = typedText inputs ++ input.raw := by
  simp [typedText]

theorem Conserved.newChunk (h : Conserved forms start inputs comp)
    (hnew : KeepsRaw start.newChunk) : KeepsRaw comp.newChunk := by
  refine ⟨?_, rfl, rfl⟩
  show comp.table.table.AllAttributes _
  rw [h.table]
  exact hnew.table

/-- The last chunk remembers nothing, or a result that was displayed before. -/
theorem Conserved.press {input : CompositionInput} {comp' : Composition} {fuel pos : Nat}
    (hnew : KeepsRaw start.newChunk) (h : Conserved forms start inputs comp)
    (htyped : TypedAtEnd forms start inputs comp) (hconversion : input.conversion = [])
    (hinsert : comp.insertInput forms fuel (comp.getLength forms) input = .ok (comp', pos))
    (hspecial : NoSpecialKey (typedText (inputs ++ [input]))) :
    Conserved forms start (inputs ++ [input]) comp' := by
  by_cases hne : input.raw = []
  · -- nothing is inserted
    have hempty : input.isEmpty = true := by simp [CompositionInput.isEmpty, hne, hconversion]
    have hsame := hinsert
    rw [insertInput, if_pos hempty] at hsame
    rw [← (Prod.mk.inj (Except.ok.inj hsame)).1]
    refine ⟨h.table, h.inputT12r, by rw [h.raw, typedText_snoc, hne, List.append_nil], h.kept, ?_⟩
    intro left c hchunks hraw
    obtain ⟨before, key, after, shown, c₀, c₁, hinputs, hshown, hsnapshot⟩ :=
      h.history left c hchunks hraw
    exact ⟨before, key, after ++ [input], shown, c₀, c₁, by rw [hinputs]; simp, hshown, hsnapshot⟩
  · have hnew' := h.newChunk hnew
    obtain ⟨left, c, typed, hstarts, hstart, rfl, hinto⟩ :=
      insertInput_end hconversion hne hnew' h.kept hinsert
    rw [typedText_snoc, ← h.raw, ← hstarts.raw, List.append_assoc] at hspecial
    have hspecial' := hspecial.of_infix (List.suffix_append _ _).isInfix
    have hne' : c.raw ++ input.raw ≠ [] := by simp [hne]
    obtain ⟨front, last, rfl, hlast⟩ :=
      hinto.endRemembers hnew' hstarts.kept.keepsRaw hspecial' hne'
    refine ⟨h.table, h.inputT12r, ?_, ?_, ?_⟩
    · show rawOf (left ++ (front ++ [last])) = _
      rw [rawOf_append, hinto.raw hnew' hstarts.kept.keepsRaw hspecial' hne', ← List.append_assoc,
        hstarts.raw, h.raw, typedText_snoc]
    · intro c' hc'
      rcases List.mem_append.mp hc' with hc' | hc'
      · exact (hstarts.inFront c' hc').congr rfl rfl
      · exact (hinto.kept hnew' hstarts.kept hspecial' c' hc').congr rfl rfl
    · intro left' c' hchunks hraw
      have hchunks : left ++ (front ++ [last]) = left' ++ [c'] := hchunks
      rw [← List.append_assoc] at hchunks
      obtain ⟨rfl, hc'⟩ := List.append_inj' hchunks rfl
      obtain rfl := List.singleton_inj.mp hc'
      cases hlast with
      | nothing hnothing => exact absurd hnothing hraw
      | displayed hreach hadd hdisplays =>
        refine ⟨inputs, input, [], _, _, _, rfl, ⟨.snoc htyped hconversion hinsert, ?_, comp, _, _,
          _, htyped, ⟨fuel, pos, hinsert⟩, hstart, hreach, hadd, hdisplays⟩, .refl _⟩
        exact (List.append_assoc _ _ _).symm
      | same hfront hsame hnone =>
        subst hfront
        rw [hsame.raw] at hraw
        rcases hstarts.origin with rfl | hlast | hcompletes
        · exact absurd rfl hraw
        · obtain ⟨before, key, after, shown, c₀, c₁, hinputs, hshown, hsnapshot⟩ :=
            h.history left c hlast hraw
          refine ⟨before, key, after ++ [input], shown, c₀, c₁, by rw [hinputs]; simp, ?_,
            hsnapshot.trans hsame⟩
          simpa using hshown
        · exact absurd hnone hcompletes.entry

/-- **What is typed at the end of an empty composition is conserved.** -/
theorem TypedAtEnd.conserved (hnew : KeepsRaw start.newChunk) (hempty : start.chunks = [])
    (h : TypedAtEnd forms start inputs comp) (hspecial : NoSpecialKey (typedText inputs)) :
    Conserved forms start inputs comp := by
  induction h with
  | nil =>
    refine ⟨rfl, rfl, by rw [hempty]; rfl, by rw [hempty]; simp, fun left c hchunks => ?_⟩
    rw [hempty] at hchunks
    simp at hchunks
  | snoc htyped hconversion hinsert ih =>
    refine (ih (hspecial.of_infix ?_)).press hnew htyped hconversion hinsert hspecial
    rw [typedText_snoc]
    exact (List.prefix_append _ _).isInfix

/-! ## Going back -/

theorem addInputInternal_of_rollsBack {c : CharChunk} {input : Bytes} (h : RollsBack c input) :
    CharChunk.addInputInternal (c, input)
      = .inr (some (c.restoreDisplayAmbiguousResultFallback input)) := by
  simp [addInputInternal_of_none h.noEntry, CharChunk.addUnmatchedInput, h.fallback, decide_eq_true
    h.notTaken]

/-- Only the first chunk can have something to go back to. -/
theorem reaches_snapshot {s t : CharChunk × Bytes} (hnew : KeepsRaw comp.newChunk)
    (hkeeps : KeepsRaw s.1) (hspecial : NoSpecialKey (s.1.raw ++ s.2))
    (h : Reaches comp.typeStep s t) : t = s ∨ t.1.displayAmbiguousResultRaw = [] := by
  have hinv : (t = s ∨ t.1.displayAmbiguousResultRaw = []) ∧ KeepsRaw t.1 ∧
      NoSpecialKey (t.1.raw ++ t.2) := by
    refine h.invariant (I := fun t => (t = s ∨ t.1.displayAmbiguousResultRaw = []) ∧
      KeepsRaw t.1 ∧ NoSpecialKey (t.1.raw ++ t.2)) ?_ ⟨Or.inl rfl, hkeeps, hspecial⟩
    rintro ⟨c, input⟩ u ⟨-, hkeeps, hspecial⟩ hu
    have htrim := hspecial _ (List.suffix_append _ _).isInfix
    have houtcome := addInputInternal_outcome c input
    cases hadd : CharChunk.addInputInternal (c, input) with
    | inl v =>
      rw [typeStep, flatten_of_inl hadd, Sum.inl.injEq] at hu
      subst hu
      obtain ⟨hraw, hkeeps'⟩ := houtcome.raw_append hkeeps htrim (Or.inl hadd)
      exact ⟨Or.inr (snapshot_of_inl hadd htrim), hkeeps', hraw ▸ hspecial⟩
    | inr r =>
      rw [typeStep, flatten_of_inr hadd] at hu
      obtain ⟨c', rest, rfl, rfl, -⟩ := nextChunk_inl (r := r) hu
      obtain ⟨hraw, -⟩ := houtcome.raw_append hkeeps htrim (Or.inr hadd)
      dsimp only at hraw
      refine ⟨Or.inr rfl, hnew, hspecial.of_infix ?_⟩
      exact hraw ▸ (List.suffix_append _ _).isInfix
  exact hinv.1

/-- What is displayed is displayed again after going back to it. -/
theorem result_restored {c₀ c₁ c : CharChunk} {r₀ input : Bytes} {entry : Entry}
    (hdisplays : Displays c₀ r₀ entry c₁) (hsame : SameSnapshot c₁ c)
    (ht12r : c.transliterator = c₁.transliterator) (hne : c₁.ambiguous ≠ []) :
    (c.restoreDisplayAmbiguousResultFallback input).1.result forms .localT12r
      = c₁.result forms .localT12r := by
  have hshown : c₁.getDisplayConverted = c₁.conversion ++ c₁.ambiguous := by
    rw [CharChunk.getDisplayConverted, hdisplays.displayed, List.isEmpty_eq_false_iff.mpr hne]
    rfl
  have hback : (c.restoreDisplayAmbiguousResultFallback input).1.getDisplayConverted
      = c.displayAmbiguousResultConversion ++ c.displayAmbiguousResultAmbiguous :=
    List.append_nil _
  have ht : (c.restoreDisplayAmbiguousResultFallback input).1.getTransliterator .localT12r
      = c₁.getTransliterator .localT12r := by
    show (if c.displayAmbiguousResultAttributes.noTransliteration then _ else _) = _
    rw [hsame.attributes, hdisplays.savedAttributes]
    unfold CharChunk.getTransliterator
    rw [← ht12r]
    rfl
  unfold CharChunk.result CharChunk.transliterate
  rw [ht, hback, hshown, hsame.conversion, hsame.ambiguous, hdisplays.savedConversion,
    hdisplays.savedAmbiguous]
  show Transliterator.transliterate forms _ (deleteSpecialKeys c.displayAmbiguousResultRaw) _ = _
  rw [hsame.raw, hdisplays.savedRaw]

/-- **A chunk goes back to what it displayed before.** -/
theorem Conserved.backToShown {input : CompositionInput} {comp' : Composition} {fuel pos : Nat}
    (hnew : KeepsRaw start.newChunk) (hempty : start.chunks = [])
    (h : Conserved forms start inputs comp) (hconversion : input.conversion = [])
    (hinsert : comp.insertInput forms fuel (comp.getLength forms) input = .ok (comp', pos))
    (hspecial : NoSpecialKey (typedText (inputs ++ [input])))
    (hback : RollsBackIn forms comp input) : BackToShown forms start inputs comp' := by
  obtain ⟨s, t, hs, hreach, hrolls⟩ := hback
  have hne : input.raw ≠ [] := by
    intro hnil
    rw [typingStart, if_pos (by simp [CompositionInput.isEmpty, hnil, hconversion])] at hs
    cases hs
  have hnew' := h.newChunk hnew
  obtain ⟨left, c, typed, hstarts, hstart, rfl, hinto⟩ :=
    insertInput_end hconversion hne hnew' h.kept hinsert
  obtain rfl := Option.some.inj (hs.symm.trans hstart)
  have htext := hspecial
  rw [typedText_snoc, ← h.raw, ← hstarts.raw, List.append_assoc] at htext
  have hspecial' := htext.of_infix (List.suffix_append _ _).isInfix
  rcases reaches_snapshot hnew' hstarts.kept.keepsRaw hspecial' hreach with rfl | hnothing
  · have hlast : comp.chunks = left ++ [c] := by
      rcases hstarts.origin with rfl | hlast | hcompletes
      · exact absurd rfl hrolls.snapshot
      · exact hlast
      · exact absurd hrolls.noEntry hcompletes.entry
    obtain ⟨before, key, after, shown, c₀, c₁, hinputs, hshown, hsame⟩ :=
      h.history left c hlast hrolls.snapshot
    obtain ⟨_, _, _, _, _, _, _, _, _, hdisplays⟩ := hshown.matched
    have hadd := addInputInternal_of_rollsBack hrolls
    have hbegins : typedText (before ++ [key]) <:+: typedText (inputs ++ [input]) := by
      rw [hinputs]
      refine List.IsPrefix.isInfix ⟨typedText (after ++ [input]), ?_⟩
      simp [typedText]
    have hkept := (hshown.typed.conserved hnew hempty (hspecial.of_infix hbegins))
    have ht12r : c.transliterator = c₁.transliterator := by
      rw [hstarts.kept.transliterator, (hkept.kept c₁ (by rw [hshown.chunks]; simp)).transliterator,
        h.inputT12r, hkept.inputT12r]
    have hmore : ∃ more, typed = (c.restoreDisplayAmbiguousResultFallback input.raw).1 :: more := by
      cases hinto with
      | again hstep _ =>
        simp [hadd] at hstep
      | next hstep _ _ =>
        rw [hadd] at hstep
        rw [Option.some.inj (Sum.inr.inj hstep)]
        exact ⟨_, rfl⟩
      | last hstep =>
        rw [hadd] at hstep
        refine absurd ?_ (restore_length input.raw hrolls.fallback).1
        rw [Option.some.inj (Sum.inr.inj hstep)]
    obtain ⟨more, rfl⟩ := hmore
    refine ⟨before, key, after, shown, left, c₀, c₁, _, more, hinputs, hshown, rfl, ?_, rfl, ?_, ?_⟩
    · show c.displayAmbiguousResultConversion ++ c.displayAmbiguousResultAmbiguous = _
      rw [hsame.conversion, hsame.ambiguous, hdisplays.savedConversion, hdisplays.savedAmbiguous,
        hdisplays.conversion]
    · show c.displayAmbiguousResultRaw = _
      rw [hsame.raw, hdisplays.savedRaw]
    · intro hambiguous
      simp [getString, hshown.chunks, textOf_append, textOf_cons, textOf_nil, result_restored
        hdisplays hsame ht12r hambiguous, ← List.append_assoc]
  · exact absurd hnothing hrolls.snapshot

/-- **What is typed at the end of an empty composition is the raw text of its chunks, and a chunk
that goes back to a displayed result displays it again.** -/
theorem keystrokes_kept (forms : CharacterForms) (rules : List Rule) (fuel : Nat) (table : Table)
    (hadd : Table.new.addRules fuel rules = some table)
    (hrules : ∀ rule ∈ rules, rule.attributes.noTransliteration = false) (id : Nat)
    (t12r : Transliterator) :
    let start : Composition := ⟨⟨id, table⟩, t12r, []⟩
    (∀ inputs comp, TypedAtEnd forms start inputs comp → NoSpecialKey (typedText inputs) →
      rawOf comp.chunks = typedText inputs) ∧
    ∀ inputs comp input comp' fuel pos, TypedAtEnd forms start inputs comp →
      input.conversion = [] →
      comp.insertInput forms fuel (comp.getLength forms) input = .ok (comp', pos) →
      NoSpecialKey (typedText (inputs ++ [input])) → RollsBackIn forms comp input →
      BackToShown forms start inputs comp' := by
  intro start
  have hnew : KeepsRaw start.newChunk := ⟨addRules_allAttributes rfl hrules hadd, rfl, rfl⟩
  refine ⟨fun inputs comp h hspecial => (h.conserved hnew rfl hspecial).raw, ?_⟩
  intro inputs comp input comp' fuel pos h hconversion hinsert hspecial hback
  have hbefore : NoSpecialKey (typedText inputs) := hspecial.of_infix (by
    rw [typedText_snoc]
    exact (List.prefix_append _ _).isInfix)
  exact (h.conserved hnew rfl hbefore).backToShown hnew rfl hconversion hinsert hspecial hback

/-! ## A result that is displayed, and one that is not -/

def keyOf (text : Bytes) : CompositionInput := { raw := text }

/-- あ is displayed until the longer rule comes about. -/
def displayedRules : List Rule :=
  [⟨utf8 "a", utf8 "あ", [], { displayAmbiguousResult := true }⟩, ⟨utf8 "abc", utf8 "う", [], {}⟩]

def displayedTable : SharedTable := ⟨0, (Table.new.addRules 2 displayedRules).getD Table.new⟩

/-- The result of the rule is empty, and the pending text is displayed in its place. -/
def emptyResultRules : List Rule :=
  [⟨utf8 "a", [], [], { displayAmbiguousResult := true }⟩, ⟨utf8 "abc", utf8 "う", [], {}⟩]

def emptyResultTable : SharedTable := ⟨0, (Table.new.addRules 2 emptyResultRules).getD Table.new⟩

theorem keystrokes_kept_displayed :
    ∃ comp comp' pos, TypedAtEnd sameForms ⟨displayedTable, .conversionString, []⟩
        [keyOf (utf8 "a"), keyOf (utf8 "b")] comp ∧
      rawOf comp.chunks = utf8 "ab" ∧
      comp.insertInput sameForms 4 (comp.getLength sameForms) (keyOf (utf8 "d")) =
        .ok (comp', pos) ∧
      BackToShown sameForms ⟨displayedTable, .conversionString, []⟩
        [keyOf (utf8 "a"), keyOf (utf8 "b")] comp' := by
  have hkept := keystrokes_kept sameForms displayedRules 2 displayedTable.table rfl (by decide) 0
    .conversionString
  have hspecial :
    NoSpecialKey (utf8 "abd") := (bare_of_not_mem (by decide) (by decide)).noSpecialKey
  have htyped : TypedAtEnd sameForms ⟨displayedTable, .conversionString, []⟩
      [keyOf (utf8 "a"), keyOf (utf8 "b")] _ :=
    .snoc (.snoc .nil rfl (show Composition.insertInput sameForms 4 _ _ _ = .ok (_, _) from rfl))
      rfl
      (show Composition.insertInput sameForms 4 _ _ _ = .ok (_, _) from rfl)
  refine ⟨_, _, _, htyped, hkept.1 _ _ htyped (hspecial.of_infix ⟨[], utf8 "d", rfl⟩), rfl,
    hkept.2 _ _ (keyOf (utf8 "d")) _ 4 _ htyped rfl rfl hspecial ⟨_, _, rfl, .refl, ?_⟩⟩
  exact ⟨by decide, by decide, by decide⟩

/-- **A special key is lost, and a displayed text for which the result is empty.** -/
theorem keystroke_lost :
    (∃ comp, TypedAtEnd sameForms ⟨⟨0, Table.new⟩, .conversionString, []⟩
        [keyOf [0xEF, 0x80, 0x80]] comp ∧ rawOf comp.chunks = []) ∧
    ∃ shown comp comp' pos,
      TypedAtEnd sameForms ⟨emptyResultTable, .conversionString, []⟩ [keyOf (utf8 "a")] shown ∧
      TypedAtEnd sameForms ⟨emptyResultTable, .conversionString, []⟩
        [keyOf (utf8 "a"), keyOf (utf8 "b")] comp ∧
      comp.insertInput sameForms 4 (comp.getLength sameForms) (keyOf (utf8 "d")) =
        .ok (comp', pos) ∧
      RollsBackIn sameForms comp (keyOf (utf8 "d")) ∧
      shown.getString sameForms = utf8 "a" ∧ comp'.getString sameForms = utf8 "bd" := by
  refine ⟨⟨_, .snoc .nil rfl (show Composition.insertInput sameForms 4 _ _ _ = .ok (_, _) from rfl),
    rfl⟩, ?_⟩
  have hshown : TypedAtEnd sameForms ⟨emptyResultTable, .conversionString, []⟩
      [keyOf (utf8 "a")] _ :=
    .snoc .nil rfl (show Composition.insertInput sameForms 4 _ _ _ = .ok (_, _) from rfl)
  refine ⟨_, _, _, _, hshown,
    .snoc hshown rfl (show Composition.insertInput sameForms 4 _ _ _ = .ok (_, _) from rfl), rfl,
    ⟨_, _, rfl, .refl, ?_⟩, ?_, ?_⟩
  · exact ⟨by decide, by decide, by decide⟩
  · decide
  · decide

end Composition

end Mozkey.Composer
