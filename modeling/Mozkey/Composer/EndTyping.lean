import Mozkey.Composer.Cutting
import Mozkey.Composer.Keystrokes

/-!
# Typing at the end

What is typed at the end of a composition goes into the last chunk and into new ones behind it. The
raw texts of the chunks are what was typed (`TypesInto.raw`, `insertInput_end`).
-/

namespace Mozkey.Composer

open Infra Base

namespace Composition

/-- `raw()` of the chunks one after another. -/
def rawOf (chunks : List CharChunk) : Bytes := chunks.flatMap (·.raw)

@[simp] theorem rawOf_nil : rawOf [] = [] := rfl

@[simp] theorem rawOf_cons (c : CharChunk) (chunks : List CharChunk) :
    rawOf (c :: chunks) = c.raw ++ rawOf chunks := rfl

@[simp] theorem rawOf_append (chunks chunks' : List CharChunk) :
    rawOf (chunks ++ chunks') = rawOf chunks ++ rawOf chunks' := List.flatMap_append

/-! ## What a chunk and the input become -/

/-- The chunks that a chunk and what is typed into it become. -/
inductive TypesInto (comp : Composition) : CharChunk → Bytes → List CharChunk → Prop where
  | again {c c' : CharChunk} {input rest : Bytes} {chunks : List CharChunk} :
    CharChunk.addInputInternal (c, input) = .inl (c', rest) → TypesInto comp c' rest chunks →
    TypesInto comp c input chunks
  | next {c c' : CharChunk} {input rest : Bytes} {chunks : List CharChunk} :
    CharChunk.addInputInternal (c, input) = .inr (some (c', rest)) → rest ≠ [] →
    TypesInto comp comp.newChunk rest chunks → TypesInto comp c input (c' :: chunks)
  | last {c c' : CharChunk} {input : Bytes} :
    CharChunk.addInputInternal (c, input) = .inr (some (c', [])) →
    TypesInto comp c input (if c'.isEmpty then [] else [c'])

variable {comp : Composition} {forms : CharacterForms}

variable {chunks : List CharChunk} {s : CharChunk × Bytes} {c : CharChunk} {input : Bytes}

theorem TypesInto.of_returns {r : Option (CharChunk × Bytes)} {c' : CharChunk} {rest : Bytes}
    (h : Returns CharChunk.addInputInternal s r) (hr : r = some (c', rest)) (hrest : rest ≠ [])
    (hnext : TypesInto comp comp.newChunk rest chunks) :
    TypesInto comp s.1 s.2 (c' :: chunks) := by
  induction h with
  | left hs => exact .next (hr ▸ hs) hrest hnext
  | next hs _ ih => exact .again hs (ih hr)

theorem TypesInto.of_returns_last {r : Option (CharChunk × Bytes)} {c' : CharChunk}
    (h : Returns CharChunk.addInputInternal s r) (hr : r = some (c', [])) :
    TypesInto comp s.1 s.2 (if c'.isEmpty then [] else [c']) := by
  induction h with
  | left hs => exact .last (hr ▸ hs)
  | next hs _ ih => exact .again hs (ih hr)

/-- What the loop of `InsertInput` puts behind the chunks in front. -/
theorem typesInto_of_run {fuel : Nat} : ∀ {n : Nat} {s : Insertion} {chunks : List CharChunk},
    s.input.conversion = [] → s.chunk.shouldInsertNewChunk s.input = false →
    run (comp.insertStep fuel) n s = some (.ok chunks) →
    ∃ typed, chunks = s.left ++ typed ∧ TypesInto comp s.chunk s.input.raw typed
  | 0, _, _, _, _, h => by cases h
  | n + 1, s, chunks, hconversion, hsame, h => by
    rw [run, insertStep, addCompositionInput_of_raw hconversion hsame] at h
    cases hrun : run CharChunk.addInputInternal fuel (s.chunk, s.input.raw) with
    | none =>
      simp [hrun] at h
    | some added =>
      cases added with
      | none =>
        simp [hrun] at h
      | some added =>
        obtain ⟨c', rest⟩ := added
        have hreturns := returns_of_run hrun
        rw [hrun] at h
        dsimp only at h
        by_cases hrest : rest = []
        · subst hrest
          rw [if_pos (by simp [CompositionInput.isEmpty, hconversion])] at h
          refine ⟨_, ?_, .of_returns_last hreturns rfl⟩
          rw [← Except.ok.inj (Option.some.inj h)]
          split
          · simp
          · rfl
        · rw [if_neg (by simp [CompositionInput.isEmpty, hrest])] at h
          obtain ⟨typed, htyped, hinto⟩ := @typesInto_of_run fuel n
            ⟨s.left ++ [c'], comp.newChunk, { s.input with raw := rest, isNewInput := false }⟩
            chunks hconversion rfl h
          refine ⟨c' :: typed, ?_, .of_returns hreturns rfl hrest hinto⟩
          simp [htyped]

/-! ## The raw text -/

/-- A chunk of the composition that keeps its raw text. -/
structure Kept (comp : Composition) (c : CharChunk) : Prop where
  keepsRaw : KeepsRaw c
  table : c.table = comp.table
  transliterator : c.transliterator = comp.inputT12r

/-- **What is typed into a chunk is kept.** -/
theorem TypesInto.raw (hnew : KeepsRaw comp.newChunk) (h : TypesInto comp c input chunks)
    (hkeeps : KeepsRaw c) (hspecial : NoSpecialKey (c.raw ++ input)) (hne : c.raw ++ input ≠ []) :
    rawOf chunks = c.raw ++ input := by
  induction h with
  | @again c c' input rest chunks hstep _ ih =>
    obtain ⟨hraw, hkeeps'⟩ := (addInputInternal_outcome c input).raw_append hkeeps
      (hspecial _ (List.suffix_append _ _).isInfix) (Or.inl hstep)
    dsimp only at hraw hkeeps'
    rw [ih hkeeps' (hraw ▸ hspecial) (hraw ▸ hne), hraw]
  | @next c c' input rest chunks hstep hrest _ ih =>
    obtain ⟨hraw, -⟩ := (addInputInternal_outcome c input).raw_append hkeeps
      (hspecial _ (List.suffix_append _ _).isInfix) (Or.inr hstep)
    dsimp only at hraw
    have hin : rest <:+: c.raw ++ input := hraw ▸ (List.suffix_append _ _).isInfix
    rw [rawOf_cons, ih hnew (hspecial.of_infix hin) hrest, ← hraw]
    rfl
  | @last c c' input hstep =>
    obtain ⟨hraw, -⟩ := (addInputInternal_outcome c input).raw_append hkeeps
      (hspecial _ (List.suffix_append _ _).isInfix) (Or.inr hstep)
    dsimp only at hraw
    rw [List.append_nil] at hraw
    have hshown : c'.isEmpty = false := by
      simp [CharChunk.isEmpty, List.isEmpty_eq_false_iff.mpr (hraw ▸ hne)]
    simp [hshown, rawOf_cons, rawOf_nil, hraw]

theorem Kept.congr {comp' : Composition} (h : Kept comp c) (htable : comp'.table = comp.table)
    (ht12r : comp'.inputT12r = comp.inputT12r) :
    Kept comp' c :=
  ⟨h.keepsRaw, h.table.trans htable.symm, h.transliterator.trans ht12r.symm⟩

theorem newChunk_kept (htable : KeepsRaw comp.newChunk) : Kept comp comp.newChunk :=
  ⟨htable, rfl, rfl⟩

theorem Kept.step (h : Kept comp c) (htrim : trimLeadingSpecialKey input = input)
    (hs : IsNext (CharChunk.addInputInternal (c, input)) s) : Kept comp s.1 := by
  have houtcome := addInputInternal_outcome c input
  have horigin := houtcome.origin hs
  exact ⟨(houtcome.raw_append h.keepsRaw htrim hs).2, horigin.1.trans h.table,
    horigin.2.trans h.transliterator⟩

theorem TypesInto.kept (hnew : KeepsRaw comp.newChunk) (h : TypesInto comp c input chunks)
    (hkept : Kept comp c) (hspecial : NoSpecialKey (c.raw ++ input)) :
    ∀ c' ∈ chunks, Kept comp c' := by
  induction h with
  | @again c c' input rest chunks hstep _ ih =>
    have htrim := hspecial _ (List.suffix_append _ _).isInfix
    have hraw := ((addInputInternal_outcome c input).raw_append hkept.keepsRaw htrim
      (Or.inl hstep)).1
    dsimp only at hraw
    exact ih (hkept.step htrim (Or.inl hstep)) (hraw ▸ hspecial)
  | @next c c' input rest chunks hstep _ _ ih =>
    have htrim := hspecial _ (List.suffix_append _ _).isInfix
    have hraw := ((addInputInternal_outcome c input).raw_append hkept.keepsRaw htrim
      (Or.inr hstep)).1
    dsimp only at hraw
    have hin : rest <:+: c.raw ++ input := hraw ▸ (List.suffix_append _ _).isInfix
    intro c'' hc
    rcases List.mem_cons.mp hc with rfl | hc
    · exact hkept.step htrim (Or.inr hstep)
    · exact ih (newChunk_kept hnew) (hspecial.of_infix hin) c'' hc
  | @last c c' input hstep =>
    have htrim := hspecial _ (List.suffix_append _ _).isInfix
    intro c'' hc
    split at hc
    · cases hc
    · rw [List.mem_singleton.mp hc]
      exact hkept.step htrim (Or.inr hstep)

/-! ## Where it is inserted -/

theorem getTransliterator_of_kept (h : Kept comp c) :
    c.getTransliterator comp.inputT12r = c.getTransliterator .localT12r := by
  unfold CharChunk.getTransliterator
  rw [h.keepsRaw.attributes, if_neg Bool.false_ne_true, if_neg Bool.false_ne_true, if_pos rfl,
    h.transliterator]
  split <;> rfl

theorem maybeSplitChunkAt_length (forms : CharacterForms) (chunks : List CharChunk) :
    ∃ left right, maybeSplitChunkAt forms chunks (lengthOf forms .localT12r chunks) =
      (left, right) ∧
      left ++ right = chunks ∧ lengthOf forms .localT12r right = 0 := by
  unfold maybeSplitChunkAt
  cases hfound : getChunkAt forms chunks (lengthOf forms .localT12r chunks) .localT12r with
  | none => exact ⟨[], [], rfl, (getChunkAt_eq_none hfound).symm, rfl⟩
  | some found =>
    dsimp only
    obtain ⟨hsum, hinner, -⟩ := (getChunkFrom_position hfound).1 (Nat.le_refl _)
    have hchunks := getChunkAt_chunks hfound
    have hlength : lengthOf forms .localT12r chunks = lengthOf forms .localT12r found.left +
        (found.chunk.getLength forms .localT12r + lengthOf forms .localT12r found.right) := by
      rw [← hchunks, lengthOf_append, lengthOf_cons]
    rw [lengthOf_nil, Nat.zero_add] at hsum
    split
    · next h =>
      rw [Bool.and_eq_true, List.isEmpty_iff, decide_eq_true_eq] at h
      rw [h.1, h.2, lengthOf_nil] at hsum
      exact ⟨[], chunks, rfl, rfl, hsum.symm⟩
    · rw [if_pos (show found.innerPosition = _ by omega)]
      refine ⟨_, _, rfl, ?_, by omega⟩
      simp [hchunks]

theorem getLength_eq_zero (h : lengthOf forms .localT12r chunks = 0) :
    ∀ c ∈ chunks, c.getLength forms .localT12r = 0 := by
  intro c hc
  obtain ⟨left, right, rfl⟩ := List.append_of_mem hc
  rw [lengthOf_append, lengthOf_cons] at h
  omega

/-- The chunk that takes the input, and what is in front of it. -/
structure StartsAt (comp : Composition) (input : Bytes) (left : List CharChunk) (c : CharChunk) :
    Prop where
  raw : rawOf left ++ c.raw = rawOf comp.chunks
  inFront : ∀ c' ∈ left, Kept comp c'
  kept : Kept comp c
  origin : c = comp.newChunk ∨ comp.chunks = left ++ [c] ∨ Completes c input

theorem combineFrom_startsAt : ∀ {before : List CharChunk} {it : CharChunk},
    StartsAt comp input before.reverse it →
    StartsAt comp input (comp.combineFrom input before it).1.reverse
      (comp.combineFrom input before it).2
  | [], _, h => h
  | leftIt :: rest, it, h => by
    rw [combineFrom]
    split
    · next hconvertible =>
      refine combineFrom_startsAt ⟨?_, fun c' hc' => h.inFront c' ?_, ⟨⟨?_, ?_, ?_⟩, ?_, ?_⟩, ?_⟩
      · have hraw := h.raw
        rw [List.reverse_cons, rawOf_append, rawOf_cons, rawOf_nil, List.append_nil,
          List.append_assoc] at hraw
        exact hraw
      · rw [List.reverse_cons]
        exact List.mem_append_left _ hc'
      · exact h.kept.keepsRaw.table
      · exact h.kept.keepsRaw.attributes
      · exact h.kept.keepsRaw.fallback
      · exact h.kept.table
      · exact h.kept.transliterator
      · -- the rule for the combined pending text is already known
        refine Or.inr (Or.inr ?_)
        unfold CharChunk.isConvertible at hconvertible
        split at hconvertible
        · cases hconvertible
        · simp only [Bool.and_eq_true, decide_eq_true_eq, Option.isSome_iff_ne_none] at hconvertible
          rw [← h.kept.table, ← List.append_assoc] at hconvertible
          exact ⟨hconvertible.1.1, hconvertible.1.2.symm, hconvertible.2⟩
    · exact h

theorem insertionAt_startsAt {input : CompositionInput} (hconversion : input.conversion = [])
    (hnew : KeepsRaw comp.newChunk) (hkept : ∀ c ∈ comp.chunks, Kept comp c) :
    ∃ left c, comp.insertionAt forms (comp.getLength forms) input = (⟨left, c, input⟩, []) ∧
      StartsAt comp input.raw left c := by
  obtain ⟨left, right, hsplit, hchunks, hlength⟩ := maybeSplitChunkAt_length forms comp.chunks
  have hinvisible : ∀ c ∈ right, decide (c.getLength forms comp.inputT12r = 0) = true := by
    intro c hc
    rw [decide_eq_true_eq, CharChunk.getLength, CharChunk.result, CharChunk.transliterate,
      getTransliterator_of_kept (hkept c (hchunks ▸ List.mem_append_right _ hc))]
    exact getLength_eq_zero hlength c hc
  have hgot : StartsAt comp input.raw (comp.getInsertionChunk comp.chunks).1
      (comp.getInsertionChunk comp.chunks).2 := by
    unfold getInsertionChunk
    split
    · next hlast =>
      rw [List.getLast?_eq_none_iff] at hlast
      exact ⟨by rw [hlast]; rfl, by simp, newChunk_kept hnew, Or.inl rfl⟩
    · next last hlast =>
      split
      · obtain ⟨front, hfront⟩ := List.getLast?_eq_some_iff.mp hlast
        rw [hfront] at hkept ⊢
        rw [List.dropLast_concat]
        refine ⟨by simp [hfront], fun c hc => hkept c (List.mem_append_left _ hc),
          hkept last (by simp), Or.inr (Or.inl hfront)⟩
      · exact ⟨List.append_nil _, hkept, newChunk_kept hnew, Or.inl rfl⟩
  have hcombined : StartsAt comp input.raw
      (comp.combinePendingChunks (comp.getInsertionChunk comp.chunks).1
        (comp.getInsertionChunk comp.chunks).2 input).1
      (comp.combinePendingChunks (comp.getInsertionChunk comp.chunks).1
        (comp.getInsertionChunk comp.chunks).2 input).2 := by
    unfold combinePendingChunks
    split
    · exact hgot
    · rw [hconversion, if_pos List.isEmpty_nil]
      exact combineFrom_startsAt (by rw [List.reverse_reverse]; exact hgot)
  refine ⟨_, _, ?_, hcombined⟩
  unfold insertionAt getLength
  rw [hsplit]
  dsimp only
  rw [List.takeWhile_eq_self_iff.mpr hinvisible, hchunks, List.dropWhile_eq_nil_iff.mpr hinvisible]

/-- Where the typing begins, and what comes of it. -/
theorem insertInput_end {fuel pos : Nat} {input : CompositionInput} {comp' : Composition}
    (hconversion : input.conversion = []) (hne : input.raw ≠ [])
    (hnew : KeepsRaw comp.newChunk) (hkept : ∀ c ∈ comp.chunks, Kept comp c)
    (h : comp.insertInput forms fuel (comp.getLength forms) input = .ok (comp', pos)) :
    ∃ left c typed, StartsAt comp input.raw left c ∧
      comp.typingStart forms (comp.getLength forms) input = some (c, input.raw) ∧
      comp' = { comp with chunks := left ++ typed } ∧ TypesInto comp c input.raw typed := by
  have hempty : ¬input.isEmpty = true := by simp [CompositionInput.isEmpty, hne]
  obtain ⟨left, c, hstart, hstarts⟩ := @insertionAt_startsAt comp forms input hconversion hnew hkept
  unfold insertInput at h
  rw [if_neg hempty, hstart] at h
  dsimp only at h
  have htyping : comp.typingStart forms (comp.getLength forms) input =
      if c.shouldInsertNewChunk input then some (comp.newChunk, input.raw)
      else some (c, input.raw) := by
    unfold typingStart
    rw [if_neg (by simp [hempty, hconversion]), hstart]
  split at h
  · cases h
  · cases h
  · next chunks hrun =>
    have hchunks := (Prod.mk.inj (Except.ok.inj h)).1
    rw [List.append_nil] at hchunks
    by_cases hinsert : c.shouldInsertNewChunk input = true
    · rw [if_pos hinsert] at htyping
      cases fuel with
      | zero => cases hrun
      | succ fuel =>
        rw [run, insertStep, CharChunk.addCompositionInput, if_neg (by simp [hconversion]),
          if_pos hinsert] at hrun
        dsimp only at hrun
        rw [if_neg hempty] at hrun
        obtain ⟨typed, htyped, hinto⟩ := @typesInto_of_run comp _ _
          ⟨left ++ [c], comp.newChunk, { input with isNewInput := false }⟩ _ hconversion rfl hrun
        refine ⟨left ++ [c], comp.newChunk, typed, ⟨?_, ?_, newChunk_kept hnew, Or.inl rfl⟩,
          htyping, ?_, hinto⟩
        · rw [rawOf_append, rawOf_cons, rawOf_nil, List.append_nil, hstarts.raw]
          exact List.append_nil _
        · intro c' hc'
          rcases List.mem_append.mp hc' with hc' | hc'
          · exact hstarts.inFront c' hc'
          · simpa [List.mem_singleton.mp hc'] using hstarts.kept
        · rw [← hchunks, htyped]
    · rw [if_neg hinsert] at htyping
      obtain ⟨typed, htyped, hinto⟩ := @typesInto_of_run comp _ _ ⟨left, c, input⟩ _ hconversion
        (Bool.not_eq_true _ ▸ hinsert) hrun
      exact ⟨left, c, typed, hstarts, htyping, by rw [← hchunks, htyped], hinto⟩

end Composition

end Mozkey.Composer
