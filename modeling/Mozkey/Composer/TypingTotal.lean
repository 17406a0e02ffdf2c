import Mozkey.Composer.Typing

/-!
# All keystrokes are taken

The loop of `InsertInput` runs the loop of `AddInput`. Both together are the one loop whose steps
are examined in `Typing`.

* `typing_total_iff` — all keystrokes are taken if and only if no rule is found that ends inside the
  pending text, and no pending text comes back in front of the same input
-/

namespace Mozkey.Composer

open Infra Base

namespace Composition

/-! ## The loop of `InsertInput` -/

variable {input : CompositionInput} {fuel pos : Nat} {result : Composition × Nat}
  {left : List CharChunk}

theorem addCompositionInput_of_raw {c : CharChunk} (hconversion : input.conversion = [])
    (hsame : c.shouldInsertNewChunk input = false) (fuel : Nat) : c.addCompositionInput fuel input =
      match run CharChunk.addInputInternal fuel (c, input.raw) with
      | none => .error .fuel
      | some none => .error .outOfRange
      | some (some (c, raw)) => .ok (c, { input with raw := raw }) := by
  unfold CharChunk.addCompositionInput CharChunk.addInput
  rw [hconversion, hsame, List.isEmpty_nil, Bool.not_true, if_neg Bool.false_ne_true,
    if_neg Bool.false_ne_true]
  cases run CharChunk.addInputInternal fuel (c, input.raw) with
  | none => rfl
  | some added =>
    cases added with
    | none => rfl
    | some added => rfl

variable {comp : Composition}

/-- The input is taken by the loop in the loop if it is taken by the one loop. -/
theorem run_insertStep_iff : ∀ {n : Nat} {s : Insertion},
    s.input.conversion = [] → s.chunk.shouldInsertNewChunk s.input = false →
    ((∃ left, run (comp.insertStep fuel) n s = some (.ok left)) ↔
      ∃ c, run (nested CharChunk.addInputInternal comp.nextChunk fuel) n (s.chunk, s.input.raw)
        = some (some (some c)))
  | 0, _, _, _ => by simp [run]
  | n + 1, s, hconversion, hsame => by
    rw [run, run, insertStep, addCompositionInput_of_raw hconversion hsame, nested]
    cases hrun : run CharChunk.addInputInternal fuel (s.chunk, s.input.raw) with
    | none => simp
    | some added =>
      cases added with
      | none => simp [nextChunk]
      | some added =>
        obtain ⟨c, raw⟩ := added
        dsimp only
        by_cases hraw : raw = []
        · subst hraw
          rw [if_pos (by simp [CompositionInput.isEmpty, hconversion]), nextChunk,
            if_pos List.isEmpty_nil]
          simp
        · rw [if_neg (by simp [CompositionInput.isEmpty, hraw]), nextChunk_of_ne_nil hraw]
          exact run_insertStep_iff hconversion rfl

theorem insertStep_mono {fuel' : Nat} (hle : fuel ≤ fuel') {s : Insertion}
    (h : comp.insertStep fuel s ≠ .inr (.error .fuel)) :
    comp.insertStep fuel' s = comp.insertStep fuel s := by
  have hadd : s.chunk.addCompositionInput fuel s.input ≠ .error .fuel →
      s.chunk.addCompositionInput fuel' s.input = s.chunk.addCompositionInput fuel s.input := by
    unfold CharChunk.addCompositionInput CharChunk.addInput
    intro h
    split
    · rfl
    · split
      · rfl
      · next hconversion hsame =>
        rw [if_neg hconversion, if_neg hsame] at h
        cases hrun : run CharChunk.addInputInternal fuel (s.chunk, s.input.raw) with
        | none =>
          simp [hrun] at h
        | some added => rw [run_mono hrun hle]
  rw [insertStep, insertStep, hadd]
  intro hfuel
  rw [insertStep, hfuel] at h
  exact h rfl

theorem run_insertStep_mono {fuel' : Nat} (hle : fuel ≤ fuel') : ∀ {n n' : Nat}
    {s : Insertion} {left : List CharChunk}, n ≤ n' →
    run (comp.insertStep fuel) n s = some (.ok left) →
    run (comp.insertStep fuel') n' s = some (.ok left)
  | 0, _, _, _, _, h => by cases h
  | n + 1, 0, _, _, hn, _ => absurd hn (by omega)
  | n + 1, n' + 1, s, left, hn, h => by
    rw [run] at h ⊢
    rw [insertStep_mono hle]
    · split at h
      · exact run_insertStep_mono hle (show n ≤ n' by omega) h
      · exact h
    · intro hfuel
      simp [hfuel] at h

theorem insertInput_mono {forms : CharacterForms} {fuel' : Nat}
    (h : comp.insertInput forms fuel pos input = .ok result) (hle : fuel ≤ fuel') :
    comp.insertInput forms fuel' pos input = .ok result := by
  unfold insertInput at h ⊢
  split at h
  · next hempty => rwa [if_pos hempty]
  · next hempty =>
    rw [if_neg hempty]
    dsimp only at h ⊢
    split at h
    · cases h
    · cases h
    · next left hrun => rwa [run_insertStep_mono hle hle hrun]

/-! ## Inputs with their conversion -/

/-- A chunk takes the whole input, or leaves a conversion for the next one. -/
theorem addInputAndConvertedChar_rest (c : CharChunk) (h : input.conversion ≠ []) :
    (c.addInputAndConvertedChar input).2.isEmpty = true ∨
      (c.addInputAndConvertedChar input).2.conversion ≠ [] := by
  unfold CharChunk.addInputAndConvertedChar
  dsimp only
  by_cases hempty : c.isEmpty = true
  · rw [if_pos hempty, if_pos hempty]
    split <;> exact Or.inl rfl
  · rw [if_neg hempty, if_neg hempty]
    split
    · exact Or.inr h
    · split
      · exact Or.inr h
      · next entry hentry =>
        have hle := lookUpPrefix_keyLength_le c.table.table (c.pending ++ input.conversion)
        split
        · exact Or.inl rfl
        · next hall =>
          split
          · exact Or.inr h
          · refine Or.inr ?_
            dsimp only
            rw [Ne, List.drop_eq_nil_iff]
            omega

theorem addInputAndConvertedChar_newChunk (input : CompositionInput) :
    (comp.newChunk.addInputAndConvertedChar input).2.isEmpty = true := by
  unfold CharChunk.addInputAndConvertedChar
  cases hasis : input.isAsis with
  | true => rfl
  | false => rfl

theorem insertStep_of_conversion {s : Insertion} (h : s.input.conversion ≠ []) (fuel : Nat) :
    comp.insertStep fuel s =
      let added := s.chunk.addInputAndConvertedChar s.input
      if added.2.isEmpty then
        .inr (.ok (if added.1.isEmpty then s.left else s.left ++ [added.1]))
      else .inl ⟨s.left ++ [added.1], comp.newChunk, { added.2 with isNewInput := false }⟩ := by
  rw [insertStep, CharChunk.addCompositionInput, if_pos (by simpa using h)]

theorem insertInput_ok_iff {forms : CharacterForms} (hne : ¬input.isEmpty = true) :
    (∃ result, comp.insertInput forms fuel pos input = .ok result) ↔
      ∃ left, run (comp.insertStep fuel) fuel (comp.insertionAt forms pos input).1
        = some (.ok left) := by
  unfold insertInput
  rw [if_neg hne]
  dsimp only
  cases run (comp.insertStep fuel) fuel (comp.insertionAt forms pos input).1 with
  | none => simp
  | some inserted =>
    cases inserted with
    | error failure => simp
    | ok left => simp

/-- The first new chunk takes all that is left. -/
theorem insertInput_of_conversion {forms : CharacterForms} (h : input.conversion ≠ []) :
    ∃ result, comp.insertInput forms 2 pos input = .ok result := by
  have hne : ¬input.isEmpty = true := by simp [CompositionInput.isEmpty, h]
  have hrun : ∀ s : Insertion, s.input.conversion ≠ [] →
      ∃ left, run (comp.insertStep 2) 2 s = some (.ok left) := by
    intro s hs
    have hfirst := @insertStep_of_conversion comp s hs 2
    dsimp only at hfirst
    by_cases hall : (s.chunk.addInputAndConvertedChar s.input).2.isEmpty = true
    · rw [if_pos hall] at hfirst
      exact ⟨_, run_of_inr hfirst 1⟩
    · rw [if_neg hall] at hfirst
      have hrest := (addInputAndConvertedChar_rest s.chunk hs).resolve_left hall
      rw [run_of_inl hfirst 1]
      have hsecond := @insertStep_of_conversion comp ⟨s.left ++
        [(s.chunk.addInputAndConvertedChar s.input).1], comp.newChunk,
        { (s.chunk.addInputAndConvertedChar s.input).2 with isNewInput := false }⟩ hrest 2
      dsimp only at hsecond
      rw [if_pos (addInputAndConvertedChar_newChunk _)] at hsecond
      exact ⟨_, run_of_inr hsecond 0⟩
  exact (insertInput_ok_iff hne).mpr (hrun (comp.insertionAt forms pos input).1 h)

/-- **One input is taken if and only if the one loop ends with all of it taken.** -/
theorem insertInput_returns_iff {forms : CharacterForms} :
    (∃ fuel result, comp.insertInput forms fuel pos input = .ok result) ↔
      ∀ start, comp.typingStart forms pos input = some start →
        ∃ c, Returns comp.typeStep start (some c) := by
  by_cases hempty : input.isEmpty = true
  · constructor
    · intro _ start hstart
      simp [typingStart, hempty] at hstart
    · intro _
      exact ⟨0, _, if_pos hempty⟩
  by_cases hconversion : input.conversion = []
  · -- the input is typed
    have hinput : (comp.insertionAt forms pos input).1.input = input := rfl
    simp only [insertInput_ok_iff hempty]
    rw [typingStart, if_neg (by simp [hempty, hconversion])]
    dsimp only
    by_cases hnew : (comp.insertionAt forms pos input).1.chunk.shouldInsertNewChunk input = true
    · -- a new chunk is inserted at once
      have hfirst : ∀ fuel, comp.insertStep fuel (comp.insertionAt forms pos input).1 =
          .inl ⟨(comp.insertionAt forms pos input).1.left ++
            [(comp.insertionAt forms pos input).1.chunk], comp.newChunk,
            { input with isNewInput := false }⟩ := by
        intro fuel
        rw [insertStep, CharChunk.addCompositionInput, hinput, if_neg (by simp [hconversion]),
          if_pos hnew]
        dsimp only
        rw [if_neg hempty]
      rw [if_pos hnew]
      simp only [Option.some.injEq, forall_eq']
      simp only [typeStep, returns_flatten_iff]
      have hnext := fun fuel n => @run_insertStep_iff fuel comp n
        ⟨(comp.insertionAt forms pos input).1.left ++
          [(comp.insertionAt forms pos input).1.chunk], comp.newChunk,
          { input with isNewInput := false }⟩ hconversion rfl
      constructor
      · rintro ⟨fuel, left, h⟩
        cases fuel with
        | zero => cases h
        | succ fuel =>
          rw [run_of_inl (hfirst _)] at h
          obtain ⟨c, hc⟩ := (hnext (fuel + 1) (fuel + 1)).mp
            ⟨left, run_insertStep_mono (Nat.le_refl _) (Nat.le_succ fuel) h⟩
          exact ⟨c, fuel + 1, hc⟩
      · rintro ⟨c, fuel, hc⟩
        obtain ⟨left, h⟩ := (hnext fuel fuel).mpr ⟨c, hc⟩
        refine ⟨fuel + 1, left, ?_⟩
        rw [run_of_inl (hfirst _)]
        exact run_insertStep_mono (Nat.le_succ fuel) (Nat.le_refl fuel) h
    · rw [if_neg hnew]
      simp only [Option.some.injEq, forall_eq']
      simp only [typeStep, returns_flatten_iff]
      rw [Bool.not_eq_true] at hnew
      exact (exists_congr fun fuel => run_insertStep_iff hconversion hnew).trans exists_comm
  · constructor
    · intro _ start hstart
      rw [typingStart, if_pos (by simp [hconversion])] at hstart
      cases hstart
    · intro _
      exact ⟨2, insertInput_of_conversion hconversion⟩

/-! ## The tables of the chunks -/

/-- All chunks are of the composition's table. -/
def SameTable (comp : Composition) : Prop := ∀ c ∈ comp.chunks, c.table = comp.table

/-- The chunks that point to the composition's table are of that table. -/
def SamePointers (comp : Composition) : Prop :=
  ∀ c ∈ comp.chunks, c.table.id = comp.table.id → c.table = comp.table

theorem SameTable.pointers (h : comp.SameTable) : comp.SamePointers := fun c hc _ => h c hc

variable {forms : CharacterForms} {P : SharedTable → Prop}

theorem splitChunk_table {c left right : CharChunk} {t12r : Transliterator} {position : Nat}
    (h : c.splitChunk forms t12r position = some (left, right)) :
    left.table = c.table ∧ right.table = c.table := by
  unfold CharChunk.splitChunk at h
  dsimp only at h
  split_ifs at h
  · cases h
    exact ⟨rfl, rfl⟩
  · cases h
    exact ⟨rfl, rfl⟩
  · cases h
    exact ⟨rfl, rfl⟩

theorem maybeSplitChunkAt_table {chunks : List CharChunk} {position : Nat}
    (h : ∀ c ∈ chunks, P c.table) :
    (∀ c ∈ (maybeSplitChunkAt forms chunks position).1, P c.table) ∧
      ∀ c ∈ (maybeSplitChunkAt forms chunks position).2, P c.table := by
  unfold maybeSplitChunkAt
  split
  · exact ⟨fun c hc => (by cases hc), fun c hc => (by cases hc)⟩
  · next found hfound =>
    rw [← getChunkAt_chunks hfound] at h
    simp only [List.mem_append, List.mem_cons] at h
    split
    · rw [← getChunkAt_chunks hfound]
      exact ⟨fun c hc => (by cases hc), fun c hc => h c (by simpa using hc)⟩
    · split
      · refine ⟨fun c hc => h c ?_, fun c hc => h c (Or.inr (Or.inr hc))⟩
        rw [List.mem_append, List.mem_singleton] at hc
        exact hc.imp_right Or.inl
      · split
        · next left right hsplit =>
          obtain ⟨hl, hr⟩ := splitChunk_table hsplit
          have hchunk := h found.chunk (Or.inr (Or.inl rfl))
          refine ⟨fun c hc => ?_, fun c hc => ?_⟩
          · rw [List.mem_append, List.mem_singleton] at hc
            rcases hc with hc | rfl
            · exact h c (Or.inl hc)
            · rwa [hl]
          · rw [List.mem_cons] at hc
            rcases hc with rfl | hc
            · rwa [hr]
            · exact h c (Or.inr (Or.inr hc))
        · exact ⟨fun c hc => h c (Or.inl hc), fun c hc => h c (Or.inr (List.mem_cons.mp hc))⟩

theorem getInsertionChunk_table (h : ∀ c ∈ left, P c.table) :
    (∀ c ∈ (comp.getInsertionChunk left).1, P c.table) ∧
      ((comp.getInsertionChunk left).2.table = comp.table ∨
        (comp.getInsertionChunk left).2.table.id = comp.table.id ∧
          P (comp.getInsertionChunk left).2.table) := by
  unfold getInsertionChunk
  split
  · exact ⟨fun c hc => (by cases hc), Or.inl rfl⟩
  · next last hlast =>
    split
    · next happendable =>
      unfold CharChunk.isAppendable at happendable
      rw [Bool.and_eq_true, decide_eq_true_eq] at happendable
      exact ⟨fun c hc => h c (List.mem_of_mem_dropLast hc),
        Or.inr ⟨happendable.2.symm, h last (List.mem_of_getLast? hlast)⟩⟩
    · exact ⟨h, Or.inl rfl⟩

theorem combineFrom_table {nextInput : Bytes} : ∀ {left : List CharChunk} {it : CharChunk},
    (∀ c ∈ left, P c.table) → (∀ c ∈ (comp.combineFrom nextInput left it).1, P c.table) ∧
      (comp.combineFrom nextInput left it).2.table = it.table
  | [], it, h => ⟨h, rfl⟩
  | leftIt :: rest, it, h => by
    rw [combineFrom]
    split
    · exact @combineFrom_table nextInput rest (it.combine leftIt) (List.forall_mem_cons.mp h).2
    · exact ⟨h, rfl⟩

theorem combinePendingChunks_table {it : CharChunk} (h : ∀ c ∈ left, P c.table) :
    (∀ c ∈ (comp.combinePendingChunks left it input).1, P c.table) ∧
      (comp.combinePendingChunks left it input).2.table = it.table := by
  unfold combinePendingChunks
  split
  · exact ⟨h, rfl⟩
  · have hcombined := fun nextInput => @combineFrom_table comp P nextInput left.reverse it
      fun c hc => h c (List.mem_reverse.mp hc)
    exact ⟨fun c hc => (hcombined _).1 c (List.mem_reverse.mp hc), (hcombined _).2⟩

theorem insertionAt_table (h : ∀ c ∈ comp.chunks, P c.table) :
    (∀ c ∈ (comp.insertionAt forms pos input).1.left, P c.table) ∧
      ((comp.insertionAt forms pos input).1.chunk.table = comp.table ∨
        (comp.insertionAt forms pos input).1.chunk.table.id = comp.table.id ∧
          P (comp.insertionAt forms pos input).1.chunk.table) ∧
      ∀ c ∈ (comp.insertionAt forms pos input).2, P c.table := by
  have hsplit := @maybeSplitChunkAt_table forms P comp.chunks pos h
  unfold insertionAt
  dsimp only
  generalize maybeSplitChunkAt forms comp.chunks pos = sides at hsplit ⊢
  obtain ⟨left, right⟩ := sides
  have hgot := @getInsertionChunk_table (left ++ right.takeWhile fun c =>
      decide (c.getLength forms comp.inputT12r = 0)) comp P (by
    intro c hc
    rcases List.mem_append.mp hc with hc | hc
    · exact hsplit.1 c hc
    · exact hsplit.2 c (List.takeWhile_subset _ hc))
  generalize comp.getInsertionChunk _ = got at hgot ⊢
  obtain ⟨left', chunk⟩ := got
  obtain ⟨hleft, htable⟩ := @combinePendingChunks_table input left' comp P chunk hgot.1
  refine ⟨hleft, ?_, fun c hc => hsplit.2 c (List.dropWhile_subset _ hc)⟩
  rw [htable]
  exact hgot.2

/-- The chunk that takes the input is of the composition's table. -/
theorem insertionAt_chunk_table (h : comp.SamePointers) :
    (comp.insertionAt forms pos input).1.chunk.table = comp.table := by
  rcases (insertionAt_table (P := fun table => table.id = comp.table.id → table = comp.table)
    h).2.1 with heq | ⟨hid, heq⟩
  · exact heq
  · exact heq hid

theorem addInputInternal_result_table {s t : CharChunk × Bytes}
    (h : CharChunk.addInputInternal s = .inr (some t)) : t.1.table = s.1.table := by
  obtain ⟨c, input⟩ := s
  cases hentry : (c.table.table.lookUpPrefix (c.pending ++ input)).entry with
  | none =>
    rw [addInputInternal_of_none hentry] at h
    unfold CharChunk.addUnmatchedInput at h
    dsimp only at h
    split_ifs at h <;> rw [← Option.some.inj (Sum.inr.inj h)]
    rfl
  | some entry =>
    unfold CharChunk.addInputInternal at h
    dsimp only at h
    rw [hentry] at h
    dsimp only at h
    split_ifs at h
    · cases h
    · rw [← Option.some.inj (Sum.inr.inj h)]
      exact takeEntry_table ..
    · rw [← Option.some.inj (Sum.inr.inj h)]
      exact takeEntry_table ..

theorem addInputAndConvertedChar_table (c : CharChunk) (input : CompositionInput) :
    (c.addInputAndConvertedChar input).1.table = c.table := by
  unfold CharChunk.addInputAndConvertedChar
  dsimp only
  split
  · split <;> rfl
  · split
    · split <;> rfl
    · split
      · rfl
      · split
        · split <;> rfl
        · split <;> rfl

theorem addCompositionInput_table {c c' : CharChunk} {input' : CompositionInput}
    (h : c.addCompositionInput fuel input = .ok (c', input')) : c'.table = c.table := by
  unfold CharChunk.addCompositionInput CharChunk.addInput at h
  split at h
  · rw [← addInputAndConvertedChar_table c input, Except.ok.inj h]
  · split at h
    · rw [(Prod.mk.inj (Except.ok.inj h)).1]
    · cases hrun : run CharChunk.addInputInternal fuel (c, input.raw) with
      | none =>
        simp [hrun] at h
      | some added =>
        rw [hrun] at h
        cases added with
        | none => cases h
        | some added =>
          obtain ⟨s, hs, hleft⟩ := (returns_of_run hrun).invariant
            (I := fun s => s.1.table = c.table)
            (fun s t hs ht => (addInputInternal_table ht).trans hs) rfl
          rw [← (Prod.mk.inj (Except.ok.inj h)).1, addInputInternal_result_table hleft, hs]

theorem forall_mem_snoc {P : CharChunk → Prop} {c : CharChunk} (hleft : ∀ c ∈ left, P c)
    (hc : P c) : ∀ c' ∈ left ++ [c], P c' := by
  intro c' hc'
  rcases List.mem_append.mp hc' with hc' | hc'
  · exact hleft c' hc'
  · rw [List.mem_singleton.mp hc']
    exact hc

theorem insertInput_table (hpointers : comp.SamePointers) (hnew : P comp.table)
    (hall : ∀ c ∈ comp.chunks, P c.table) (h : comp.insertInput forms fuel pos input = .ok result) :
    (∀ c ∈ result.1.chunks, P c.table) ∧ result.1.table = comp.table := by
  unfold insertInput at h
  split at h
  · rw [← Except.ok.inj h]
    exact ⟨hall, rfl⟩
  · obtain ⟨hleft, -, hright⟩ := @insertionAt_table input pos comp forms P hall
    have hchunk := @insertionAt_chunk_table input pos comp forms hpointers
    dsimp only at h
    generalize comp.insertionAt forms pos input = at' at h hleft hchunk hright
    split at h
    · cases h
    · cases h
    · next left hrun =>
      rw [← Except.ok.inj h]
      -- every chunk that the loop leaves behind is of the table
      have hstep : ∀ s t : Insertion,
          (∀ c ∈ s.left, P c.table) ∧ s.chunk.table = comp.table →
          comp.insertStep fuel s = .inl t →
          (∀ c ∈ t.left, P c.table) ∧ t.chunk.table = comp.table := by
        rintro s t ⟨hs, hs'⟩ ht
        rw [insertStep] at ht
        split at ht
        · cases ht
        · next c input hadd =>
          have hc := ((addCompositionInput_table hadd).trans hs').symm ▸ hnew
          split at ht
          · cases ht
          · rw [← Sum.inl.inj ht]
            exact ⟨forall_mem_snoc hs hc, rfl⟩
      obtain ⟨s, ⟨hs, hs'⟩, hlast⟩ := (returns_of_run hrun).invariant hstep ⟨hleft, hchunk⟩
      refine ⟨?_, rfl⟩
      rw [insertStep] at hlast
      split at hlast
      · cases hlast
      · next c input hadd =>
        have hc := ((addCompositionInput_table hadd).trans hs').symm ▸ hnew
        split at hlast
        · rw [← Except.ok.inj (Sum.inr.inj hlast)]
          intro c' hc'
          rcases List.mem_append.mp hc' with hc' | hc'
          · split at hc'
            · exact hs c' hc'
            · exact forall_mem_snoc hs hc c' hc'
          · exact hright c' hc'
        · cases hlast

theorem insertInput_sameTable (hsame : comp.SameTable)
    (h : comp.insertInput forms fuel pos input = .ok result) :
    result.1.SameTable ∧ result.1.table = comp.table := by
  obtain ⟨hall, htable⟩ :=
    insertInput_table (P := fun table => table = comp.table) hsame.pointers rfl hsame h
  exact ⟨fun c hc => (hall c hc).trans htable.symm, htable⟩

theorem insertInput_pointers (hpointers : comp.SamePointers)
    (h : comp.insertInput forms fuel pos input = .ok result) : result.1.SamePointers := by
  obtain ⟨hall, htable⟩ := insertInput_table
    (P := fun table => table.id = comp.table.id → table = comp.table) hpointers (fun _ => rfl)
    hpointers h
  intro c hc hid
  rw [htable] at hid ⊢
  exact hall c hc hid

theorem press_sameTable {key : Keystroke} {comp' : Composition} (hsame : comp.SameTable)
    (h : comp.press forms fuel key = .ok comp') :
    comp'.SameTable ∧ comp'.table = comp.table := by
  cases key with
  | setInputMode t12r =>
    rw [← Except.ok.inj h]
    exact ⟨hsame, rfl⟩
  | insertInput pos input =>
    rw [press] at h
    cases hinsert : comp.insertInput forms fuel pos input with
    | error failure =>
      rw [hinsert] at h
      cases h
    | ok result =>
      rw [hinsert] at h
      rw [← Except.ok.inj h]
      exact insertInput_sameTable hsame hinsert

theorem typingStart_table {start : CharChunk × Bytes} (hpointers : comp.SamePointers)
    (h : comp.typingStart forms pos input = some start) :
    start.1.table = comp.table := by
  unfold typingStart at h
  split at h
  · cases h
  · dsimp only at h
    split at h
    · rw [← Option.some.inj h]
      rfl
    · rw [← Option.some.inj h]
      exact insertionAt_chunk_table hpointers

/-! ## Keystrokes one after another -/

theorem press_mono {fuel' : Nat} {key : Keystroke} {comp' : Composition}
    (h : comp.press forms fuel key = .ok comp') (hle : fuel ≤ fuel') :
    comp.press forms fuel' key = .ok comp' := by
  cases key with
  | setInputMode t12r => exact h
  | insertInput pos input =>
    rw [press] at h ⊢
    cases hinsert : comp.insertInput forms fuel pos input with
    | error failure =>
      rw [hinsert] at h
      cases h
    | ok result =>
      rw [insertInput_mono hinsert hle]
      rwa [hinsert] at h

theorem pressAll_mono {fuel' : Nat} (hle : fuel ≤ fuel') :
    ∀ {keys : List Keystroke} {comp comp' : Composition},
    comp.pressAll forms fuel keys = .ok comp' → comp.pressAll forms fuel' keys = .ok comp'
  | [], _, _, h => h
  | key :: keys, comp, comp', h => by
    rw [pressAll] at h ⊢
    cases hpress : comp.press forms fuel key with
    | error failure =>
      simp [hpress] at h
    | ok next =>
      rw [hpress] at h
      rw [press_mono hpress hle]
      exact pressAll_mono hle h

/-- An input is taken if and only if every step of it goes on. -/
theorem insertInput_goesOn_iff (hpointers : comp.SamePointers) :
    (∃ fuel result, comp.insertInput forms fuel pos input = .ok result) ↔
      ∀ start, comp.typingStart forms pos input = some start →
        ∀ s, Reaches comp.typeStep start s → GoesOn s := by
  rw [insertInput_returns_iff]
  exact forall_congr' fun start => forall_congr' fun hstart =>
    returns_typeStep_iff (typingStart_table hpointers hstart)

theorem press_returns_iff {key : Keystroke} (hsame : comp.SameTable) :
    (∃ fuel comp', comp.press forms fuel key = .ok comp') ↔
      ∀ s, Steps forms comp [key] s → GoesOn s := by
  cases key with
  | setInputMode t12r =>
    constructor
    · rintro - s (_ | ⟨-, hs⟩)
      cases hs
    · intro _
      exact ⟨0, _, rfl⟩
  | insertInput pos input =>
    have hinsert : (∃ fuel comp', comp.press forms fuel (.insertInput pos input) = .ok comp') ↔
        ∃ fuel result, comp.insertInput forms fuel pos input = .ok result := by
      refine exists_congr fun fuel => ?_
      rw [press]
      cases comp.insertInput forms fuel pos input with
      | error failure => simp [Except.map]
      | ok result => simp [Except.map]
    rw [hinsert, insertInput_goesOn_iff hsame.pointers]
    constructor
    · intro h s hs
      cases hs with
      | here hstart hreach => exact h _ hstart s hreach
      | later _ hs => cases hs
    · exact fun h start hstart s hs => h s (.here hstart hs)

theorem pressAll_returns_iff : ∀ {keys : List Keystroke} {comp : Composition}, comp.SameTable →
    ((∃ fuel comp', comp.pressAll forms fuel keys = .ok comp') ↔
      ∀ s, Steps forms comp keys s → GoesOn s)
  | [], comp, hsame => by
    constructor
    · intro _ s hs
      cases hs
    · intro _
      exact ⟨0, comp, rfl⟩
  | key :: keys, comp, hsame => by
    constructor
    · rintro ⟨fuel, comp', h⟩ s hs
      rw [pressAll] at h
      cases hpress : comp.press forms fuel key with
      | error failure =>
        simp [hpress] at h
      | ok next =>
        rw [hpress] at h
        cases hs with
        | here hstart hreach =>
          exact (press_returns_iff hsame).mp ⟨fuel, next, hpress⟩ s (.here hstart hreach)
        | @later _ next' _ _ fuel' _ hpress' hs =>
          -- the same composition whatever the fuel
          have heq := press_mono hpress (Nat.le_max_left fuel fuel')
          rw [press_mono hpress' (Nat.le_max_right fuel fuel')] at heq
          rw [Except.ok.inj heq] at hs
          exact (pressAll_returns_iff (press_sameTable hsame hpress).1).mp ⟨fuel, comp', h⟩ s hs
    · intro h
      have hkey : ∀ s, Steps forms comp [key] s → GoesOn s := by
        intro s hs
        cases hs with
        | here hstart hreach => exact h s (.here hstart hreach)
        | later _ hs => cases hs
      obtain ⟨fuel, next, hpress⟩ := (press_returns_iff hsame).mpr hkey
      obtain ⟨fuel', comp', hrest⟩ := (pressAll_returns_iff (press_sameTable hsame hpress).1).mpr
        fun s hs => h s (.later hpress hs)
      refine ⟨max fuel fuel', comp', ?_⟩
      rw [pressAll, press_mono hpress (Nat.le_max_left fuel fuel')]
      exact pressAll_mono (Nat.le_max_right fuel fuel') hrest

/-- **All keystrokes are taken, and no rule is found that is shorter than the pending text, if and
only if every step goes on.** -/
theorem typing_total_iff (forms : CharacterForms) (table : SharedTable) (t12r : Transliterator)
    (keys : List Keystroke) :
    ((∃ fuel comp', pressAll forms fuel ⟨table, t12r, []⟩ keys = .ok comp') ∧
        ∀ c input, Steps forms ⟨table, t12r, []⟩ keys (c, input) →
          (c.table.table.lookUpPrefix (c.pending ++ input)).entry.isSome →
          c.pending.length ≤ (c.table.table.lookUpPrefix (c.pending ++ input)).keyLength) ↔
      ∀ s, Steps forms ⟨table, t12r, []⟩ keys s → GoesOn s := by
  have hsame : SameTable ⟨table, t12r, []⟩ := fun c hc => by cases hc
  rw [pressAll_returns_iff hsame]
  constructor
  · exact fun h => h.1
  · refine fun h => ⟨h, fun c input hs hsome => ?_⟩
    by_contra hlt
    exact (h _ hs).whole (cutsPending_iff.mpr ⟨hsome, Nat.lt_of_not_le hlt⟩)

/-! ## Tables that cannot be typed with -/

/-- The pending text of the first rule begins with the second one. -/
def cuttingRules : List Rule := [⟨utf8 "a", utf8 "x", utf8 "pq", {}⟩, ⟨utf8 "p", utf8 "z", [], {}⟩]

def cuttingTable : SharedTable := ⟨0, (Table.new.addRules 2 cuttingRules).getD Table.new⟩

/-- A rule without an input. -/
def emptyRules : List Rule := [⟨[], utf8 "あ", [], {}⟩]

def emptyTable : SharedTable := ⟨0, (Table.new.addRules 2 emptyRules).getD Table.new⟩

def sameForms : CharacterForms := ⟨id, id, id, id, id, id, id, id⟩

def typedAt (pos : Nat) (text : Bytes) : Keystroke := .insertInput pos { raw := text }

/-- **The second key cuts the pending text.** -/
theorem typing_not_total : ¬∀ rules fuel table, Table.new.addRules fuel rules = some table →
    ∀ id forms t12r keys, ∃ fuel comp',
      pressAll forms fuel ⟨⟨id, table⟩, t12r, []⟩ keys = .ok comp' := by
  intro h
  have hall := h cuttingRules 2 cuttingTable.table (by rfl) 0 sameForms .conversionString
    [typedAt 0 (utf8 "a"), typedAt 3 (utf8 "b")]
  have hsame : SameTable ⟨⟨0, cuttingTable.table⟩, .conversionString, []⟩ := fun c hc => by cases hc
  have hgo := (pressAll_returns_iff hsame).mp hall _
    (.later (show press sameForms 2 _ _ = .ok _ from rfl)
      (.here (show typingStart sameForms _ _ _ = some _ from rfl) .refl))
  exact hgo.whole ⟨1, by decide, by decide, by decide⟩

/-- A key for which there is no rule begins one new chunk after another. -/
theorem emptyTable_hangs : ¬∃ fuel comp',
    pressAll sameForms fuel ⟨emptyTable, .conversionString, []⟩ [typedAt 0 (utf8 "a")]
      = .ok comp' := by
  intro h
  have hsame : SameTable ⟨emptyTable, .conversionString, []⟩ := fun c hc => by cases hc
  have hgo := (pressAll_returns_iff hsame).mp h _
    (.here (show typingStart sameForms _ _ _ = some _ from rfl) .refl)
  exact hgo.moves (by decide) (.single (show Table.idle _ _ _ = _ by decide))

end Composition

end Mozkey.Composer
