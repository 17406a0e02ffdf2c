import Mozkey.Zenz.AdoptionPolicy

/-!
# What a step of the decision does

A step that is not the last one either leaves a span behind, having checked it (`Passes`), or
is an iteration of the repair loop (`Repairs`). The last step looks at the order of the located
names and at the orthography (`step_accepts`).

What is checked of a span is `Guaranteed`.
-/

namespace Mozkey.Zenz.AdoptionPolicy

open Infra Base

variable {input : ZenzAdoptionInput} {span : ProtectedConversionSpan} {c c' : Config} {v : Bytes}

/-! ## What is checked -/

/-- The value keeps the surface of the span. The number of a literal is not compared when the
edge anchors hold. -/
def Guaranteed (input : ZenzAdoptionInput) (span : ProtectedConversionSpan) (value : Bytes) :
    Prop :=
  match span.tier with
  | .identityCritical | .userPreferred =>
    span.required ≤ countBoundaryPreservedOccurrences value span.value
  | .numericLiteral =>
    (span.numericPreeditOnly = true ∧
      checkMixedNumericEdgeAnchors input span.value value = .preserved) ∨
    (countOccurrences value span.value = countOccurrences input.mozcValue span.value ∧
      numericLiteralContextsMatch input.mozcValue value span.value = true)
  | .systemProperNoun => countOccurrences value span.value = 1

/-- Where a system name is in Mozc's value, when that is known. -/
def location (span : ProtectedConversionSpan) : Option Nat :=
  if span.value ≠ [] ∧ span.tier = .systemProperNoun then span.sourceValueOffset else none

/-- The entry of a located name in the table of positions. -/
def namePositions (value : Bytes) (span : ProtectedConversionSpan) : List (Nat × Nat) :=
  match location span with
  | none => []
  | some before => [(before, (find span.value value 0).getD 0)]

/-! ## The checks of the tiers -/

variable {value : Bytes} {rest : List ProtectedConversionSpan}

theorem checkNumericOccurrences_none (h : checkNumericOccurrences input span value = none) :
    countOccurrences value span.value = countOccurrences input.mozcValue span.value ∧
      numericLiteralContextsMatch input.mozcValue value span.value = true := by
  unfold checkNumericOccurrences at h
  split at h
  · cases h
  · next hcount =>
    split at h
    · cases h
    · next hctx =>
      rw [not_or, not_not] at hcount
      rw [Bool.not_eq_true', Bool.not_eq_false] at hctx
      exact ⟨hcount.2, hctx⟩

theorem checkNumericLiteral_none (ht : span.tier = .numericLiteral)
    (h : checkNumericLiteral input span value = none) : Guaranteed input span value := by
  rw [Guaranteed, ht]
  unfold checkNumericLiteral at h
  split at h
  · next hp =>
    split at h
    · next hm => exact Or.inl ⟨hp, hm⟩
    · cases h
    · exact Or.inr (checkNumericOccurrences_none h)
  · exact Or.inr (checkNumericOccurrences_none h)

/-- A checked name occurs once, and its position is the one recorded. -/
theorem checkSystemName_ok {positions : List (Nat × Nat)} (hv : span.value ≠ [])
    (ht : span.tier = .systemProperNoun) (h : checkSystemName input span value = .ok positions) :
    countOccurrences value span.value = 1 ∧ positions = namePositions value span := by
  unfold checkSystemName at h
  split at h
  · cases h
  · next hcount =>
    rw [not_or, not_or, not_not, not_not, not_not] at hcount
    refine ⟨hcount.2.2, ?_⟩
    rw [namePositions, location, if_pos ⟨hv, ht⟩]
    cases ho : span.sourceValueOffset with
    | none =>
      simp only [ho, Except.ok.injEq] at h
      exact h.symm
    | some before =>
      simp only [ho] at h
      split at h
      · cases h
      · split at h
        · cases h
        · simp only [Except.ok.injEq] at h
          exact h.symm

/-! ## Steps -/

/-- The span is left behind, and holds of the value. -/
structure Passes (input : ZenzAdoptionInput) (span : ProtectedConversionSpan) (c c' : Config) :
    Prop where
  checked : c'.checked = c.checked ++ [span]
  remaining : c.remaining = span :: c'.remaining
  guaranteed : span.value ≠ [] → Guaranteed input span c'.adoptedValue
  positions : c'.systemNamePositions =
    c.systemNamePositions ++ namePositions c'.adoptedValue span
  /-- Only a repair changes the value. -/
  unrepaired : c'.protectedSurfaceRepaired = false →
    c.protectedSurfaceRepaired = false ∧ c'.adoptedValue = c.adoptedValue

/-- One iteration of the repair loop. -/
structure Repairs (input : ZenzAdoptionInput) (span : ProtectedConversionSpan) (c c' : Config) :
    Prop where
  remaining : ∃ rest, c.remaining = span :: rest
  below : countBoundaryPreservedOccurrences c.adoptedValue span.value < span.required
  iteration : repairIteration input span c.adoptedValue = some c'.adoptedValue
  frame : c' = { c with adoptedValue := c'.adoptedValue, protectedSurfaceRepaired := true }

theorem advance_checked (h : c.remaining = span :: rest) :
    c.advance = { c with checked := c.checked ++ [span], remaining := rest } := by
  rw [Config.advance, h]

/-- A span that is left behind with the value as it is. -/
theorem passes_advance (h : c.remaining = span :: rest) (hloc : location span = none)
    (hg : span.value ≠ [] → Guaranteed input span c.adoptedValue) :
    Passes input span c c.advance := by
  rw [advance_checked h]
  refine ⟨rfl, h, hg, ?_, fun hr => ⟨hr, rfl⟩⟩
  rw [namePositions, hloc]
  exact (List.append_nil _).symm

theorem location_of_tier_ne (ht : span.tier ≠ .systemProperNoun) : location span = none :=
  if_neg fun h => ht h.2

theorem stepSurface_inl (h : c.remaining = span :: rest)
    (ht : span.tier = .identityCritical ∨ span.tier = .userPreferred)
    (hs : stepSurface input span c = .inl c') :
    Passes input span c c' ∨ Repairs input span c c' := by
  unfold stepSurface at hs
  split at hs
  · next hbelow =>
    split at hs
    · next repaired hr =>
      rw [Sum.inl.injEq] at hs
      subst hs
      exact Or.inr ⟨⟨rest, h⟩, hbelow, hr, rfl⟩
    · cases hs
  · next hdone =>
    rw [Sum.inl.injEq] at hs
    subst hs
    refine Or.inl (passes_advance h ?_ fun _ => ?_)
    · rcases ht with ht | ht <;> exact location_of_tier_ne (by rw [ht]; decide)
    · rcases ht with ht | ht <;> simpa [Guaranteed, ht] using hdone

theorem repairSystemName_unrepaired (h : (repairSystemName input span value).2 = false) :
    (repairSystemName input span value).1 = value := by
  unfold repairSystemName at h ⊢
  split at h
  · next hc =>
    rw [if_pos hc]
    split at h
    · rfl
    · cases h
  · next hc => rw [if_neg hc]

theorem stepSystemName_inl (h : c.remaining = span :: rest) (hv : span.value ≠ [])
    (ht : span.tier = .systemProperNoun) (hs : stepSystemName input span c = .inl c') :
    Passes input span c c' := by
  unfold stepSystemName at hs
  split at hs
  next value repaired hrep =>
  split at hs
  · cases hs
  · next positions hcheck =>
    rw [Sum.inl.injEq] at hs
    subst hs
    obtain ⟨hcount, hpos⟩ := checkSystemName_ok hv ht hcheck
    rw [advance_checked h]
    refine ⟨rfl, h, fun _ => by rw [Guaranteed, ht]; exact hcount, by rw [hpos], fun hr => ?_⟩
    rw [Bool.or_eq_false_iff] at hr
    have hval := @repairSystemName_unrepaired input span c.adoptedValue
    rw [hrep] at hval
    exact ⟨hr.1, hval hr.2⟩

/-- **A step that is not the last leaves a span behind or is an iteration of the repair loop.** -/
theorem step_inl (hs : step input c = .inl c') :
    ∃ span, Passes input span c c' ∨ Repairs input span c c' := by
  unfold step at hs
  split at hs
  · cases hs
  · next span rest hrem =>
    refine ⟨span, ?_⟩
    split at hs
    · next hempty =>
      rw [Sum.inl.injEq] at hs
      subst hs
      have hv : span.value = [] := List.isEmpty_iff.mp hempty
      exact Or.inl (passes_advance hrem (if_neg fun hl => hl.1 hv) fun hne => absurd hv hne)
    · next hempty =>
      have hv : span.value ≠ [] := fun he => hempty (by rw [he]; rfl)
      cases ht : span.tier with
      | identityCritical =>
        simp only [ht] at hs
        exact stepSurface_inl hrem (Or.inl ht) hs
      | userPreferred =>
        simp only [ht] at hs
        exact stepSurface_inl hrem (Or.inr ht) hs
      | systemProperNoun =>
        simp only [ht] at hs
        exact Or.inl (stepSystemName_inl hrem hv ht hs)
      | numericLiteral =>
        simp only [ht] at hs
        split at hs
        · next hn =>
          rw [Sum.inl.injEq] at hs
          subst hs
          refine Or.inl (passes_advance hrem (location_of_tier_ne (by rw [ht]; decide)) ?_)
          exact fun _ => checkNumericLiteral_none ht hn
        · cases hs

/-! ## The last step -/

theorem repairOrthography_unrepaired : ∀ {segments : List ZenzProjectedSegment} {value : Bytes},
    repairOrthography segments = some (value, false) → value = segments.flatMap (·.zenzValue)
  | [], value, h => by
    rw [repairOrthography, Option.some.injEq, Prod.mk.injEq] at h
    exact h.1.symm
  | segment :: rest, value, h => by
    rw [repairOrthography] at h
    split at h
    · cases hrest : repairOrthography rest with
      | none => rw [hrest] at h; cases h
      | some out =>
        obtain ⟨tail, repaired⟩ := out
        rw [hrest, Option.map_some, Option.some.injEq, Prod.mk.injEq] at h
        obtain ⟨hv, rfl⟩ := h
        simp [← hv, repairOrthography_unrepaired hrest]
    · split at h
      · cases h
      · cases hrest : repairOrthography rest with
        | none => rw [hrest] at h; cases h
        | some out => rw [hrest] at h; simp at h

/-- The orthography was repaired segment by segment, or the whole value is allowed. -/
theorem checkOrthography_ok {out : Bytes} {repaired : Bool}
    (h : checkOrthography input value = .ok (out, repaired)) :
    (∃ segments, baselineSegmentsMatchAdoptionInput input.baselineSegments input.key
        input.mozcValue = true ∧
      projectZenzValueToMozcSegments input.baselineSegments input.key value = some segments ∧
      repairOrthography segments = some (out, repaired)) ∨
    ((OrthographyPolicy.evaluate input.mozcValue value).allow = true ∧ out = value ∧
      repaired = false ∧
      (baselineSegmentsMatchAdoptionInput input.baselineSegments input.key input.mozcValue = true →
        projectZenzValueToMozcSegments input.baselineSegments input.key value = none)) := by
  unfold checkOrthography at h
  dsimp only at h
  split at h
  · next hmatch =>
    split at h
    · next segments hproj =>
      split at h
      · next o hrep =>
        rw [Except.ok.injEq] at h
        exact Or.inl ⟨segments, hmatch, hproj, h ▸ hrep⟩
      · cases h
    · next hnone =>
      split at h
      · next hallow =>
        rw [Except.ok.injEq, Prod.mk.injEq] at h
        exact Or.inr ⟨hallow, h.1.symm, h.2.symm, fun _ => hnone⟩
      · cases h
  · next hmatch =>
    split at h
    · next hallow =>
      rw [Except.ok.injEq, Prod.mk.injEq] at h
      exact Or.inr ⟨hallow, h.1.symm, h.2.symm, fun hm => absurd hm hmatch⟩
    · split at h <;> cases h

theorem checkOrthography_unrepaired {out : Bytes}
    (h : checkOrthography input value = .ok (out, false)) : out = value := by
  rcases checkOrthography_ok h with ⟨segments, -, hproj, hrep⟩ | ⟨-, hout, -, -⟩
  · rw [repairOrthography_unrepaired hrep, project_zenzValue hproj]
  · exact hout

theorem finish_accepts (hr : (finish input c).action ≠ .reject) :
    secondsIncrease (positionsSorted c.systemNamePositions) = true ∧
      ∃ repaired,
        checkOrthography input c.adoptedValue = .ok ((finish input c).value, repaired) ∧
        ((finish input c).action = .acceptAsIs →
          c.protectedSurfaceRepaired = false ∧ repaired = false) := by
  unfold finish at hr ⊢
  split at hr
  · exact absurd rfl hr
  · next hord =>
    rw [if_neg hord]
    rw [Bool.not_eq_true', Bool.not_eq_false] at hord
    refine ⟨hord, ?_⟩
    cases ho : checkOrthography input c.adoptedValue with
    | error reason =>
      rw [ho] at hr
      exact absurd rfl hr
    | ok out =>
      obtain ⟨value, repaired⟩ := out
      simp only [ho] at hr ⊢
      split at hr
      · exact absurd rfl hr
      · next htr =>
        rw [if_neg htr]
        refine ⟨repaired, rfl, fun ha => ?_⟩
        have hnone : ¬(c.protectedSurfaceRepaired || repaired) = true := by
          intro hrep
          dsimp only at ha
          simp [hrep] at ha
        simpa using hnone

/-- **What was looked at when the value is accepted.** -/
theorem step_accepts {r : ZenzAdoptionResult} (hs : step input c = .inr r)
    (hr : r.action ≠ .reject) : c.remaining = [] ∧ r = finish input c := by
  unfold step at hs
  split at hs
  · next hrem =>
    rw [Sum.inr.injEq] at hs
    exact ⟨hrem, hs.symm⟩
  · next span rest hrem =>
    -- with a span left, the last step is a rejection
    have hreject : ∀ reason, rejectWith input reason ≠ r := by
      rintro reason rfl
      exact hr rfl
    split at hs
    · cases hs
    · cases ht : span.tier with
      | numericLiteral =>
        simp only [ht] at hs
        split at hs
        · cases hs
        · exact absurd (Sum.inr.inj hs) (hreject _)
      | systemProperNoun =>
        simp only [ht, stepSystemName] at hs
        split at hs
        · exact absurd (Sum.inr.inj hs) (hreject _)
        · cases hs
      | identityCritical | userPreferred =>
        simp only [ht, stepSurface] at hs
        split at hs
        · split at hs
          · cases hs
          · exact absurd (Sum.inr.inj hs) (hreject _)
        · cases hs

theorem accepts_iff : Accepts input v ↔
    ∃ r, Returns (step input) (start input) r ∧ r.action ≠ .reject ∧ r.value = v := by
  constructor
  · rintro ⟨fuel, r, hrun, hr, hv⟩
    exact ⟨r, returns_of_run hrun, hr, hv⟩
  · rintro ⟨r, hret, hr, hv⟩
    obtain ⟨fuel, hrun⟩ := hret.exists_run
    exact ⟨fuel, r, hrun, hr, hv⟩

theorem step_of_remaining_nil (h : c.remaining = []) : step input c = .inr (finish input c) := by
  rw [step, h]

/-- An accepted value comes from a configuration without spans to come. -/
theorem Accepts.exists_last (h : Accepts input v) :
    ∃ c, Reaches (step input) (start input) c ∧ c.remaining = [] ∧
      (finish input c).action ≠ .reject ∧ (finish input c).value = v := by
  obtain ⟨r, hret, hr, hv⟩ := accepts_iff.mp h
  obtain ⟨c, hc, hs⟩ := hret.invariant
    (I := Reaches (step input) (start input)) (fun _ _ ht hst => .tail ht hst) .refl
  obtain ⟨hrem, rfl⟩ := step_accepts hs hr
  exact ⟨c, hc, hrem, hr, hv⟩

/-- There is only one such configuration. -/
theorem Accepts.of_last (h : Accepts input v) (hc : Reaches (step input) (start input) c)
    (hrem : c.remaining = []) :
    (finish input c).action ≠ .reject ∧ (finish input c).value = v := by
  obtain ⟨r, hret, hr, hv⟩ := accepts_iff.mp h
  have hlast := (hret.of_reaches hc).of_inr (step_of_remaining_nil hrem)
  rw [← hlast]
  exact ⟨hr, hv⟩

end Mozkey.Zenz.AdoptionPolicy
