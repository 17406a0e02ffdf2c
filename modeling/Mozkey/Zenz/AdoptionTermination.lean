import Mathlib.Algebra.Order.BigOperators.Group.List
import Mathlib.Algebra.Order.Group.Nat
import Mathlib.Data.Prod.Lex
import Mozkey.Infra.Occurrences
import Mozkey.Zenz.AdoptionStep

/-!
# Whether the repair loop ends

An iteration of the repair loop erases text, which shortens the value, or replaces a reading by
its surface, which may lengthen it. When the surface contains the reading, the reading is there
again.

* `decide_terminates_iff` — a decision ends unless there is no end of iterations
  that bring neither one more occurrence of the surface nor a shorter value
* `terminates_of_repairsSettle` — it ends when no reading has a part in common with its surface,
  or one occurrence is enough
-/

namespace Mozkey.Zenz.AdoptionPolicy

open Infra Base

variable {input : ZenzAdoptionInput} {span : ProtectedConversionSpan} {c c' : Config}

/-! ## What an iteration does to the value -/

variable {value repaired : Bytes}

theorem attachedEnd_some {surface boundary : Bytes} {pos stop : Nat}
    (h : attachedEnd value surface boundary pos = some stop) :
    pos + surface.length < stop ∧ stop ≤ value.length := by
  unfold attachedEnd at h
  split at h
  · cases h
  · dsimp only at h
    split at h
    · cases h
    · next boundaryPos hfind =>
      split at h
      · cases h
      · next hne =>
        split at h
        · cases h
          obtain ⟨hle, hlen, -⟩ := find_some hfind
          rw [not_or] at hne
          exact ⟨by omega, hlen⟩
        · cases h

/-- Some text behind an occurrence is erased. -/
theorem tryRepairAttached_some {mozcValue : Bytes}
    (h : tryRepairAttachedProtectedSpan mozcValue span value = some repaired) :
    span.value ≠ [] ∧ ∃ x attached y, attached ≠ [] ∧ value = x ++ span.value ++ (attached ++ y) ∧
      repaired = x ++ span.value ++ y := by
  unfold tryRepairAttachedProtectedSpan at h
  split at h
  · cases h
  · next hempty =>
    have hv : span.value ≠ [] := fun he => hempty (by rw [he]; rfl)
    dsimp only at h
    split at h
    · cases h
    · obtain ⟨pos, hpos, hend⟩ := List.exists_of_findSome?_eq_some h
      obtain ⟨stop, hstop, rfl⟩ := Option.map_eq_some_iff.mp hend
      obtain ⟨hlt, hle⟩ := attachedEnd_some hstop
      obtain ⟨rest, hvalue, htake, hdrop⟩ := split_of_mem_occurrences hpos
      have hrest : rest.length = value.length - (pos + span.value.length) := by
        simp [← hdrop]
      obtain ⟨n, rfl⟩ : ∃ n, stop = pos + span.value.length + n :=
        ⟨stop - (pos + span.value.length), by omega⟩
      refine ⟨hv, value.take pos, rest.take n, rest.drop n, ?_, ?_, ?_⟩
      · intro hnil
        have hlen := congrArg List.length hnil
        rw [List.length_take, List.length_nil] at hlen
        omega
      · simpa using hvalue
      · rw [htake, ← List.drop_drop, hdrop]

/-- A single occurrence of a safe reading is replaced by the surface. -/
theorem tryRepairProtectedSpan_some (h : tryRepairProtectedSpan span value = (repaired, true)) :
    ∃ candidate ∈ repairCandidates span, isRepairCandidateSafe candidate span = true ∧
      ∃ x y, value = x ++ candidate ++ y ∧ repaired = x ++ span.value ++ y := by
  unfold tryRepairProtectedSpan at h
  split at h
  · simp at h
  · next candidate hcand =>
    rw [Prod.mk.injEq] at h
    have hmem := List.mem_of_find?_eq_some hcand
    have hsafe := List.find?_some hcand
    rw [Bool.and_eq_true, decide_eq_true_eq] at hsafe
    obtain ⟨x, y, hxy, hrep⟩ := split_of_countOccurrences_eq_one hsafe.2
    exact ⟨candidate, hmem, hsafe.1, x, y, hxy, by rw [← h.1, hrep]⟩

theorem ne_nil_of_safe {candidate : Bytes} (h : isRepairCandidateSafe candidate span = true) :
    candidate ≠ [] ∧ span.value ≠ [] := by
  constructor
  · rintro rfl
    simp [isRepairCandidateSafe] at h
  · intro hv
    simp [isRepairCandidateSafe, hv] at h

/-- **The two kinds of iterations.** -/
theorem repairIteration_some (h : repairIteration input span value = some repaired) :
    span.value ≠ [] ∧ ((∃ x attached y, attached ≠ [] ∧ value = x ++ span.value ++ (attached ++ y) ∧
      repaired = x ++ span.value ++ y) ∨
    (countOccurrences value span.value < span.required ∧
      ∃ candidate ∈ repairCandidates span, isRepairCandidateSafe candidate span = true ∧
        ∃ x y, value = x ++ candidate ++ y ∧ repaired = x ++ span.value ++ y)) := by
  unfold repairIteration at h
  split at h
  · next hatt =>
    cases h
    obtain ⟨hv, hcut⟩ := tryRepairAttached_some hatt
    exact ⟨hv, Or.inl hcut⟩
  · split at h
    · next hcount =>
      split at h
      next done hrep =>
      split at h
      · next hdone =>
        rw [Option.some.injEq] at h
        subst h hdone
        obtain ⟨candidate, hmem, hsafe, hxy⟩ := tryRepairProtectedSpan_some hrep
        exact ⟨(ne_nil_of_safe hsafe).2, Or.inr ⟨hcount, candidate, hmem, hsafe, hxy⟩⟩
      · cases h
    · cases h

/-! ## Measures -/

/-- The spans to come, something about the span at hand and its value, the length of the value. -/
def headMeasure (f : ProtectedConversionSpan → Bytes → Nat) (c : Config) : Nat × Nat × Nat :=
  (c.remaining.length, match c.remaining with | [] => 0 | span :: _ => f span c.adoptedValue,
    c.adoptedValue.length)

def MeasureLt : Nat × Nat × Nat → Nat × Nat × Nat → Prop :=
  Prod.Lex (· < ·) (Prod.Lex (· < ·) (· < ·))

theorem measureLt_wellFounded : WellFounded MeasureLt :=
  wellFounded_lt.prod_lex (wellFounded_lt.prod_lex wellFounded_lt)

variable {f : ProtectedConversionSpan → Bytes → Nat}

theorem measureLt_of_passes (h : Passes input span c c') :
    MeasureLt (headMeasure f c') (headMeasure f c) := by
  refine Prod.Lex.left _ _ ?_
  rw [h.remaining, List.length_cons]
  omega

theorem measureLt_iff_of_repairs (h : Repairs input span c c') :
    MeasureLt (headMeasure f c') (headMeasure f c) ↔
      f span c'.adoptedValue < f span c.adoptedValue ∨
        f span c'.adoptedValue = f span c.adoptedValue ∧
          c'.adoptedValue.length < c.adoptedValue.length := by
  obtain ⟨rest, hrem⟩ := h.remaining
  have hrem' : c'.remaining = span :: rest := by rw [h.frame, ← hrem]
  rw [MeasureLt, Prod.lex_def, Prod.lex_def]
  simp [headMeasure, hrem, hrem']

/-! ## Iterations that stall -/

/-- How many occurrences of the surface are missing. -/
def shortfall (span : ProtectedConversionSpan) (value : Bytes) : Nat :=
  span.required - countOccurrences value span.value

/-- Fewer occurrences are missing, or as many in a shorter value. -/
def Gains (span : ProtectedConversionSpan) (value repaired : Bytes) : Prop :=
  shortfall span repaired < shortfall span value ∨
    shortfall span repaired = shortfall span value ∧ repaired.length < value.length

/-- The step from here is an iteration of the repair loop that gains nothing. -/
def Stalls (input : ZenzAdoptionInput) (c : Config) : Prop :=
  ∃ span c', step input c = .inl c' ∧ Repairs input span c c' ∧
    ¬Gains span c.adoptedValue c'.adoptedValue

theorem eventually_lt_iff (input : ZenzAdoptionInput) (N : Nat) :
    (∀ n, N ≤ n → ∀ t u, after (step input) n (start input) = some t → step input t = .inl u →
      MeasureLt (headMeasure shortfall u) (headMeasure shortfall t)) ↔
    ∀ n c, N ≤ n → after (step input) n (start input) = some c → ¬Stalls input c := by
  constructor
  · rintro h n c hn hc ⟨span, c', hs, hrep, hno⟩
    exact hno ((measureLt_iff_of_repairs hrep).mp (h n hn c c' hc hs))
  · intro h n hn t u ht hu
    obtain ⟨span, hpass | hrep⟩ := step_inl hu
    · exact measureLt_of_passes hpass
    · rw [measureLt_iff_of_repairs hrep]
      by_contra hno
      exact h n t hn ht ⟨span, u, hu, hrep, hno⟩

/-! ## Readings that settle -/

/-- One occurrence is enough, or no reading that may be replaced has a part in common with the
surface. -/
def RepairsSettle (span : ProtectedConversionSpan) : Prop :=
  span.required ≤ 1 ∨
    ∀ candidate ∈ repairCandidates span, isRepairCandidateSafe candidate span = true →
      ¬Overlaps candidate span.value

/-- The readings that may be replaced, wherever they stand. -/
def readingCount (span : ProtectedConversionSpan) (value : Bytes) : Nat :=
  (((repairCandidates span).filter fun candidate => isRepairCandidateSafe candidate span).map
    fun candidate => overlapCount candidate value).sum

/-- Whether the surface is missing. -/
def missing (span : ProtectedConversionSpan) (value : Bytes) : Nat :=
  if countOccurrences value span.value = 0 then 1 else 0

def unsettled (span : ProtectedConversionSpan) (value : Bytes) : Nat :=
  if span.required ≤ 1 then missing span value else readingCount span value

/-- Without common parts, a surface in the value takes the place of other text. -/
theorem overlapCount_surface_le {candidate x middle y : Bytes}
    (h : ¬Overlaps candidate span.value) :
    overlapCount candidate (x ++ span.value ++ y)
      ≤ overlapCount candidate (x ++ middle ++ y) := by
  have hx : overlapCount candidate x + overlapCount candidate middle
      ≤ overlapCount candidate (x ++ middle) := overlapCount_append_le x middle
  have hy : overlapCount candidate (x ++ middle) + overlapCount candidate y
      ≤ overlapCount candidate (x ++ middle ++ y) := overlapCount_append_le (x ++ middle) y
  rw [overlapCount_append_apart h]
  omega

theorem overlapCount_surface_lt {candidate x y : Bytes} (hne : candidate ≠ [])
    (h : ¬Overlaps candidate span.value) :
    overlapCount candidate (x ++ span.value ++ y)
      < overlapCount candidate (x ++ candidate ++ y) := by
  have hx : overlapCount candidate x + overlapCount candidate (candidate ++ y)
      ≤ overlapCount candidate (x ++ (candidate ++ y)) := overlapCount_append_le x _
  have hc : overlapCount candidate y < overlapCount candidate (candidate ++ y) :=
    overlapCount_self_append_lt hne y
  rw [overlapCount_append_apart h, List.append_assoc]
  omega

/-- The surface is not missing any more. -/
theorem missing_of_present (hv : span.value ≠ []) (h : span.value <:+: value) :
    missing span value = 0 := by
  rw [missing, if_neg]
  intro hzero
  exact (countOccurrences_eq_zero_iff hv value).mp hzero h

theorem missing_gains (hreq : span.required ≤ 1)
    (h : repairIteration input span value = some repaired) :
    missing span repaired < missing span value ∨
      missing span repaired = missing span value ∧ repaired.length < value.length := by
  obtain ⟨hv, hcase⟩ := repairIteration_some h
  rcases hcase with ⟨x, attached, y, hne, rfl, rfl⟩ | ⟨hcount, candidate, -, -, x, y, rfl, rfl⟩
  · -- the surface was there before
    right
    have hpos : 0 < attached.length := List.length_pos_of_ne_nil hne
    rw [missing_of_present hv (List.infix_append x span.value y),
      missing_of_present hv (List.infix_append x span.value (attached ++ y))]
    refine ⟨rfl, ?_⟩
    simp
    omega
  · left
    have hzero : countOccurrences (x ++ candidate ++ y) span.value = 0 := by omega
    rw [missing_of_present hv (List.infix_append x span.value y), missing, if_pos hzero]
    exact Nat.one_pos

theorem readingCount_gains
    (happart : ∀ candidate ∈ repairCandidates span,
      isRepairCandidateSafe candidate span = true → ¬Overlaps candidate span.value)
    (h : repairIteration input span value = some repaired) :
    readingCount span repaired < readingCount span value ∨
      readingCount span repaired ≤ readingCount span value ∧ repaired.length < value.length := by
  have hsafe : ∀ d ∈ (repairCandidates span).filter fun d => isRepairCandidateSafe d span,
      ¬Overlaps d span.value := by
    intro d hd
    obtain ⟨hmem, hs⟩ := List.mem_filter.mp hd
    exact happart d hmem hs
  obtain ⟨-, hcase⟩ := repairIteration_some h
  rcases hcase with ⟨x, attached, y, hne, rfl, rfl⟩ | ⟨-, candidate, hmem, hs, x, y, rfl, rfl⟩
  · right
    have hpos : 0 < attached.length := List.length_pos_of_ne_nil hne
    refine ⟨List.sum_le_sum fun d hd => ?_, ?_⟩
    · rw [overlapCount_append_apart (hsafe d hd), overlapCount_append_apart (hsafe d hd)]
      have hy : overlapCount d attached + overlapCount d y ≤ overlapCount d (attached ++ y) :=
        overlapCount_append_le attached y
      omega
    · simp
      omega
  · left
    refine List.sum_lt_sum _ _ (fun d hd => overlapCount_surface_le (hsafe d hd))
      ⟨candidate, List.mem_filter.mpr ⟨hmem, hs⟩, ?_⟩
    exact overlapCount_surface_lt (ne_nil_of_safe hs).1 (happart candidate hmem hs)

/-- **Every iteration for a span that settles gains something.** -/
theorem unsettled_lt (hset : RepairsSettle span) (hrep : Repairs input span c c') :
    MeasureLt (headMeasure unsettled c') (headMeasure unsettled c) := by
  rw [measureLt_iff_of_repairs hrep]
  by_cases hreq : span.required ≤ 1
  · simpa [unsettled, hreq] using missing_gains hreq hrep.iteration
  · simp only [unsettled, if_neg hreq]
    rcases hset with hone | happart
    · exact absurd hone hreq
    · rcases readingCount_gains happart hrep.iteration with hlt | ⟨hle, hshort⟩
      · exact Or.inl hlt
      · rcases Nat.lt_or_eq_of_le hle with hlt | heq
        · exact Or.inl hlt
        · exact Or.inr ⟨heq, hshort⟩

/-- **A decision ends when the repairs of every span settle.** -/
theorem terminates_of_repairsSettle (h : ∀ span ∈ input.protectedSpans, RepairsSettle span) :
    Terminates (step input) (start input) := by
  refine terminates_of_lt measureLt_wellFounded (headMeasure unsettled)
    (I := fun c => ∀ span ∈ c.remaining, RepairsSettle span) ?_ h
  intro c c' hc hs
  obtain ⟨span, hpass | hrep⟩ := step_inl hs
  · refine ⟨fun s hm => hc s ?_, measureLt_of_passes hpass⟩
    rw [hpass.remaining]
    exact List.mem_cons_of_mem _ hm
  · obtain ⟨rest, hrem⟩ := hrep.remaining
    have hset : RepairsSettle span := hc span (by rw [hrem]; exact List.mem_cons_self)
    refine ⟨fun s hm => hc s ?_, unsettled_lt hset hrep⟩
    rw [hrep.frame] at hm
    exact hm

/-- **When a decision ends.** In general this is a question about rewriting a string: it ends if
and only if finitely many iterations gain nothing. Spans whose repairs settle always end. -/
theorem decide_terminates_iff (input : ZenzAdoptionInput) :
    (Terminates (step input) (start input) ↔
      ∃ N, ∀ n c, N ≤ n → after (step input) n (start input) = some c → ¬Stalls input c) ∧
    ((∀ span ∈ input.protectedSpans, RepairsSettle span) →
      Terminates (step input) (start input)) := by
  refine ⟨?_, terminates_of_repairsSettle⟩
  rw [terminates_iff_eventually_lt measureLt_wellFounded (headMeasure shortfall)]
  constructor
  · rintro ⟨N, h⟩
    exact ⟨N, (eventually_lt_iff input N).mp h⟩
  · rintro ⟨N, h⟩
    exact ⟨N, (eventually_lt_iff input N).mpr h⟩

/-! ## A decision that does not end -/

def gptSpan : ProtectedConversionSpan where
  key := utf8 "gpt"
  value := utf8 "gpt-4"
  tier := .identityCritical
  repairable := true
  requiredOccurrences := 2

def gptInput : ZenzAdoptionInput where
  key := utf8 "gptとgpt"
  mozcValue := utf8 "gpt-4とgpt-4"
  zenzValue := utf8 "gpt"
  protectedSpans := [gptSpan]
  baselineSegments := []

/-- The reading, and text in which neither it nor と begins. -/
def IsGptValue (value : Bytes) : Prop :=
  ∃ tail, value = utf8 "gpt" ++ tail ∧ byte 'g' ∉ tail ∧ (0xE3 : UInt8) ∉ tail

theorem gptSpan_candidate {tail : Bytes} (h : byte 'g' ∉ tail) :
    repairCandidate gptSpan (utf8 "gpt" ++ tail) = some (utf8 "gpt") := by
  have hkata : hiraganaToKatakana gptSpan.key = utf8 "gpt" := by decide +kernel
  have hsafe : isRepairCandidateSafe (utf8 "gpt") gptSpan = true := by decide +kernel
  have hne : utf8 "gpt" ≠ [] := by decide
  have hzero : countOccurrences tail (utf8 "gpt") = 0 := by
    rw [countOccurrences_eq_zero_iff hne]
    exact not_infix_of_notMem (by decide) h
  have hcount : countOccurrences (utf8 "gpt" ++ tail) (utf8 "gpt") = 1 := by
    rw [countOccurrences_hit hne, hzero]
  rw [repairCandidate, repairCandidates, hkata, List.find?_cons_of_pos]
  rw [hsafe, hcount]
  rfl

/-- The surface is written over the reading that it contains. -/
theorem gptSpan_replaced {tail : Bytes} (h : byte 'g' ∉ tail) :
    tryRepairProtectedSpan gptSpan (utf8 "gpt" ++ tail)
      = (utf8 "gpt" ++ (utf8 "-4" ++ tail), true) := by
  have hrep : replaceAll (utf8 "gpt") gptSpan.value (utf8 "gpt" ++ tail)
      = gptSpan.value ++ tail := by
    rw [replaceAll_hit (by decide), replaceAll_of_absent (not_infix_of_notMem (by decide) h)]
  have hcontains : contains gptSpan.value (gptSpan.value ++ tail) = true :=
    (contains_iff _).mpr (List.prefix_append _ _).isInfix
  rw [tryRepairProtectedSpan, gptSpan_candidate h]
  simp only [hrep, hcontains]
  rfl

theorem gptSpan_count {tail : Bytes} (h : byte 'g' ∉ tail) :
    countOccurrences (utf8 "gpt" ++ tail) gptSpan.value ≤ 1 := by
  have hle : countOccurrences (utf8 "gpt" ++ tail) gptSpan.value
      ≤ (utf8 "gpt" ++ tail).count (byte 'g') := countOccurrences_le_count _ _ _
  rw [List.count_append, List.count_eq_zero_of_not_mem h] at hle
  exact hle

/-- No と ends the text behind the surface. -/
theorem gptSpan_attached (h : (0xE3 : UInt8) ∉ value) :
    tryRepairAttachedProtectedSpan gptInput.mozcValue gptSpan value = none := by
  have hboundary : findUniqueRightBoundaryAfterSurface gptInput.mozcValue gptSpan.value
      = utf8 "と" := by decide +kernel
  have hend : ∀ pos, attachedEnd value gptSpan.value (utf8 "と") pos = none := by
    intro pos
    rw [attachedEnd]
    split
    · rfl
    · dsimp only
      cases hf : find (utf8 "と") value (pos + gptSpan.value.length) with
      | none => rfl
      | some p =>
        obtain ⟨-, -, hp⟩ := find_some hf
        have hmem : (0xE3 : UInt8) ∈ value.drop p := hp.subset (by decide)
        exact absurd (List.mem_of_mem_drop hmem) h
  rw [tryRepairAttachedProtectedSpan, hboundary, if_neg (by decide)]
  dsimp only
  rw [if_neg (by decide), List.findSome?_eq_none_iff]
  intro pos _
  simp [hend]

/-- **The value of this decision grows for ever.** -/
theorem gptInput_notTerminating : ¬∀ input, Terminates (step input) (start input) := by
  intro h
  refine not_terminates_of_invariant (I := fun c => c.remaining = [gptSpan] ∧
    IsGptValue c.adoptedValue) ?_ ⟨rfl, [], by decide, by decide, by decide⟩ (h gptInput)
  rintro c ⟨hrem, tail, hval, hg, ho⟩
  have hcount := gptSpan_count hg
  have hE3 : (0xE3 : UInt8) ∉ utf8 "gpt" ++ tail := by
    rw [List.mem_append, not_or]
    exact ⟨by decide, ho⟩
  have hbelow : countBoundaryPreservedOccurrences (utf8 "gpt" ++ tail) gptSpan.value
      < gptSpan.required := by
    have hle : countBoundaryPreservedOccurrences (utf8 "gpt" ++ tail) gptSpan.value
        ≤ countOccurrences (utf8 "gpt" ++ tail) gptSpan.value := List.countP_le_length
    have hreq : gptSpan.required = 2 := rfl
    omega
  have hiter : repairIteration gptInput gptSpan (utf8 "gpt" ++ tail)
      = some (utf8 "gpt" ++ (utf8 "-4" ++ tail)) := by
    have hreq : gptSpan.required = 2 := rfl
    rw [repairIteration, gptSpan_attached hE3]
    dsimp only
    rw [if_pos (by omega), gptSpan_replaced hg]
    rfl
  refine ⟨{ c with
    adoptedValue := utf8 "gpt" ++ (utf8 "-4" ++ tail), protectedSurfaceRepaired := true },
    ?_, hrem, utf8 "-4" ++ tail, rfl, ?_, ?_⟩
  · have htier : gptSpan.tier = .identityCritical := rfl
    have hne : gptSpan.value.isEmpty = false := by decide
    simp only [step, hrem, hne, htier, stepSurface, hval, if_pos hbelow, hiter]
    rfl
  · rw [List.mem_append, not_or]
    exact ⟨by decide, hg⟩
  · rw [List.mem_append, not_or]
    exact ⟨by decide, ho⟩

end Mozkey.Zenz.AdoptionPolicy
