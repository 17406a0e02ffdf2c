import Mathlib.Data.Finset.Card
import Mathlib.Data.List.Sort
import Mozkey.Infra.Occurrences
import Mozkey.Zenz.ProtectedSpan

/-!
# Protecting the prompt key

`ProtectPromptKey` and `RestorePlaceholders` of `session/zenz_adoption_policy.cc`: readings of
identity-critical spans become placeholders before the key goes into the prompt, and a
placeholder in the answer becomes the surface.

The loop that looks for an unused placeholder is given as many tries as the key has bytes. That
is enough (`buildUniqueProtectedPlaceholder_spec`): no two placeholders stand at the same place.
-/

namespace Mozkey.Zenz.AdoptionPolicy

open Infra

/-! ## Placeholders -/

def placeholderStem : Bytes := utf8 "__MOZC_ZENZ_PROTECTED_"

def buildProtectedPlaceholder (index : Nat) : Bytes :=
  placeholderStem ++ decimal index ++ utf8 "__"

/-- The placeholder that is tried after `suffix` others. -/
def placeholderTry (index : Nat) : Nat → Bytes
  | 0 => buildProtectedPlaceholder index
  | suffix + 1 =>
    placeholderStem ++ decimal index ++ utf8 "_" ++ decimal (suffix + 1) ++ utf8 "__"

def tryPlaceholders (index : Nat) (key : Bytes) : Nat → Nat → Bytes
  | 0, suffix => placeholderTry index suffix
  | fuel + 1, suffix =>
    if contains (placeholderTry index suffix) key then tryPlaceholders index key fuel (suffix + 1)
    else placeholderTry index suffix

def buildUniqueProtectedPlaceholder (index : Nat) (key : Bytes) : Bytes :=
  tryPlaceholders index key key.length 0

/-- The new text, and how many occurrences were replaced. -/
def replaceAllLiteral (needle new value : Bytes) : Bytes × Nat :=
  (replaceAll needle new value, countOccurrences value needle)

/-! ## An unused placeholder -/

/-- What follows the number: `__`, or `_`, the suffix and `__`. -/
def afterIndex : Nat → Bytes
  | 0 => utf8 "__"
  | suffix + 1 => utf8 "_" ++ decimal (suffix + 1) ++ utf8 "__"

theorem placeholderTry_eq (index suffix : Nat) :
    placeholderTry index suffix = placeholderStem ++ (decimal index ++ afterIndex suffix) := by
  cases suffix with
  | zero => exact List.append_assoc _ _ _
  | succ suffix => simp only [placeholderTry, afterIndex, List.append_assoc]

theorem placeholderTry_ne_nil (index suffix : Nat) : placeholderTry index suffix ≠ [] := by
  rw [placeholderTry_eq]
  exact List.append_ne_nil_of_left_ne_nil (by decide) _

/-- Two numbers that begin a text and end at an underscore are the same. -/
theorem decimal_append_inj {m n : Nat} {x y : Bytes} (hx : x.head? = some (byte '_'))
    (hy : y.head? = some (byte '_')) (h : decimal m ++ x = decimal n ++ y) : m = n ∧ x = y := by
  have hstop : ∀ {z : Bytes}, z.head? = some (byte '_') → z.takeWhile isDigitByte = [] := by
    intro z hz
    cases z with
    | nil => rfl
    | cons c z =>
      rw [List.head?_cons, Option.some.injEq] at hz
      rw [hz]
      rfl
  have hdigits := congrArg (List.takeWhile isDigitByte) h
  rw [List.takeWhile_append_of_pos fun b hb => isDigitByte_of_mem_decimal hb,
    List.takeWhile_append_of_pos fun b hb => isDigitByte_of_mem_decimal hb, hstop hx, hstop hy,
    List.append_nil, List.append_nil] at hdigits
  rw [hdigits] at h
  exact ⟨decimal_injective hdigits, List.append_cancel_left h⟩

theorem head?_afterIndex (suffix : Nat) (x : Bytes) :
    (afterIndex suffix ++ x).head? = some (byte '_') := by
  cases suffix <;> rfl

theorem afterIndex_prefix_free {suffix suffix' : Nat}
    (h : afterIndex suffix <+: afterIndex suffix') : suffix = suffix' := by
  obtain ⟨x, hx⟩ := h
  have hdigit : ∀ (n : Nat) (y z : Bytes), decimal n ++ y ≠ byte '_' :: z := by
    intro n y z he
    obtain ⟨c, rest, hc⟩ := List.exists_cons_of_ne_nil (decimal_ne_nil n)
    have hmem := @isDigitByte_of_mem_decimal n c (by rw [hc]; exact List.mem_cons_self)
    rw [hc, List.cons_append, List.cons.injEq] at he
    rw [he.1] at hmem
    exact absurd hmem (by decide)
  have hunder : utf8 "__" = utf8 "_" ++ [byte '_'] := by decide
  cases suffix with
  | zero =>
    cases suffix' with
    | zero => rfl
    | succ suffix' =>
      rw [afterIndex, afterIndex, hunder, List.append_assoc, List.append_assoc,
        List.append_cancel_left_eq] at hx
      exact absurd hx.symm (hdigit _ _ _)
  | succ suffix =>
    cases suffix' with
    | zero =>
      rw [afterIndex, afterIndex, hunder, List.append_assoc, List.append_assoc, List.append_assoc,
        List.append_cancel_left_eq] at hx
      exact absurd hx (hdigit _ _ _)
    | succ suffix' =>
      rw [afterIndex, afterIndex, List.append_assoc, List.append_assoc, List.append_assoc,
        List.append_cancel_left_eq] at hx
      exact (decimal_append_inj rfl rfl hx).1

/-- **No placeholder begins another.** -/
theorem placeholderTry_prefix_free {index index' suffix suffix' : Nat}
    (h : placeholderTry index suffix <+: placeholderTry index' suffix') :
    index = index' ∧ suffix = suffix' := by
  rw [placeholderTry_eq, placeholderTry_eq, List.prefix_append_right_inj] at h
  obtain ⟨x, hx⟩ := h
  rw [List.append_assoc] at hx
  have hsuffix := head?_afterIndex suffix' []
  rw [List.append_nil] at hsuffix
  obtain ⟨hindex, hrest⟩ := decimal_append_inj (head?_afterIndex suffix x) hsuffix hx
  exact ⟨hindex, afterIndex_prefix_free ⟨x, hrest⟩⟩

/-- Among as many tries as the key has bytes, and one more, one is not in the key. -/
theorem exists_unused (index : Nat) (key : Bytes) :
    ∃ suffix ≤ key.length, contains (placeholderTry index suffix) key = false := by
  by_contra hall
  have hfound : ∀ suffix ≤ key.length,
      ∃ pos, find (placeholderTry index suffix) key 0 = some pos := by
    intro suffix hle
    rw [← Option.isSome_iff_exists]
    by_contra hno
    exact hall ⟨suffix, hle, Bool.eq_false_iff.mpr hno⟩
  have hplace : ∀ suffix ∈ Finset.range (key.length + 1),
      (find (placeholderTry index suffix) key 0).getD 0 ∈ Finset.range key.length := by
    intro suffix hsuffix
    rw [Finset.mem_range] at hsuffix
    obtain ⟨pos, hpos⟩ := hfound suffix (by omega)
    obtain ⟨-, -, hprefix⟩ := find_some hpos
    have hlen := hprefix.length_le
    rw [List.length_drop] at hlen
    have hne := List.length_pos_of_ne_nil (placeholderTry_ne_nil index suffix)
    simp [hpos]
    omega
  have hcard : (Finset.range key.length).card < (Finset.range (key.length + 1)).card := by
    rw [Finset.card_range, Finset.card_range]
    omega
  obtain ⟨s, hs, t, ht, hst, hsame⟩ :=
    Finset.exists_ne_map_eq_of_card_lt_of_maps_to hcard hplace
  rw [Finset.mem_range] at hs ht
  obtain ⟨p, hp⟩ := hfound s (by omega)
  obtain ⟨q, hq⟩ := hfound t (by omega)
  rw [hp, hq, Option.getD_some, Option.getD_some] at hsame
  subst hsame
  have hps := (find_some hp).2.2
  have hpt := (find_some hq).2.2
  rcases Nat.le_total (placeholderTry index s).length (placeholderTry index t).length with hle | hle
  · exact hst (placeholderTry_prefix_free (List.prefix_of_prefix_length_le hps hpt hle)).2
  · exact hst (placeholderTry_prefix_free (List.prefix_of_prefix_length_le hpt hps hle)).2.symm

theorem tryPlaceholders_spec {index : Nat} {key : Bytes} : ∀ {fuel suffix : Nat},
    (∃ s, suffix ≤ s ∧ s ≤ suffix + fuel ∧ contains (placeholderTry index s) key = false) →
    ∃ s, tryPlaceholders index key fuel suffix = placeholderTry index s ∧
      contains (placeholderTry index s) key = false ∧
      ∀ r, suffix ≤ r → r < s → contains (placeholderTry index r) key = true
  | 0, suffix, ⟨s, hle, hge, hs⟩ => by
    obtain rfl : s = suffix := by omega
    exact ⟨s, rfl, hs, fun r hr hlt => by omega⟩
  | fuel + 1, suffix, ⟨s, hle, hge, hs⟩ => by
    unfold tryPlaceholders
    split
    · next hc =>
      have hne : s ≠ suffix := by
        rintro rfl
        simp [hs] at hc
      obtain ⟨s', heq, hs', hbefore⟩ := @tryPlaceholders_spec index key fuel (suffix + 1)
        ⟨s, Nat.lt_of_le_of_ne hle (Ne.symm hne), by omega, hs⟩
      refine ⟨s', heq, hs', fun r hr hlt => ?_⟩
      rcases Nat.eq_or_lt_of_le hr with rfl | hr
      · exact hc
      · exact hbefore r hr hlt
    · next hc => exact ⟨suffix, rfl, Bool.eq_false_iff.mpr hc, fun r hr hlt => by omega⟩

/-- **The loop ends at the first placeholder that is not in the key.** -/
theorem buildUniqueProtectedPlaceholder_spec (index : Nat) (key : Bytes) :
    ∃ suffix, buildUniqueProtectedPlaceholder index key = placeholderTry index suffix ∧
      contains (placeholderTry index suffix) key = false ∧
      ∀ r < suffix, contains (placeholderTry index r) key = true := by
  obtain ⟨s, hle, hs⟩ := exists_unused index key
  obtain ⟨t, heq, ht, hbefore⟩ := @tryPlaceholders_spec index key key.length 0
    ⟨s, Nat.zero_le s, by omega, hs⟩
  exact ⟨t, heq, ht, fun r hr => hbefore r (Nat.zero_le r) hr⟩

/-! ## `ProtectPromptKey` -/

structure ZenzProtectedPromptResult where
  key : Bytes
  protectedSpans : List ProtectedConversionSpan
  placeholderCount : Nat := 0

/-- The state of the loop over the spans. -/
structure ProtectState extends ZenzProtectedPromptResult where
  placeholderIndex : Nat := 0

/-- Only identity-critical surfaces get a placeholder. -/
def takesPlaceholder (span : ProtectedConversionSpan) : Bool :=
  !span.key.isEmpty && !span.value.isEmpty && span.tier == .identityCritical

def keyAt (spans : List ProtectedConversionSpan) (i : Nat) : Bytes :=
  match spans[i]? with
  | none => []
  | some span => span.key

/-- The spans that take a placeholder, longer readings first. -/
def protectOrder (spans : List ProtectedConversionSpan) : List Nat :=
  ((List.range spans.length).filter fun i => (spans[i]?).any takesPlaceholder).insertionSort
    fun lhs rhs => (keyAt spans rhs).length ≤ (keyAt spans lhs).length

def protectStep (state : ProtectState) (spanIndex : Nat) : ProtectState :=
  match state.protectedSpans[spanIndex]? with
  | none => state
  | some span =>
    if countOccurrences state.key span.key = 0 then state
    else
      let placeholder := buildUniqueProtectedPlaceholder state.placeholderIndex state.key
      let replaced := replaceAllLiteral span.key placeholder state.key
      if replaced.2 = 0 then
        { state with key := replaced.1, placeholderIndex := state.placeholderIndex + 1 }
      else
        { key := replaced.1
          protectedSpans := state.protectedSpans.set spanIndex
            { span with
              placeholder
              requiredOccurrences :=
                if span.requiredOccurrences < replaced.2 then replaced.2
                else span.requiredOccurrences }
          placeholderCount := state.placeholderCount + replaced.2
          placeholderIndex := state.placeholderIndex + 1 }

def protectPromptKey (key : Bytes) (protectedSpans : List ProtectedConversionSpan) :
    ZenzProtectedPromptResult :=
  let final := (protectOrder protectedSpans).foldl protectStep { key, protectedSpans }
  final.toZenzProtectedPromptResult

/-! ## `RestorePlaceholders` -/

def restoreStep (restored : Bytes) (span : ProtectedConversionSpan) : Bytes :=
  if span.placeholder.isEmpty || span.value.isEmpty then restored
  else (replaceAllLiteral span.placeholder span.value restored).1

def restorePlaceholders (value : Bytes) (protectedSpans : List ProtectedConversionSpan) : Bytes :=
  protectedSpans.foldl restoreStep value

end Mozkey.Zenz.AdoptionPolicy
