import Mozkey.Infra.Marked
import Mozkey.Zenz.PromptProtection

/-!
# Where the bytes of a prompt come from

Whether a fragment of a placeholder remains cannot be seen from the bytes: a key or a surface may
hold the same bytes. So the two functions are run once more with texts that remember where each
byte comes from. The run looks at the bytes alone and makes the same texts (`protectRun_fst`).

`RoundTrips` is what protection is for: what became a placeholder are disjoint readings, every
placeholder reaches the prompt key whole, and on the way back each of them, and nothing else,
becomes the surface of its span.
-/

namespace Mozkey.Zenz.AdoptionPolicy

open Infra

/-- Where a byte comes from: the key, a placeholder or a surface put in for a span. -/
inductive Origin where
  | key
  | placeholder (spanIndex : Nat) (text : Bytes)
  | surface (spanIndex : Nat) (text : Bytes)
deriving DecidableEq

abbrev Traced := List (UInt8 × Origin)

def tagged (origin : Origin) (text : Bytes) : Traced := text.map (·, origin)

def valueAt (spans : List ProtectedConversionSpan) (i : Nat) : Bytes :=
  match spans[i]? with
  | none => []
  | some span => span.value

def placeholderAt (spans : List ProtectedConversionSpan) (i : Nat) : Bytes :=
  match spans[i]? with
  | none => []
  | some span => span.placeholder

/-! ## The run -/

/-- One span of `ProtectPromptKey`: the state, and its key with origins. -/
def protectTraced (run : ProtectState × Traced) (i : Nat) : ProtectState × Traced :=
  let next := protectStep run.1 i
  let placeholder := placeholderAt next.protectedSpans i
  (next, replaceBy Prod.fst (keyAt run.1.protectedSpans i)
    (tagged (.placeholder i placeholder) placeholder) run.2)

def protectRun (key : Bytes) (spans : List ProtectedConversionSpan) : ProtectState × Traced :=
  (protectOrder spans).foldl protectTraced
    ({ key, protectedSpans := spans }, tagged .key key)

/-- One span of `RestorePlaceholders`: the text, and how many occurrences were replaced. -/
def restoreTraced (run : Traced × Nat) (i : Nat) (span : ProtectedConversionSpan) : Traced × Nat :=
  if span.placeholder.isEmpty || span.value.isEmpty then run
  else
    (replaceBy Prod.fst span.placeholder (tagged (.surface i span.value) span.value) run.1,
      run.2 + countOccurrences (run.1.map Prod.fst) span.placeholder)

def restoreRun (run : Traced × Nat) : Nat → List ProtectedConversionSpan → Traced × Nat
  | _, [] => run
  | i, span :: rest => restoreRun (restoreTraced run i span) (i + 1) rest

/-! ## What protection is for -/

abbrev PromptToken := Token UInt8 Nat

/-- The text with each mark spelled out as `place` has it. -/
def textOf (place : Nat → Bytes) : List PromptToken → Bytes := spell id place

/-- The same, with origins. -/
def tracedOf (origin : Nat → Bytes → Origin) (place : Nat → Bytes) : List PromptToken → Traced :=
  spell (·, .key) fun i => tagged (origin i (place i)) (place i)

/-- **The round trip.** In `tokens` the marks are the readings that were protected. -/
structure RoundTripsBy (key : Bytes) (spans : List ProtectedConversionSpan)
    (tokens : List PromptToken) : Prop where
  reading : textOf (keyAt spans) tokens = key
  placed : ∀ i, Token.mark i ∈ tokens →
    i ∈ protectOrder spans ∧ placeholderAt (protectPromptKey key spans).protectedSpans i ≠ []
  promptKey : (protectRun key spans).2
    = tracedOf .placeholder (placeholderAt (protectPromptKey key spans).protectedSpans) tokens
  restored : (restoreRun ((protectRun key spans).2, 0) 0
      (protectPromptKey key spans).protectedSpans).1 = tracedOf .surface (valueAt spans) tokens
  replaced : marks tokens = (protectPromptKey key spans).placeholderCount
  returned : (restoreRun ((protectRun key spans).2, 0) 0
      (protectPromptKey key spans).protectedSpans).2 = (protectPromptKey key spans).placeholderCount

def RoundTrips (key : Bytes) (spans : List ProtectedConversionSpan) : Prop :=
  ∃ tokens, RoundTripsBy key spans tokens

/-! ## One step -/

section Step

variable {state : ProtectState} {i : Nat} {span : ProtectedConversionSpan}

/-- A reading that is not in the key changes nothing. -/
theorem protectStep_absent (hspan : state.protectedSpans[i]? = some span)
    (h : countOccurrences state.key span.key = 0) : protectStep state i = state := by
  rw [protectStep, hspan]
  exact if_pos h

/-- The span with its placeholder. -/
def withPlaceholder (state : ProtectState) (span : ProtectedConversionSpan) :
    ProtectedConversionSpan :=
  { span with
    placeholder := buildUniqueProtectedPlaceholder state.placeholderIndex state.key
    requiredOccurrences :=
      if span.requiredOccurrences < countOccurrences state.key span.key then
        countOccurrences state.key span.key
      else span.requiredOccurrences }

theorem protectStep_found (hspan : state.protectedSpans[i]? = some span)
    (h : countOccurrences state.key span.key ≠ 0) :
    protectStep state i =
      { key := replaceAll span.key
          (buildUniqueProtectedPlaceholder state.placeholderIndex state.key) state.key
        protectedSpans := state.protectedSpans.set i (withPlaceholder state span)
        placeholderCount := state.placeholderCount + countOccurrences state.key span.key
        placeholderIndex := state.placeholderIndex + 1 } := by
  rw [protectStep, hspan]
  exact (if_neg h).trans (if_neg h)

variable {spans : List ProtectedConversionSpan}

theorem keyAt_eq (hspan : spans[i]? = some span) :
    keyAt spans i = span.key := by
  rw [keyAt, hspan]

theorem keyAt_set {span' : ProtectedConversionSpan} (hspan : spans[i]? = some span)
    (hkey : span'.key = span.key) :
    keyAt (spans.set i span') = keyAt spans := by
  have hi : i < spans.length := (List.getElem?_eq_some_iff.mp hspan).1
  funext j
  by_cases hj : j = i
  · subst hj
    rw [keyAt, List.getElem?_set_self hi, keyAt_eq hspan]
    exact hkey
  · rw [keyAt, List.getElem?_set_ne (Ne.symm hj)]
    rfl

theorem valueAt_set {span' : ProtectedConversionSpan} (hspan : spans[i]? = some span)
    (hvalue : span'.value = span.value) :
    valueAt (spans.set i span') = valueAt spans := by
  have hi : i < spans.length := (List.getElem?_eq_some_iff.mp hspan).1
  funext j
  by_cases hj : j = i
  · subst hj
    simpa [valueAt, List.getElem?_set_self hi, hspan] using hvalue
  · rw [valueAt, List.getElem?_set_ne (Ne.symm hj)]
    rfl

theorem placeholderAt_set {j : Nat} (hi : i < spans.length) :
    placeholderAt (spans.set i span) j
      = Function.update (placeholderAt spans) i span.placeholder j := by
  by_cases hj : j = i
  · subst hj
    simp [placeholderAt, List.getElem?_set_self hi]
  · rw [Function.update_of_ne hj, placeholderAt, List.getElem?_set_ne (Ne.symm hj)]
    rfl

end Step

/-! ## The runs make the texts of the code -/

@[simp] theorem map_fst_tagged (origin : Origin) (text : Bytes) :
    (tagged origin text).map Prod.fst = text := by
  rw [tagged, List.map_map]
  exact List.map_id text

theorem map_fst_tracedOf (origin : Nat → Bytes → Origin) (place : Nat → Bytes)
    (tokens : List PromptToken) :
      (tracedOf origin place tokens).map Prod.fst = textOf place tokens := by
  rw [tracedOf, map_spell]
  simp only [map_fst_tagged]
  rfl

theorem protectTraced_erases {run : ProtectState × Traced} (h : run.2.map Prod.fst = run.1.key)
    (i : Nat) : (protectTraced run i).2.map Prod.fst = (protectTraced run i).1.key := by
  show (replaceBy Prod.fst (keyAt run.1.protectedSpans i) _ run.2).map Prod.fst
    = (protectStep run.1 i).key
  rw [map_replaceBy, map_fst_tagged, h]
  cases hspan : run.1.protectedSpans[i]? with
  | none =>
    rw [keyAt, hspan, protectStep, hspan]
    rfl
  | some span =>
    rw [keyAt_eq hspan]
    by_cases hcount : countOccurrences run.1.key span.key = 0
    · rw [protectStep_absent hspan hcount]
      by_cases hne : span.key = []
      · rw [hne]
        rfl
      · exact replaceAll_of_absent ((countOccurrences_eq_zero_iff hne _).mp hcount)
    · have hi : i < run.1.protectedSpans.length := (List.getElem?_eq_some_iff.mp hspan).1
      rw [protectStep_found hspan hcount, placeholderAt_set hi, Function.update_self]
      rfl

theorem foldl_protectTraced (order : List Nat) : ∀ run : ProtectState × Traced,
    (order.foldl protectTraced run).1 = order.foldl protectStep run.1 := by
  induction order with
  | nil => exact fun _ => rfl
  | cons i order ih => exact fun run => ih (protectTraced run i)

theorem protectRun_fst (key : Bytes) (spans : List ProtectedConversionSpan) :
    (protectRun key spans).1.toZenzProtectedPromptResult = protectPromptKey key spans := by
  rw [protectRun, foldl_protectTraced]
  rfl

/-!
## The key with marks

Protection as it is meant: a protected reading becomes a mark, which is one token that no search
can look into. `MarkedKey` runs the loop of `ProtectPromptKey` on such a key; every mark has the
placeholder that the loop would give it.

Spelled out, a marked key is open to two accidents. A reading may be found in placeholders
(`ReadingsApart` says that it is not), and on the way back a placeholder may be found where it
was not put (`PlaceholdersApart`).
-/

structure MarkedKey where
  tokens : List PromptToken
  placeholder : Nat → Bytes
  placeholderIndex : Nat := 0

namespace MarkedKey

def text (m : MarkedKey) : Bytes := textOf m.placeholder m.tokens

/-- Each `reading i` becomes a mark. -/
def protect (reading : Nat → Bytes) (m : MarkedKey) (i : Nat) : MarkedKey :=
  if countOccurrences m.tokens ((reading i).map .lit) = 0 then m
  else
    { tokens := replaceAll ((reading i).map .lit) [.mark i] m.tokens
      placeholder := Function.update m.placeholder i
        (buildUniqueProtectedPlaceholder m.placeholderIndex m.text)
      placeholderIndex := m.placeholderIndex + 1 }

end MarkedKey

def unmarked (key : Bytes) (spans : List ProtectedConversionSpan) : MarkedKey where
  tokens := key.map .lit
  placeholder := placeholderAt spans

def markedKey (key : Bytes) (spans : List ProtectedConversionSpan) : MarkedKey :=
  (protectOrder spans).foldl (MarkedKey.protect (keyAt spans)) (unmarked key spans)

/-! ## The condition -/

/-- A reading, when its turn comes, is found in the text of the key only: not in a placeholder and
not across the edge of one. -/
def ReadingsApart (reading : Nat → Bytes) : MarkedKey → List Nat → Prop
  | _, [] => True
  | m, i :: order =>
    Aligned m.placeholder ((reading i).map .lit) m.tokens ∧
      ReadingsApart reading (m.protect reading i) order

/-- What stands for a mark when the first `i` spans have been restored. -/
def halfRestored (placeholder value : Nat → Bytes) (i j : Nat) : Bytes :=
  if j < i then value j else placeholder j

/-- A placeholder, when its turn comes, is found only where it stands for its span. -/
def PlaceholdersApart (m : MarkedKey) (spans : List ProtectedConversionSpan) : Prop :=
  ∀ i < spans.length, m.placeholder i ≠ [] → valueAt spans i ≠ [] →
    Aligned (halfRestored m.placeholder (valueAt spans) i) [.mark i] m.tokens

def decidableReadingsApart (reading : Nat → Bytes) : ∀ (m : MarkedKey) (order : List Nat),
    Decidable (ReadingsApart reading m order)
  | _, [] => isTrue trivial
  | m, i :: order =>
    have := decidableReadingsApart reading (m.protect reading i) order
    inferInstanceAs (Decidable (_ ∧ _))

instance (reading : Nat → Bytes) (m : MarkedKey) (order : List Nat) :
    Decidable (ReadingsApart reading m order) := decidableReadingsApart reading m order

/-! ## Marked keys of a run -/

/-- The marks stand for the text of the key, and each has a placeholder of its own. -/
structure MarkedKey.Wf (key : Bytes) (reading : Nat → Bytes) (order : List Nat) (m : MarkedKey) :
    Prop where
  reading : textOf reading m.tokens = key
  ordered : ∀ i, Token.mark i ∈ m.tokens → i ∈ order
  named : ∀ i, Token.mark i ∈ m.tokens →
    ∃ index < m.placeholderIndex, ∃ suffix, m.placeholder i = placeholderTry index suffix
  apart : ∀ i j, Token.mark i ∈ m.tokens → Token.mark j ∈ m.tokens →
    m.placeholder i <+: m.placeholder j → i = j

section Wf

variable {key : Bytes} {reading : Nat → Bytes} {order : List Nat} {m : MarkedKey}

theorem MarkedKey.Wf.placeholder_ne_nil (hwf : m.Wf key reading order) (i : Nat)
    (hi : Token.mark i ∈ m.tokens) : m.placeholder i ≠ [] := by
  obtain ⟨index, -, suffix, hname⟩ := hwf.named i hi
  rw [hname]
  exact placeholderTry_ne_nil index suffix

theorem not_mark_mem_lits {k : Bytes} {i : Nat} :
    Token.mark i ∉ (k.map Token.lit : List PromptToken) := by
  intro h
  obtain ⟨_, _, h⟩ := List.mem_map.mp h
  cases h

theorem unmarked_wf (key : Bytes) (spans : List ProtectedConversionSpan) :
    (unmarked key spans).Wf key reading order where
  reading := by
    show spell id reading (key.map Token.lit) = key
    simp [spell_lits]
  ordered := fun i hi => absurd hi not_mark_mem_lits
  named := fun i hi => absurd hi not_mark_mem_lits
  apart := fun i _ hi => absurd hi not_mark_mem_lits

/-- A mark is new or was there. -/
theorem mark_mem_protect {i j : Nat} (h : Token.mark j ∈ (m.protect reading i).tokens) :
    j = i ∨ Token.mark j ∈ m.tokens := by
  unfold MarkedKey.protect at h
  split at h
  · exact Or.inr h
  · exact mark_mem_replaceAll h

theorem MarkedKey.Wf.protect (hwf : m.Wf key reading order) {i : Nat} (hi : i ∈ order)
    (hnew : Token.mark i ∉ m.tokens) : (m.protect reading i).Wf key reading order := by
  unfold MarkedKey.protect
  split
  · exact hwf
  obtain ⟨suffix, hname, -⟩ := buildUniqueProtectedPlaceholder_spec m.placeholderIndex m.text
  have hself : Function.update m.placeholder i
      (buildUniqueProtectedPlaceholder m.placeholderIndex m.text) i
        = placeholderTry m.placeholderIndex suffix := by
    simp [hname]
  have hother : ∀ j, Token.mark j ∈ m.tokens → Function.update m.placeholder i
      (buildUniqueProtectedPlaceholder m.placeholderIndex m.text) j = m.placeholder j := by
    intro j hj
    have hne : j ≠ i := fun he => hnew (he ▸ hj)
    exact Function.update_of_ne hne _ _
  constructor
  · exact (spell_replaceAll rfl m.tokens).trans hwf.reading
  · intro j hj
    rcases mark_mem_replaceAll hj with rfl | hj
    · exact hi
    · exact hwf.ordered j hj
  · intro j hj
    rcases mark_mem_replaceAll hj with rfl | hj
    · exact ⟨m.placeholderIndex, Nat.lt_succ_self _, suffix, hself⟩
    · obtain ⟨index, hlt, suffix', hold⟩ := hwf.named j hj
      exact ⟨index, Nat.lt_succ_of_lt hlt, suffix', (hother j hj).trans hold⟩
  · intro j l hj hl hprefix
    dsimp only at hprefix
    -- the new placeholder has a number that none before it has
    rcases mark_mem_replaceAll hj with rfl | hjm
    · rcases mark_mem_replaceAll hl with rfl | hlm
      · rfl
      · obtain ⟨index, hlt, suffix', hold⟩ := hwf.named l hlm
        rw [hself, hother l hlm, hold] at hprefix
        have hindex := (placeholderTry_prefix_free hprefix).1
        omega
    · rcases mark_mem_replaceAll hl with rfl | hlm
      · obtain ⟨index, hlt, suffix', hold⟩ := hwf.named j hjm
        rw [hself, hother j hjm, hold] at hprefix
        have hindex := (placeholderTry_prefix_free hprefix).1
        omega
      · rw [hother j hjm, hother l hlm] at hprefix
        exact hwf.apart j l hjm hlm hprefix

end Wf

/-- A byte `M` is the third of its placeholder. -/
theorem eq_two_of_placeholderTry_eq {index suffix pos : Nat}
    (h : (placeholderTry index suffix)[pos]? = some (byte 'M')) : pos = 2 := by
  have hstem :
      ∀ pos < placeholderStem.length, placeholderStem[pos]? = some (byte 'M') → pos = 2 := by
    decide
  rw [placeholderTry_eq] at h
  by_cases hlt : pos < placeholderStem.length
  · rw [List.getElem?_append_left hlt] at h
    exact hstem pos hlt h
  · have hdigit : ∀ {n : Nat}, byte 'M' ∉ decimal n := fun hmem =>
      absurd (isDigitByte_of_mem_decimal hmem) (by decide)
    rw [List.getElem?_append_right (Nat.le_of_not_lt hlt)] at h
    have hmem := List.mem_of_getElem? h
    rcases List.mem_append.mp hmem with hmem | hmem
    · exact absurd hmem hdigit
    · cases suffix with
      | zero => exact absurd hmem (by decide)
      | succ suffix =>
        rw [afterIndex, List.mem_append, List.mem_append] at hmem
        rcases hmem with (hmem | hmem) | hmem
        · exact absurd hmem (by decide)
        · exact absurd hmem hdigit
        · exact absurd hmem (by decide)

end Mozkey.Zenz.AdoptionPolicy
