import Mathlib.Algebra.Order.BigOperators.Group.List
import Mathlib.Algebra.Order.Field.Rat
import Mathlib.Tactic.Linarith
import Mozkey.Zenz.PromptProvenance

/-!
# The run of `ProtectPromptKey` on a marked key

While the readings are apart the run follows the marked key (`Follows.foldl`).

That they were apart can be seen at the end. Every byte of a placeholder carries its share of one,
so a replacement puts in one, and no replacement took a share out when the prompt key holds as
many placeholders as there were replacements (`readingsApart_of_share`).
-/

namespace Mozkey.Zenz.AdoptionPolicy

open Infra

/-! ## Shares -/

/-- Its share of the one placeholder, or of the one surface, that a byte belongs to. -/
def share (text : Bytes) : ℚ := 1 / text.length

theorem share_pos {text : Bytes} (h : text ≠ []) : 0 < share text := by
  have hlen : (0 : ℚ) < text.length := by exact_mod_cast List.length_pos_of_ne_nil h
  exact div_pos one_pos hlen

def placeholderShare : UInt8 × Origin → ℚ
  | (_, .placeholder _ text) => share text
  | _ => 0

/-- A byte of the key counts as one, too. -/
def restoredShare : UInt8 × Origin → ℚ
  | (_, .key) => 1
  | (_, .surface _ text) => share text
  | (_, .placeholder _ _) => 0

theorem share_nonneg (text : Bytes) : 0 ≤ share text :=
  div_nonneg one_pos.le (Nat.cast_nonneg _)

theorem placeholderShare_nonneg : ∀ x, 0 ≤ placeholderShare x
  | (_, .placeholder _ text) => share_nonneg text
  | (_, .key) => le_refl 0
  | (_, .surface _ _) => le_refl 0

theorem restoredShare_nonneg : ∀ x, 0 ≤ restoredShare x
  | (_, .placeholder _ _) => le_refl 0
  | (_, .key) => one_pos.le
  | (_, .surface _ text) => share_nonneg text

variable {weight : UInt8 × Origin → ℚ} {tokens : List PromptToken}

/-- The shares of a whole text make one. -/
theorem sum_tagged {origin : Origin} {text : Bytes} (hne : text ≠ [])
    (h : ∀ b, weight (b, origin) = share text) :
    ((tagged origin text).map weight).sum = 1 := by
  have hlen : (text.length : ℚ) ≠ 0 := by
    exact_mod_cast (List.length_pos_of_ne_nil hne).ne'
  have hconst : (tagged origin text).map weight = List.replicate text.length (share text) := by
    rw [tagged, List.map_map, List.eq_replicate_iff]
    refine ⟨List.length_map _, fun y hy => ?_⟩
    obtain ⟨b, -, rfl⟩ := List.mem_map.mp hy
    exact h b
  rw [hconst, List.sum_replicate, nsmul_eq_mul, share, mul_one_div_cancel hlen]

/-! ## Following the marked key -/

/-- The run has the text of the marked key. -/
structure Follows (spans : List ProtectedConversionSpan) (run : ProtectState × Traced)
    (m : MarkedKey) : Prop where
  traced : run.2 = tracedOf .placeholder m.placeholder m.tokens
  erases : run.2.map Prod.fst = run.1.key
  placeholders : placeholderAt run.1.protectedSpans = m.placeholder
  keys : keyAt run.1.protectedSpans = keyAt spans
  values : valueAt run.1.protectedSpans = valueAt spans
  length : run.1.protectedSpans.length = spans.length
  index : run.1.placeholderIndex = m.placeholderIndex
  count : run.1.placeholderCount = marks m.tokens

variable {key : Bytes} {spans : List ProtectedConversionSpan} {run : ProtectState × Traced}
  {m : MarkedKey} {order : List Nat} {i : Nat}

theorem Follows.text (h : Follows spans run m) : run.1.key = m.text := by
  rw [← h.erases, h.traced, map_fst_tracedOf]
  rfl

theorem Follows.start (key : Bytes) (spans : List ProtectedConversionSpan) :
    Follows spans ({ key, protectedSpans := spans }, tagged .key key) (unmarked key spans) where
  traced := (spell_lits _ _ key).symm
  erases := map_fst_tagged .key key
  placeholders := rfl
  keys := rfl
  values := rfl
  length := rfl
  index := rfl
  count := (marks_lits key).symm

theorem getElem?_of_keyAt_ne_nil {spans : List ProtectedConversionSpan} (h : keyAt spans i ≠ []) :
    ∃ span, spans[i]? = some span ∧ span.key = keyAt spans i := by
  cases hspan : spans[i]? with
  | none =>
    simp [keyAt, hspan] at h
  | some span => exact ⟨span, rfl, (keyAt_eq hspan).symm⟩

theorem tracedOf_congr {origin : Nat → Bytes → Origin} {place place' : Nat → Bytes}
    (h : ∀ j, Token.mark j ∈ tokens → place j = place' j) :
    tracedOf origin place tokens = tracedOf origin place' tokens :=
  spell_congr _ _ fun j hj => by rw [h j hj]

/-- A reading that is apart becomes the placeholder of a mark. -/
theorem replaceBy_tracedOf {place : Nat → Bytes} {k : Bytes} (hk : k ≠ [])
    (ha : Aligned place (k.map .lit) tokens) :
    replaceBy Prod.fst k (tagged (.placeholder i (place i)) (place i))
        (tracedOf .placeholder place tokens)
      = tracedOf .placeholder place (replaceAll (k.map .lit) [.mark i] tokens) := by
  have hne : (k.map Token.lit : List PromptToken) ≠ [] := by simpa using hk
  have hspell := @replaceBy_spell _ _ _ _ place _ tokens _ Prod.fst (·, Origin.key)
    (fun j => tagged (.placeholder j (place j)) (place j)) [.mark i] (fun _ => rfl)
    (fun j => map_fst_tagged _ _) hne (fun j hj => absurd hj not_mark_mem_lits) ha
  rwa [spell_lits, List.map_id, spell_mark] at hspell

/-- **A search that is apart keeps the run on the marked key.** -/
theorem Follows.protect (h : Follows spans run m) (hkey : keyAt spans i ≠ [])
    (hnew : Token.mark i ∉ m.tokens)
    (ha : Aligned m.placeholder ((keyAt spans i).map .lit) m.tokens) :
    Follows spans (protectTraced run i) (m.protect (keyAt spans) i) := by
  obtain ⟨span, hspan, hspankey⟩ := getElem?_of_keyAt_ne_nil (h.keys ▸ hkey)
  rw [h.keys] at hspankey
  have hne : ((keyAt spans i).map Token.lit : List PromptToken) ≠ [] := by simpa using hkey
  have hcount : countOccurrences run.1.key (keyAt spans i)
      = countOccurrences m.tokens ((keyAt spans i).map .lit) := by
    have hspell := countOccurrences_spell hne (fun j hj => absurd hj not_mark_mem_lits) ha
    rw [spell_lits, List.map_id] at hspell
    rw [h.text, ← hspell]
    rfl
  have herases := protectTraced_erases h.erases i
  by_cases hzero : countOccurrences run.1.key (keyAt spans i) = 0
  · have hstep : protectStep run.1 i = run.1 :=
      protectStep_absent hspan (by rw [hspankey]; exact hzero)
    have htext : (protectTraced run i).2 = run.2 := by
      show replaceBy Prod.fst (keyAt run.1.protectedSpans i) _ run.2 = run.2
      refine replaceBy_of_absent Prod.fst ?_
      rw [h.keys, h.erases]
      exact hzero
    have hsame : m.protect (keyAt spans) i = m := if_pos (hcount ▸ hzero)
    have hrun : protectTraced run i = run := Prod.ext hstep htext
    rw [hsame, hrun]
    exact h
  · have hi : i < run.1.protectedSpans.length := (List.getElem?_eq_some_iff.mp hspan).1
    have hstep := protectStep_found hspan (by rw [hspankey]; exact hzero)
    rw [hspankey] at hstep
    have hm : m.protect (keyAt spans) i
        = { tokens := replaceAll ((keyAt spans i).map .lit) [.mark i] m.tokens
            placeholder := Function.update m.placeholder i
              (buildUniqueProtectedPlaceholder m.placeholderIndex m.text)
            placeholderIndex := m.placeholderIndex + 1 } := if_neg (hcount ▸ hzero)
    have hplace : placeholderAt (protectTraced run i).1.protectedSpans
        = (m.protect (keyAt spans) i).placeholder := by
      funext j
      show placeholderAt (protectStep run.1 i).protectedSpans j = _
      rw [hstep, hm, placeholderAt_set hi, h.placeholders, ← h.index, ← h.text]
      rfl
    have hold : ∀ j, Token.mark j ∈ m.tokens →
        m.placeholder j = (m.protect (keyAt spans) i).placeholder j := by
      intro j hj
      have hji : j ≠ i := fun he => hnew (he ▸ hj)
      rw [hm]
      exact (Function.update_of_ne hji _ _).symm
    refine ⟨?_, herases, hplace, ?_, ?_, ?_, ?_, ?_⟩
    · show replaceBy Prod.fst (keyAt run.1.protectedSpans i)
        (tagged (.placeholder i (placeholderAt (protectTraced run i).1.protectedSpans i))
          (placeholderAt (protectTraced run i).1.protectedSpans i)) run.2 = _
      rw [hplace, h.keys, h.traced, tracedOf_congr hold, replaceBy_tracedOf hkey
        (aligned_congr (fun j hj => absurd hj not_mark_mem_lits) hold ha)]
      rw [hm]
    · show keyAt (protectStep run.1 i).protectedSpans = _
      rw [hstep, ← h.keys]
      exact keyAt_set hspan rfl
    · show valueAt (protectStep run.1 i).protectedSpans = _
      rw [hstep, ← h.values]
      exact valueAt_set hspan rfl
    · show (protectStep run.1 i).protectedSpans.length = _
      simp [hstep, h.length]
    · show (protectStep run.1 i).placeholderIndex = _
      rw [hstep, hm, h.index]
    · show (protectStep run.1 i).placeholderCount = _
      rw [hstep, hm, marks_replaceAll hkey, h.count, hcount]

/-! ## Protecting all spans -/

/-- These spans still have their turn. -/
structure Pending (spans : List ProtectedConversionSpan) (m : MarkedKey) (order : List Nat) :
    Prop where
  nodup : order.Nodup
  inOrder : ∀ i ∈ order, i ∈ protectOrder spans
  fresh : ∀ i ∈ order, Token.mark i ∉ m.tokens

theorem mem_protectOrder (h : i ∈ protectOrder spans) :
    ∃ span, spans[i]? = some span ∧ takesPlaceholder span = true := by
  have hmem := (List.perm_insertionSort _ _).mem_iff.mp h
  rw [List.mem_filter] at hmem
  exact (Option.any_eq_true _ _).mp hmem.2

theorem keyAt_ne_nil (h : i ∈ protectOrder spans) : keyAt spans i ≠ [] := by
  obtain ⟨span, hspan, htakes⟩ := mem_protectOrder h
  rw [keyAt_eq hspan]
  simp only [takesPlaceholder, Bool.and_eq_true, Bool.not_eq_true', List.isEmpty_eq_false_iff]
    at htakes
  exact htakes.1.1

theorem valueAt_ne_nil (h : i ∈ protectOrder spans) : valueAt spans i ≠ [] := by
  obtain ⟨span, hspan, htakes⟩ := mem_protectOrder h
  simp only [takesPlaceholder, Bool.and_eq_true, Bool.not_eq_true', List.isEmpty_eq_false_iff]
    at htakes
  rw [valueAt, hspan]
  exact htakes.1.2

theorem Pending.start (key : Bytes) (spans : List ProtectedConversionSpan) :
    Pending spans (unmarked key spans) (protectOrder spans) where
  nodup := (List.perm_insertionSort _ _).nodup_iff.mpr (List.nodup_range.filter _)
  inOrder := fun _ hi => hi
  fresh := fun _ _ => not_mark_mem_lits

theorem Pending.tail (h : Pending spans m (i :: order)) :
    Pending spans (m.protect (keyAt spans) i) order where
  nodup := (List.nodup_cons.mp h.nodup).2
  inOrder := fun j hj => h.inOrder j (List.mem_cons_of_mem _ hj)
  fresh := fun j hj hmem => by
    rcases mark_mem_protect hmem with rfl | hmem
    · exact (List.nodup_cons.mp h.nodup).1 hj
    · exact h.fresh j (List.mem_cons_of_mem _ hj) hmem

/-- While all searches are apart the whole run stays on the marked key. -/
theorem Follows.foldl (h : Follows spans run m) (hwf : m.Wf key (keyAt spans) (protectOrder spans))
    (hpending : Pending spans m order) (ha : ReadingsApart (keyAt spans) m order) :
    Follows spans (order.foldl protectTraced run)
      (order.foldl (MarkedKey.protect (keyAt spans)) m) ∧
      (order.foldl (MarkedKey.protect (keyAt spans)) m).Wf key (keyAt spans)
        (protectOrder spans) := by
  induction order generalizing run m with
  | nil => exact ⟨h, hwf⟩
  | cons i order ih =>
    have hi := hpending.inOrder i List.mem_cons_self
    have hnew := hpending.fresh i List.mem_cons_self
    exact ih (h.protect (keyAt_ne_nil hi) hnew ha.1) (hwf.protect hi hnew) hpending.tail ha.2

/-- The account of one span. -/
theorem share_protectTraced (h : run.2.map Prod.fst = run.1.key) (i : Nat) :
    ((protectTraced run i).2.map placeholderShare).sum
        + ((removedBy Prod.fst (keyAt run.1.protectedSpans i) run.2).map placeholderShare).sum
        + run.1.placeholderCount
      = (run.2.map placeholderShare).sum + (protectTraced run i).1.placeholderCount := by
  have hsum := @sum_replaceBy _ _ _ Prod.fst (keyAt run.1.protectedSpans i)
    (tagged (.placeholder i (placeholderAt (protectTraced run i).1.protectedSpans i))
      (placeholderAt (protectTraced run i).1.protectedSpans i)) _ _ placeholderShare run.2
  rw [h] at hsum
  show ((replaceBy Prod.fst _ _ run.2).map placeholderShare).sum + _ + _
    = _ + ((protectStep run.1 i).placeholderCount : ℚ)
  rw [show (protectTraced run i).1 = protectStep run.1 i from rfl] at hsum
  rw [hsum]
  cases hspan : run.1.protectedSpans[i]? with
  | none =>
    have hcount : countOccurrences run.1.key (keyAt run.1.protectedSpans i) = 0 := by
      rw [keyAt, hspan]
      rfl
    have hstep : protectStep run.1 i = run.1 := by
      rw [protectStep, hspan]
    rw [hcount, zero_nsmul, add_zero, hstep]
  | some span =>
    rw [keyAt_eq hspan]
    by_cases hcount : countOccurrences run.1.key span.key = 0
    · rw [hcount, zero_nsmul, add_zero, protectStep_absent hspan hcount]
    · have hi : i < run.1.protectedSpans.length := (List.getElem?_eq_some_iff.mp hspan).1
      obtain ⟨suffix, hname, -⟩ :=
        buildUniqueProtectedPlaceholder_spec run.1.placeholderIndex run.1.key
      have hne : buildUniqueProtectedPlaceholder run.1.placeholderIndex run.1.key ≠ [] := by
        rw [hname]
        exact placeholderTry_ne_nil _ _
      rw [protectStep_found hspan hcount]
      dsimp only
      rw [placeholderAt_set hi, Function.update_self, withPlaceholder, sum_tagged hne fun _ => rfl,
        nsmul_eq_mul, mul_one, Nat.cast_add]
      linarith

theorem sum_nonneg_of (h : ∀ x, 0 ≤ weight x) (text : Traced) :
    0 ≤ (text.map weight).sum := by
  refine List.sum_nonneg fun y hy => ?_
  obtain ⟨x, -, rfl⟩ := List.mem_map.mp hy
  exact h x

/-- Nothing weighs less than nothing. -/
theorem weight_eq_zero_of_sum (h : ∀ x, 0 ≤ weight x) {text : Traced}
    (hsum : (text.map weight).sum ≤ 0) : ∀ x ∈ text, weight x = 0 := by
  intro x hx
  have hnonneg : ∀ y ∈ text.map weight, 0 ≤ y := by
    intro y hy
    obtain ⟨z, -, rfl⟩ := List.mem_map.mp hy
    exact h z
  have hle := List.single_le_sum hnonneg _ (List.mem_map_of_mem hx)
  exact le_antisymm (hle.trans hsum) (h x)

/-- No more shares than replacements. -/
theorem share_foldl_le (h : run.2.map Prod.fst = run.1.key) (order : List Nat) :
    ((order.foldl protectTraced run).2.map placeholderShare).sum + run.1.placeholderCount
      ≤ (run.2.map placeholderShare).sum + (order.foldl protectTraced run).1.placeholderCount := by
  induction order generalizing run with
  | nil => exact le_refl _
  | cons i order ih =>
    have hstep := share_protectTraced h i
    have hrest := ih (protectTraced_erases h i)
    have hremoved := sum_nonneg_of placeholderShare_nonneg
      (removedBy Prod.fst (keyAt run.1.protectedSpans i) run.2)
    rw [List.foldl_cons]
    linarith

/-- What took out no share of a placeholder found its reading in the text of the key. -/
theorem aligned_of_readingRemoved {place : Nat → Bytes} {k : Bytes}
    (hplace : ∀ j, Token.mark j ∈ tokens → place j ≠ [])
    (hzero : ∀ x ∈ removedBy Prod.fst k (tracedOf .placeholder place tokens),
      placeholderShare x = 0) : Aligned place (k.map .lit) tokens := by
  have hspot : ∀ j, Token.mark j ∈ tokens → tagged (.placeholder j (place j)) (place j) ≠ [] ∧
      ∀ x ∈ tagged (.placeholder j (place j)) (place j), ¬placeholderShare x = 0 := by
    intro j hj
    refine ⟨by simpa [tagged] using hplace j hj, fun x hx => ?_⟩
    obtain ⟨b, -, rfl⟩ := List.mem_map.mp hx
    exact (share_pos (hplace j hj)).ne'
  have ha := aligned_of_removed_letters (fun _ => rfl) hspot hzero
  simpa only [map_fst_tagged] using ha

/-- **If every placeholder is still there at the end, every search was apart.** -/
theorem readingsApart_of_share (h : Follows spans run m)
    (hwf : m.Wf key (keyAt spans) (protectOrder spans)) (hpending : Pending spans m order)
    (hshare : (run.2.map placeholderShare).sum
        + (order.foldl protectTraced run).1.placeholderCount
      ≤ ((order.foldl protectTraced run).2.map placeholderShare).sum + run.1.placeholderCount) :
    ReadingsApart (keyAt spans) m order := by
  induction order generalizing run m with
  | nil => trivial
  | cons i order ih =>
    have hi := hpending.inOrder i List.mem_cons_self
    have hnew := hpending.fresh i List.mem_cons_self
    have hstep := share_protectTraced h.erases i
    have hrest := share_foldl_le (protectTraced_erases h.erases i) order
    rw [List.foldl_cons] at hshare
    have hremoved := sum_nonneg_of placeholderShare_nonneg
      (removedBy Prod.fst (keyAt run.1.protectedSpans i) run.2)
    have hzero := weight_eq_zero_of_sum placeholderShare_nonneg
      (show ((removedBy Prod.fst (keyAt run.1.protectedSpans i) run.2).map placeholderShare).sum ≤ 0
        by linarith)
    rw [h.keys, h.traced] at hzero
    have ha := aligned_of_readingRemoved hwf.placeholder_ne_nil hzero
    exact ⟨ha, ih (h.protect (keyAt_ne_nil hi) hnew ha) (hwf.protect hi hnew) hpending.tail
      (by linarith)⟩

end Mozkey.Zenz.AdoptionPolicy
