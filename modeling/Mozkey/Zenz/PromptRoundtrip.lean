import Mozkey.Zenz.PromptRestore

/-!
# When prompt protection round-trips

`roundTrips_iff`: the key comes back with surfaces for its readings, and nothing of a placeholder
is left, if and only if no reading is found in placeholders and no placeholder is found where it
was not put.

Both halves of the proof go through the marked key: what the two runs of the code leave tells that
all their searches were apart, and while they are apart the runs do what protection is for.
-/

namespace Mozkey.Zenz.AdoptionPolicy

open Infra

variable {key : Bytes} {spans : List ProtectedConversionSpan} {run : ProtectState × Traced}
  {m : MarkedKey} {order : List Nat} {i : Nat}

theorem lists_protectedSpans (protectedSpans : List ProtectedConversionSpan) :
    Lists (placeholderAt protectedSpans) (valueAt protectedSpans) 0 protectedSpans := by
  intro k span hk
  simp [placeholderAt, valueAt, hk]

variable {tokens : List PromptToken} {place : Nat → Bytes}

theorem share_placeholders (hplace : ∀ j, Token.mark j ∈ tokens → place j ≠ []) :
    ((tracedOf .placeholder place tokens).map placeholderShare).sum = marks tokens := by
  have h : ((tracedOf .placeholder place tokens).map placeholderShare).sum
      = letters tokens • (0 : ℚ) + marks tokens • (1 : ℚ) :=
    sum_spell _ _ (fun _ => rfl) fun j hj => sum_tagged (hplace j hj) fun _ => rfl
  rw [h, nsmul_zero, zero_add, nsmul_one]

theorem share_surfaces {value : Nat → Bytes} (hvalue : ∀ j, Token.mark j ∈ tokens → value j ≠ []) :
    ((tracedOf .surface value tokens).map restoredShare).sum = letters tokens + marks tokens := by
  have h : ((tracedOf .surface value tokens).map restoredShare).sum
      = letters tokens • (1 : ℚ) + marks tokens • (1 : ℚ) :=
    sum_spell _ _ (fun _ => rfl) fun j hj => sum_tagged (hvalue j hj) fun _ => rfl
  simp [h]

theorem share_unrestored :
    ((tracedOf .placeholder place tokens).map restoredShare).sum = letters tokens := by
  have hmark : ∀ j : Nat,
      ((tagged (.placeholder j (place j)) (place j)).map restoredShare).sum = 0 := by
    intro j
    refine List.sum_eq_zero fun y hy => ?_
    obtain ⟨x, hx, rfl⟩ := List.mem_map.mp hy
    obtain ⟨b, -, rfl⟩ := List.mem_map.mp hx
    rfl
  have h : ((tracedOf .placeholder place tokens).map restoredShare).sum
      = letters tokens • (1 : ℚ) + marks tokens • (0 : ℚ) :=
    sum_spell _ _ (fun _ => rfl) fun j _ => hmark j
  rw [h, nsmul_one, nsmul_zero, add_zero]

theorem tracedHalf_zero {value : Nat → Bytes} :
    tracedHalf place value 0 tokens = tracedOf .placeholder place tokens :=
  spell_congr _ _ fun j _ => if_neg (Nat.not_lt_zero j)

theorem tracedHalf_all {value : Nat → Bytes} {n : Nat} (h : ∀ j, Token.mark j ∈ tokens → j < n) :
    tracedHalf place value n tokens = tracedOf .surface value tokens :=
  spell_congr _ _ fun j hj => if_pos (h j hj)

theorem tracedOf_injective {x y : List PromptToken} (hx : ∀ j, Token.mark j ∈ x → place j ≠ [])
    (hy : ∀ j, Token.mark j ∈ y → place j ≠ [])
    (h : tracedOf .placeholder place x = tracedOf .placeholder place y) : x = y := by
  have hne : ∀ {z : List PromptToken}, (∀ j, Token.mark j ∈ z → place j ≠ []) →
      ∀ j, Token.mark j ∈ z → tagged (.placeholder j (place j)) (place j) ≠ [] := by
    intro z hz j hj
    simpa [tagged] using hz j hj
  have hkey :
      ∀ (j : Nat) (b : UInt8), (b, Origin.key) ∉ tagged (.placeholder j (place j)) (place j) := by
    intro j b hmem
    obtain ⟨_, -, he⟩ := List.mem_map.mp hmem
    cases he
  have hmark : ∀ (i j : Nat) (c : UInt8 × Origin), c ∈ tagged (.placeholder i (place i)) (place i) →
      c ∈ tagged (.placeholder j (place j)) (place j) → i = j := by
    intro i j c hi hj
    obtain ⟨_, -, rfl⟩ := List.mem_map.mp hi
    obtain ⟨_, -, he⟩ := List.mem_map.mp hj
    rw [Prod.mk.injEq, Origin.placeholder.injEq] at he
    exact he.2.1.symm
  exact @spell_injective _ _ _ _ _ Prod.fst (fun _ => rfl) hkey hmark x y (hne hx) (hne hy) h

/-- The run of the code on the marked key, when the readings are apart. -/
theorem follows_protectRun
    (ha : ReadingsApart (keyAt spans) (unmarked key spans) (protectOrder spans)) :
    Follows spans (protectRun key spans) (markedKey key spans) ∧
      (markedKey key spans).Wf key (keyAt spans) (protectOrder spans) :=
  (Follows.start key spans).foldl (unmarked_wf key spans) (Pending.start key spans) ha

theorem readingsApart_of_roundTripsBy (h : RoundTripsBy key spans tokens) :
    ReadingsApart (keyAt spans) (unmarked key spans) (protectOrder spans) := by
  refine readingsApart_of_share (Follows.start key spans) (unmarked_wf key spans)
    (Pending.start key spans) ?_
  show ((tagged .key key).map placeholderShare).sum
      + ((protectRun key spans).1.placeholderCount : ℚ)
    ≤ ((protectRun key spans).2.map placeholderShare).sum + ((0 : Nat) : ℚ)
  have hstart : ((tagged .key key).map placeholderShare).sum = 0 := by
    refine List.sum_eq_zero fun y hy => ?_
    obtain ⟨x, hx, rfl⟩ := List.mem_map.mp hy
    obtain ⟨b, -, rfl⟩ := List.mem_map.mp hx
    rfl
  have hcount : (protectRun key spans).1.placeholderCount = marks tokens := by
    rw [h.replaced, ← protectRun_fst]
  simp [hstart, h.promptKey, share_placeholders fun j hj => (h.placed j hj).2, hcount, zero_add,
    add_zero]

theorem lt_length_of_mem_protectOrder (h : i ∈ protectOrder spans) : i < spans.length := by
  obtain ⟨span, hspan, -⟩ := mem_protectOrder h
  exact (List.getElem?_eq_some_iff.mp hspan).1

/-- **The way back is right exactly when the placeholders are apart.** -/
theorem restoreRun_iff (h : Follows spans run m)
    (hwf : m.Wf key (keyAt spans) (protectOrder spans)) :
    (restoreRun (run.2, 0) 0 run.1.protectedSpans).1 = tracedOf .surface (valueAt spans) m.tokens ∧
        (restoreRun (run.2, 0) 0 run.1.protectedSpans).2 = marks m.tokens ↔
      PlaceholdersApart m spans := by
  have hvalue : ∀ j, Token.mark j ∈ m.tokens → valueAt spans j ≠ [] :=
    fun j hj => valueAt_ne_nil (hwf.ordered j hj)
  have hlist : Lists m.placeholder (valueAt spans) 0 run.1.protectedSpans := by
    rw [← h.placeholders, ← h.values]
    exact lists_protectedSpans _
  have hlength : ∀ j, j < 0 + run.1.protectedSpans.length ↔ j < spans.length := by
    intro j
    simp [h.length]
  have hstart : ((tracedHalf m.placeholder (valueAt spans) 0 m.tokens).map restoredShare).sum
      = letters m.tokens := by
    rw [tracedHalf_zero, share_unrestored]
  rw [h.traced, ← @tracedHalf_zero _ m.placeholder (valueAt spans)]
  constructor
  · rintro ⟨hfinal, hcount⟩ i hi
    refine placeholdersApart_of_losesNothing hwf hvalue hlist hfinal ?_ i (Nat.zero_le i)
      ((hlength i).mpr hi)
    unfold LosesNothing
    simp [hfinal, hcount, hstart, share_surfaces hvalue, add_zero]
  · intro hback
    obtain ⟨hfinal, hloses⟩ := restoreRun_half hlist
      (fun j hj => ⟨hwf.placeholder_ne_nil j hj, hvalue j hj⟩)
      (fun j _ hj => hback j ((hlength j).mp hj)) 0
    have hall : ∀ j, Token.mark j ∈ m.tokens → j < 0 + run.1.protectedSpans.length :=
      fun j hj => (hlength j).mpr (lt_length_of_mem_protectOrder (hwf.ordered j hj))
    rw [tracedHalf_all hall] at hfinal
    refine ⟨hfinal, ?_⟩
    have hle := share_restoreRun_le run.1.protectedSpans
      (tracedHalf m.placeholder (valueAt spans) 0 m.tokens, 0) 0
    unfold LosesNothing at hloses
    rw [hfinal, hstart, share_surfaces hvalue] at hle hloses
    have heq : ((restoreRun (tracedHalf m.placeholder (valueAt spans) 0 m.tokens, 0) 0
        run.1.protectedSpans).2 : ℚ) = marks m.tokens := by
      rw [Nat.cast_zero] at hle hloses
      linarith
    exact_mod_cast heq

/-- **Protection round-trips exactly when no search finds its needle where it was not put.** -/
theorem roundTrips_iff (key : Bytes) (spans : List ProtectedConversionSpan) :
    RoundTrips key spans ↔
      ReadingsApart (keyAt spans) (unmarked key spans) (protectOrder spans) ∧
        PlaceholdersApart (markedKey key spans) spans := by
  constructor
  · rintro ⟨tokens, h⟩
    have hread := readingsApart_of_roundTripsBy h
    obtain ⟨hfollows, hwf⟩ := follows_protectRun hread
    -- the placeholders in the prompt key tell which tokens they are
    have htokens : tokens = (markedKey key spans).tokens := by
      have hplaced := h.placed
      have hprompt := h.promptKey
      rw [← protectRun_fst, hfollows.placeholders] at hplaced hprompt
      exact tracedOf_injective (fun j hj => (hplaced j hj).2) hwf.placeholder_ne_nil
        (hprompt.symm.trans hfollows.traced)
    have hrestored := h.restored
    have hreturned := h.returned
    rw [← h.replaced, ← protectRun_fst, htokens] at hreturned
    rw [← protectRun_fst, htokens] at hrestored
    exact ⟨hread, (restoreRun_iff hfollows hwf).mp ⟨hrestored, hreturned⟩⟩
  · rintro ⟨hread, hback⟩
    obtain ⟨hfollows, hwf⟩ := follows_protectRun hread
    obtain ⟨hrestored, hreturned⟩ := (restoreRun_iff hfollows hwf).mpr hback
    have hcount :
        marks (markedKey key spans).tokens = (protectPromptKey key spans).placeholderCount := by
      rw [← hfollows.count, ← protectRun_fst]
    have hplace : placeholderAt (protectPromptKey key spans).protectedSpans
        = (markedKey key spans).placeholder := by
      rw [← protectRun_fst]
      exact hfollows.placeholders
    refine ⟨(markedKey key spans).tokens, hwf.reading, fun i hi => ⟨hwf.ordered i hi, ?_⟩, ?_, ?_,
      hcount, ?_⟩
    · rw [hplace]
      exact hwf.placeholder_ne_nil i hi
    · rw [hplace]
      exact hfollows.traced
    · rw [← protectRun_fst]
      exact hrestored
    · rw [← hcount, ← protectRun_fst]
      exact hreturned

/-! ## A reading inside a placeholder -/

def mozcKey : Bytes := utf8 "じーぴーてぃーとMOZC"

/-- The shorter reading stands in every placeholder. -/
def mozcSpans : List ProtectedConversionSpan :=
  [{ key := utf8 "じーぴーてぃー", value := utf8 "GPT", tier := .identityCritical },
    { key := utf8 "MOZC", value := utf8 "MOZC", tier := .identityCritical }]

/-- **A placeholder is rewritten and comes back as text.** -/
theorem mozcKey_notRoundTrips :
    restorePlaceholders (protectPromptKey mozcKey mozcSpans).key
        (protectPromptKey mozcKey mozcSpans).protectedSpans
      = utf8 "__MOZC_ZENZ_PROTECTED_0__とMOZC" ∧ ¬RoundTrips mozcKey mozcSpans := by
  refine ⟨by decide +kernel, ?_⟩
  rintro ⟨tokens, h⟩
  have hread := readingsApart_of_roundTripsBy h
  revert hread
  decide +kernel

end Mozkey.Zenz.AdoptionPolicy
