import Mozkey.Zenz.PromptFollows

/-!
# The run of `RestorePlaceholders` on a marked key

While the placeholders are apart the run restores span after span (`restoreRun_half`).

That they were apart can be seen at the end: nothing of the key and of the surfaces was taken out
(`LosesNothing`). A search that is not apart takes out such a byte, or it begins inside another
placeholder; but a placeholder has one `M`, and none begins another.
-/

namespace Mozkey.Zenz.AdoptionPolicy

open Infra

variable {key : Bytes} {spans : List ProtectedConversionSpan} {run : ProtectState × Traced}
  {m : MarkedKey} {order : List Nat} {i : Nat}

/-! ## The way back -/

section Back

variable {place value : Nat → Bytes} {tokens : List PromptToken} {back : Traced × Nat}
  {span : ProtectedConversionSpan} {rest : List ProtectedConversionSpan}

/-- What stands for a mark when the first `i` spans have been restored, with its origin. -/
def halfTagged (place value : Nat → Bytes) (i j : Nat) : Traced :=
  if j < i then tagged (.surface j (value j)) (value j)
  else tagged (.placeholder j (place j)) (place j)

def tracedHalf (place value : Nat → Bytes) (i : Nat) : List PromptToken → Traced :=
  spell (·, .key) (halfTagged place value i)

theorem map_fst_halfTagged (i j : Nat) :
    (halfTagged place value i j).map Prod.fst = halfRestored place value i j := by
  unfold halfTagged halfRestored
  split
  · exact map_fst_tagged _ _
  · exact map_fst_tagged _ _

theorem map_fst_tracedHalf (i : Nat) (tokens : List PromptToken) :
    (tracedHalf place value i tokens).map Prod.fst =
      textOf (halfRestored place value i) tokens := by
  rw [tracedHalf, map_spell]
  simp only [map_fst_halfTagged]
  rfl

theorem halfTagged_self :
    halfTagged place value i i = tagged (.placeholder i (place i)) (place i) :=
  if_neg (Nat.lt_irrefl i)

theorem halfRestored_self : halfRestored place value i i = place i := if_neg (Nat.lt_irrefl i)

theorem halfTagged_succ : halfTagged place value (i + 1)
    = Function.update (halfTagged place value i) i (tagged (.surface i (value i)) (value i)) := by
  funext j
  rcases Nat.lt_trichotomy j i with hlt | rfl | hgt
  · rw [Function.update_of_ne (by omega), halfTagged, halfTagged, if_pos hlt, if_pos (by omega)]
  · simp [halfTagged]
  · rw [Function.update_of_ne (by omega), halfTagged, halfTagged, if_neg (by omega),
      if_neg (by omega)]

/-- The span is skipped. -/
theorem restoreTraced_skip (h : span.placeholder = [] ∨ span.value = []) :
    restoreTraced back i span = back := by
  refine if_pos ?_
  simpa using h

theorem restoreTraced_replace (hp : span.placeholder ≠ []) (hv : span.value ≠ []) :
    restoreTraced back i span =
      (replaceBy Prod.fst span.placeholder (tagged (.surface i span.value) span.value) back.1,
        back.2 + countOccurrences (back.1.map Prod.fst) span.placeholder) := by
  refine if_neg ?_
  simpa [not_or] using ⟨hp, hv⟩

/-- The account of one span. -/
theorem share_restoreTraced (hp : span.placeholder ≠ []) (hv : span.value ≠ []) :
    ((restoreTraced back i span).1.map restoredShare).sum
        + ((removedBy Prod.fst span.placeholder back.1).map restoredShare).sum + back.2
      = (back.1.map restoredShare).sum + (restoreTraced back i span).2 := by
  rw [restoreTraced_replace hp hv]
  dsimp only
  rw [sum_replaceBy, sum_tagged hv fun _ => rfl, nsmul_eq_mul, mul_one, Nat.cast_add]
  linarith

theorem share_restoreRun_le (rest : List ProtectedConversionSpan) (back : Traced × Nat) (i : Nat) :
    ((restoreRun back i rest).1.map restoredShare).sum + back.2
      ≤ (back.1.map restoredShare).sum + (restoreRun back i rest).2 := by
  induction rest generalizing back i with
  | nil => exact le_refl _
  | cons span rest ih =>
    have hrest := ih (restoreTraced back i span) (i + 1)
    rw [restoreRun]
    by_cases hskip : span.placeholder = [] ∨ span.value = []
    · rw [restoreTraced_skip hskip] at hrest ⊢
      exact hrest
    · rw [not_or] at hskip
      have hstep := @share_restoreTraced i back span hskip.1 hskip.2
      have hremoved := sum_nonneg_of restoredShare_nonneg
        (removedBy Prod.fst span.placeholder back.1)
      linarith

/-- The run back lost nothing that came from the key or from a surface. -/
def LosesNothing (back : Traced × Nat) (i : Nat) (rest : List ProtectedConversionSpan) : Prop :=
  (back.1.map restoredShare).sum + (restoreRun back i rest).2
    ≤ ((restoreRun back i rest).1.map restoredShare).sum + back.2

theorem LosesNothing.step (h : LosesNothing back i (span :: rest)) :
    LosesNothing (restoreTraced back i span) (i + 1) rest ∧
      (span.placeholder ≠ [] → span.value ≠ [] →
        ∀ x ∈ removedBy Prod.fst span.placeholder back.1, restoredShare x = 0) := by
  unfold LosesNothing at h ⊢
  rw [restoreRun] at h
  by_cases hskip : span.placeholder = [] ∨ span.value = []
  · rw [restoreTraced_skip hskip] at h ⊢
    exact ⟨h, fun hp hv => absurd hskip (not_or.mpr ⟨hp, hv⟩)⟩
  · rw [not_or] at hskip
    have hstep := @share_restoreTraced i back span hskip.1 hskip.2
    have hrest := share_restoreRun_le rest (restoreTraced back i span) (i + 1)
    have hremoved := sum_nonneg_of restoredShare_nonneg
      (removedBy Prod.fst span.placeholder back.1)
    exact ⟨by linarith, fun _ _ => weight_eq_zero_of_sum restoredShare_nonneg (by linarith)⟩

/-- What came from the key or from a surface stays. -/
theorem LosesNothing.mem (h : LosesNothing back i rest) {x : UInt8 × Origin} (hx : x ∈ back.1)
    (hshare : restoredShare x ≠ 0) : x ∈ (restoreRun back i rest).1 := by
  induction rest generalizing back i with
  | nil => exact hx
  | cons span rest ih =>
    obtain ⟨hrest, hremoved⟩ := h.step
    rw [restoreRun]
    refine ih hrest ?_
    by_cases hskip : span.placeholder = [] ∨ span.value = []
    · rw [restoreTraced_skip hskip]
      exact hx
    · rw [not_or] at hskip
      rw [restoreTraced_replace hskip.1 hskip.2]
      rcases mem_replaceBy_or_removedBy Prod.fst hx with hin | hout
      · exact hin
      · exact absurd (hremoved hskip.1 hskip.2 x hout) hshare

/-- The spans from `i` on have these placeholders and values. -/
def Lists (place value : Nat → Bytes) (i : Nat) (rest : List ProtectedConversionSpan) : Prop :=
  ∀ k span, rest[k]? = some span → span.placeholder = place (i + k) ∧ span.value = value (i + k)

theorem Lists.head (h : Lists place value i (span :: rest)) :
    span.placeholder = place i ∧ span.value = value i := h 0 span rfl

theorem Lists.tail (h : Lists place value i (span :: rest)) :
    Lists place value (i + 1) rest := by
  intro k span' hk
  have hindex : i + 1 + k = i + (k + 1) := by omega
  rw [hindex]
  exact h (k + 1) span' hk

/-- A span without a placeholder or a value has no mark. -/
theorem tracedHalf_skip (hmarks : ∀ j, Token.mark j ∈ tokens → place j ≠ [] ∧ value j ≠ [])
    (h : place i = [] ∨ value i = []) :
    tracedHalf place value (i + 1) tokens = tracedHalf place value i tokens := by
  refine spell_congr _ _ fun j hj => ?_
  have hji : j ≠ i := by
    rintro rfl
    rcases h with h | h
    · exact (hmarks j hj).1 h
    · exact (hmarks j hj).2 h
  rw [halfTagged_succ, Function.update_of_ne hji]

/-- **A placeholder that is apart becomes the surface**, and nothing else is lost. -/
theorem restoreTraced_half (hspan : span.placeholder = place i ∧ span.value = value i)
    (hmarks : ∀ j, Token.mark j ∈ tokens → place j ≠ [] ∧ value j ≠ [])
    (ha : place i ≠ [] → value i ≠ [] → Aligned (halfRestored place value i) [.mark i] tokens)
    (n : Nat) :
    (restoreTraced (tracedHalf place value i tokens, n) i span).1
        = tracedHalf place value (i + 1) tokens ∧
      (span.placeholder ≠ [] → span.value ≠ [] →
        ∀ x ∈ removedBy Prod.fst span.placeholder (tracedHalf place value i tokens),
          restoredShare x = 0) := by
  by_cases hskip : span.placeholder = [] ∨ span.value = []
  · rw [restoreTraced_skip hskip]
    rw [hspan.1, hspan.2] at hskip
    refine ⟨(tracedHalf_skip hmarks hskip).symm, fun hp hv => ?_⟩
    rw [hspan.1] at hp
    rw [hspan.2] at hv
    exact absurd hskip (not_or.mpr ⟨hp, hv⟩)
  · rw [not_or] at hskip
    rw [restoreTraced_replace hskip.1 hskip.2, hspan.1, hspan.2]
    rw [hspan.1, hspan.2] at hskip
    have hi : halfRestored place value i i ≠ [] := by
      rw [halfRestored_self]
      exact hskip.1
    have h := @replaceBy_spell_mark _ _ _ _ (halfRestored place value i) tokens _ Prod.fst
      (·, Origin.key) (halfTagged place value i) (tagged (.surface i (value i)) (value i)) i
      (fun _ => rfl) (map_fst_halfTagged i) hi (ha hskip.1 hskip.2)
    rw [halfRestored_self, ← halfTagged_succ, halfTagged_self] at h
    refine ⟨h.1, fun _ _ x hx => ?_⟩
    obtain ⟨b, -, rfl⟩ := List.mem_map.mp (h.2 hx)
    rfl

/-- While all placeholders are apart the way back restores span after span. -/
theorem restoreRun_half (hlist : Lists place value i rest)
    (hmarks : ∀ j, Token.mark j ∈ tokens → place j ≠ [] ∧ value j ≠ [])
    (ha : ∀ j, i ≤ j → j < i + rest.length → place j ≠ [] → value j ≠ [] →
      Aligned (halfRestored place value j) [.mark j] tokens) (n : Nat) :
    (restoreRun (tracedHalf place value i tokens, n) i rest).1
        = tracedHalf place value (i + rest.length) tokens ∧
      LosesNothing (tracedHalf place value i tokens, n) i rest := by
  induction rest generalizing i n with
  | nil => exact ⟨rfl, le_refl _⟩
  | cons span rest ih =>
    obtain ⟨hnext, hremoved⟩ := restoreTraced_half hlist.head hmarks
      (ha i (Nat.le_refl i) (by rw [List.length_cons]; omega)) n
    have hpair : restoreTraced (tracedHalf place value i tokens, n) i span
        = (tracedHalf place value (i + 1) tokens,
          (restoreTraced (tracedHalf place value i tokens, n) i span).2) := Prod.ext hnext rfl
    obtain ⟨hfinal, hloses⟩ := ih hlist.tail (fun j hij hj => ha j (by omega)
      (by rw [List.length_cons]; omega))
      (restoreTraced (tracedHalf place value i tokens, n) i span).2
    rw [← hpair] at hfinal hloses
    refine ⟨?_, ?_⟩
    · rw [restoreRun, hfinal, List.length_cons]
      congr 1
      omega
    · unfold LosesNothing at hloses ⊢
      rw [restoreRun]
      by_cases hskip : span.placeholder = [] ∨ span.value = []
      · rw [restoreTraced_skip hskip] at hloses ⊢
        exact hloses
      · rw [not_or] at hskip
        have hstep :=
          @share_restoreTraced i (tracedHalf place value i tokens, n) span hskip.1 hskip.2
        have hzero : ((removedBy Prod.fst span.placeholder
            (tracedHalf place value i tokens)).map restoredShare).sum = 0 := by
          refine List.sum_eq_zero fun y hy => ?_
          obtain ⟨x, hx, rfl⟩ := List.mem_map.mp hy
          exact hremoved hskip.1 hskip.2 x hx
        dsimp only at hstep hloses ⊢
        linarith

/-- **What took out nothing but placeholders found its own one.** -/
theorem aligned_of_placeholderRemoved (hwf : m.Wf key (keyAt spans) order)
    (hvalue : ∀ j, Token.mark j ∈ m.tokens → value j ≠ []) (hi : Token.mark i ∈ m.tokens)
    (hzero : ∀ x ∈ removedBy Prod.fst (m.placeholder i) (tracedHalf m.placeholder value i m.tokens),
      restoredShare x = 0) :
    Aligned (halfRestored m.placeholder value i) [.mark i] m.tokens := by
  intro pos hpos
  obtain ⟨index, -, suffix, hname⟩ := hwf.named i hi
  rw [spell_mark, halfRestored_self] at hpos
  have hseen := @map_fst_tracedHalf m.placeholder value i m.tokens
  rw [textOf] at hseen
  rw [← hseen] at hpos
  -- the third byte of what was found
  have hthird : (m.placeholder i)[2]? = some (byte 'M') := by
    rw [hname, placeholderTry_eq]
    rfl
  have hlong : 2 < (m.placeholder i).length := (List.getElem?_eq_some_iff.mp hthird).1
  have hprefix := prefix_of_mem_occurrences hpos
  have hbyte : ((tracedHalf m.placeholder value i m.tokens)[pos + 2]?).map Prod.fst
      = some (byte 'M') := by
    obtain ⟨tail, htail⟩ := hprefix
    rw [← List.getElem?_map, ← List.getElem?_drop, ← htail, List.getElem?_append_left hlong]
    exact hthird
  obtain ⟨x, hx, hxM⟩ := Option.map_eq_some_iff.mp hbyte
  have hxremoved : restoredShare x = 0 := by
    refine hzero x (mem_removedBy Prod.fst hpos (List.mem_of_getElem? (i := 2) ?_))
    rw [List.getElem?_take_of_lt hlong, List.getElem?_drop]
    exact hx
  obtain ⟨before, t, after, htokens, hle, hlt⟩ := exists_token_at (·, Origin.key)
    (halfTagged m.placeholder value i) (List.getElem?_eq_some_iff.mp hx).1
  obtain ⟨offset, hoffset⟩ := Nat.exists_eq_add_of_le hle
  have hxt : (t.text (·, Origin.key) (halfTagged m.placeholder value i))[offset]? = some x := by
    rw [htokens, tracedHalf, spell_append, spell_cons, List.getElem?_append_right hle, hoffset,
      Nat.add_sub_cancel_left, List.getElem?_append_left (by omega)] at hx
    exact hx
  cases t with
  | lit b =>
    obtain rfl : x = (b, .key) := List.mem_singleton.mp (List.mem_of_getElem? hxt)
    exact absurd hxremoved one_ne_zero
  | mark j =>
    have hj : Token.mark j ∈ m.tokens := by
      rw [htokens]
      exact List.mem_append_right _ List.mem_cons_self
    rw [Token.text, halfTagged] at hxt
    by_cases hji : j < i
    · -- a surface
      rw [if_pos hji] at hxt
      obtain ⟨b, -, rfl⟩ := List.mem_map.mp (List.mem_of_getElem? hxt)
      exact absurd hxremoved (share_pos (hvalue j hj)).ne'
    · rw [if_neg hji, tagged, List.getElem?_map] at hxt
      obtain ⟨b, hb, rfl⟩ := Option.map_eq_some_iff.mp hxt
      obtain ⟨index', -, suffix', hname'⟩ := hwf.named j hj
      rw [hname', show b = byte 'M' from hxM] at hb
      obtain rfl := eq_two_of_placeholderTry_eq hb
      have hpos :
          pos = (spell (·, Origin.key) (halfTagged m.placeholder value i) before).length := by
        omega
      -- one of the two placeholders begins the other
      have hfrom : m.placeholder i <+: m.placeholder j
          ++ textOf (halfRestored m.placeholder value i) after := by
        have hdrop : (tracedHalf m.placeholder value i m.tokens).drop pos
            = halfTagged m.placeholder value i j
              ++ spell (·, Origin.key) (halfTagged m.placeholder value i) after := by
          rw [tracedHalf, htokens, spell_append, hpos, List.drop_left, spell_cons]
          rfl
        rw [← List.map_drop, hdrop, List.map_append, map_fst_halfTagged, halfRestored,
          if_neg hji] at hprefix
        rw [← map_fst_tracedHalf]
        exact hprefix
      have hij : i = j := by
        rcases Nat.le_total (m.placeholder i).length (m.placeholder j).length with hlen | hlen
        · exact hwf.apart i j hi hj
            (List.prefix_of_prefix_length_le hfrom (List.prefix_append _ _) hlen)
        · exact (hwf.apart j i hj hi
            (List.prefix_of_prefix_length_le (List.prefix_append _ _) hfrom hlen)).symm
      subst hij
      refine ⟨before.length, ?_, ?_, ?_⟩
      · rw [htokens, List.length_append]
        omega
      · rw [htokens, List.take_left, hpos, ← List.length_map Prod.fst]
        exact congrArg List.length (map_fst_tracedHalf i before).symm
      · simp [htokens]

theorem mark_mem_of_surface_mem {b : UInt8} {text : Bytes}
    (h : (b, Origin.surface i text) ∈ tracedOf .surface value tokens) : Token.mark i ∈ tokens := by
  obtain ⟨t, ht, hmem⟩ := List.mem_flatMap.mp h
  cases t with
  | lit c => cases List.mem_singleton.mp hmem
  | mark j =>
    obtain ⟨_, -, he⟩ := List.mem_map.mp hmem
    rw [Prod.mk.injEq, Origin.surface.injEq] at he
    exact he.2.1 ▸ ht

/-- **If nothing is lost on the way back, every placeholder was apart.** -/
theorem placeholdersApart_of_losesNothing (hwf : m.Wf key (keyAt spans) order)
    (hvalue : ∀ j, Token.mark j ∈ m.tokens → value j ≠ [])
    (hlist : Lists m.placeholder value i rest) {n : Nat}
    (hfinal : (restoreRun (tracedHalf m.placeholder value i m.tokens, n) i rest).1
      = tracedOf .surface value m.tokens)
    (hloses : LosesNothing (tracedHalf m.placeholder value i m.tokens, n) i rest) :
    ∀ j, i ≤ j → j < i + rest.length → m.placeholder j ≠ [] → value j ≠ [] →
      Aligned (halfRestored m.placeholder value j) [.mark j] m.tokens := by
  have hmarks : ∀ j, Token.mark j ∈ m.tokens → m.placeholder j ≠ [] ∧ value j ≠ [] :=
    fun j hj => ⟨hwf.placeholder_ne_nil j hj, hvalue j hj⟩
  induction rest generalizing i n with
  | nil =>
    intro j hij hj
    simp at hj
    omega
  | cons span rest ih =>
    obtain ⟨hp, hv⟩ := hlist.head
    obtain ⟨hnext, hremoved⟩ := hloses.step
    have ha : m.placeholder i ≠ [] → value i ≠ [] →
        Aligned (halfRestored m.placeholder value i) [.mark i] m.tokens := by
      intro hpi hvi
      rw [hp, hv] at hremoved
      by_cases hi : Token.mark i ∈ m.tokens
      · exact aligned_of_placeholderRemoved hwf hvalue hi (hremoved hpi hvi)
      · -- a surface put in would still be there
        have hnone : countOccurrences
            ((tracedHalf m.placeholder value i m.tokens).map Prod.fst) (m.placeholder i) = 0 := by
          by_contra hfound
          obtain ⟨b, tail, hb⟩ := List.exists_cons_of_ne_nil hvi
          have hin : (b, Origin.surface i (value i))
              ∈ (restoreTraced (tracedHalf m.placeholder value i m.tokens, n) i span).1 := by
            rw [restoreTraced_replace (hp ▸ hpi) (hv ▸ hvi), hp, hv]
            refine new_subset_replaceBy Prod.fst hfound (List.mem_map.mpr ⟨b, ?_, rfl⟩)
            simp [hb]
          have hstays := hnext.mem hin (share_pos hvi).ne'
          rw [← restoreRun, hfinal] at hstays
          exact hi (mark_mem_of_surface_mem hstays)
        rw [map_fst_tracedHalf, textOf] at hnone
        intro pos hpos
        rw [spell_mark, halfRestored_self, List.eq_nil_of_length_eq_zero hnone] at hpos
        cases hpos
    have hpair : restoreTraced (tracedHalf m.placeholder value i m.tokens, n) i span
        = (tracedHalf m.placeholder value (i + 1) m.tokens,
          (restoreTraced (tracedHalf m.placeholder value i m.tokens, n) i span).2) :=
      Prod.ext (restoreTraced_half ⟨hp, hv⟩ hmarks ha n).1 rfl
    rw [restoreRun, hpair] at hfinal
    rw [hpair] at hnext
    intro j hij hj
    rcases Nat.eq_or_lt_of_le hij with rfl | hlt
    · exact ha
    · exact ih hlist.tail hfinal hnext j hlt (by rw [List.length_cons] at hj; omega)

end Back

end Mozkey.Zenz.AdoptionPolicy
