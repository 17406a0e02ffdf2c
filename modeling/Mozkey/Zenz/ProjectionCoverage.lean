import Mozkey.Base.Utf8Text
import Mozkey.Zenz.SegmentProjection
import Mozkey.Infra.Occurrences

/-!
# What a projection covers

The Mozc values of the projected segments, put together, are the values of the baseline
segments. Nothing checks this at run time (only the keys and the output are compared), and it
is true because the values are Unicode texts: the separators that are peeled off are
characters, found by their leading bytes.
-/

namespace Mozkey.Zenz.SegmentProjection

open Infra Base

/-! ## Coverage -/

/-- The segments cover the value, and one that is not changed has the same output. -/
structure Covers (segments : List ZenzProjectedSegment) (value : Bytes) : Prop where
  mozcValue : segments.flatMap (·.mozcValue) = value
  unicode : ∀ s ∈ segments, IsUnicode s.mozcValue
  unchanged : ∀ s ∈ segments, s.changed = false → s.zenzValue = s.mozcValue

theorem Covers.nil : Covers [] [] := ⟨rfl, by simp, by simp⟩

theorem Covers.append {a b : List ZenzProjectedSegment} {x y : Bytes} (ha : Covers a x)
    (hb : Covers b y) : Covers (a ++ b) (x ++ y) := by
  refine ⟨?_, ?_, ?_⟩
  · simp [ha.mozcValue, hb.mozcValue]
  · intro s hs
    rcases List.mem_append.mp hs with hs | hs
    · exact ha.unicode s hs
    · exact hb.unicode s hs
  · intro s hs
    rcases List.mem_append.mp hs with hs | hs
    · exact ha.unchanged s hs
    · exact hb.unchanged s hs

theorem Covers.singleton {s : ZenzProjectedSegment} (hu : IsUnicode s.mozcValue)
    (hs : s.changed = false → s.zenzValue = s.mozcValue) : Covers [s] s.mozcValue := by
  refine ⟨List.flatMap_singleton _ _, ?_, ?_⟩
  · intro t ht
    rw [List.mem_singleton.mp ht]
    exact hu
  · intro t ht
    rw [List.mem_singleton.mp ht]
    exact hs

/-! ## Peeling -/

theorem isPeelable_same {keyChar mozcChar zenzChar : Bytes}
    (h : isPeelableUnchangedSeparator keyChar mozcChar zenzChar = true) : zenzChar = mozcChar := by
  unfold isPeelableUnchangedSeparator at h
  split at h
  · cases h
  · next hcond =>
    rw [Bool.or_eq_true, Bool.or_eq_true, not_or, not_or] at hcond
    have hne : ¬(mozcChar != zenzChar) = true := hcond.1.2
    rw [bne_iff_ne, not_not] at hne
    exact hne.symm

theorem not_exhausted {u : LexicalUnit} (h : ¬u.isExhausted = true) : u.mozcValue ≠ [] := by
  intro hnil
  refine h ?_
  rw [LexicalUnit.isExhausted, hnil]
  simp

theorem peelLeading_covers : ∀ (n : Nat) (u : LexicalUnit), IsUnicode u.mozcValue →
    ∃ value, Covers (peelLeading n u).1 value ∧ IsUnicode (peelLeading n u).2.mozcValue ∧
      value ++ (peelLeading n u).2.mozcValue = u.mozcValue
  | 0, u, hu => ⟨[], .nil, hu, rfl⟩
  | n + 1, u, hu => by
    rw [peelLeading]
    split
    · exact ⟨[], .nil, hu, rfl⟩
    · next hex =>
      dsimp only
      split
      · exact ⟨[], .nil, hu, rfl⟩
      · next hpeel =>
        rw [Bool.not_eq_true', Bool.not_eq_false] at hpeel
        have hsame := isPeelable_same hpeel
        obtain ⟨v, rest, hv, hchar, hrest⟩ := hu.exists_first (not_exhausted hex)
        have hfirst : utf8SubString u.mozcValue 0 1 = v := by
          obtain ⟨chars, hchars, rfl⟩ := (isUnicode_iff rest).mp hrest
          rw [hv, ← List.flatten_cons]
          exact utf8SubString_first hchar hchars
        have hdrop : u.mozcValue.drop v.length = rest := by rw [hv, List.drop_left]
        rw [hfirst] at hsame ⊢
        rw [hdrop]
        obtain ⟨value, hcov, huni, hval⟩ := peelLeading_covers n
          ⟨u.key.drop (utf8SubString u.key 0 1).length, rest,
            u.acceptedValue.drop (utf8SubString u.acceptedValue 0 1).length⟩ hrest
        refine ⟨v ++ value, ?_, huni, by rw [List.append_assoc, hval, hv]⟩
        have hsep : IsUnicode v := by
          have hone := (isUnicode_cons hchar).mpr isUnicode_nil
          rwa [List.append_nil] at hone
        exact (Covers.singleton (s := ⟨utf8SubString u.key 0 1, v, _, false, true, []⟩) hsep
          fun _ => hsame).append hcov

/-- The last character of a text. -/
theorem exists_last {s : Bytes} (h : IsUnicode s) (hne : s ≠ []) :
    ∃ rest u, s = rest ++ u ∧ IsUnicode rest ∧ IsUnicode u ∧ lastUtf8Char s = u := by
  obtain ⟨chars, hchars, rfl⟩ := (isUnicode_iff s).mp h
  have hcne : chars ≠ [] := by
    rintro rfl
    exact hne rfl
  obtain ⟨chars', u, rfl⟩ : ∃ cs u, chars = cs ++ [u] :=
    ⟨chars.dropLast, chars.getLast hcne, (List.dropLast_append_getLast hcne).symm⟩
  have hu : IsChar u := hchars u (by simp)
  have hrest : ∀ v ∈ chars', IsChar v := fun v hv => hchars v (List.mem_append_left _ hv)
  refine ⟨chars'.flatten, u, by simp, isUnicode_flatten hrest, ?_, utf8SubString_last hu hrest⟩
  have hone := (isUnicode_cons hu).mpr isUnicode_nil
  rwa [List.append_nil] at hone

theorem peelTrailing_covers : ∀ (n : Nat) (u : LexicalUnit), IsUnicode u.mozcValue →
    ∃ value, Covers (peelTrailing n u).2 value ∧ IsUnicode (peelTrailing n u).1.mozcValue ∧
      (peelTrailing n u).1.mozcValue ++ value = u.mozcValue
  | 0, u, hu => ⟨[], .nil, hu, List.append_nil _⟩
  | n + 1, u, hu => by
    rw [peelTrailing]
    split
    · exact ⟨[], .nil, hu, List.append_nil _⟩
    · next hex =>
      dsimp only
      split
      · exact ⟨[], .nil, hu, List.append_nil _⟩
      · next hpeel =>
        rw [Bool.not_eq_true', Bool.not_eq_false] at hpeel
        have hsame := isPeelable_same hpeel
        obtain ⟨rest, v, hv, hrest, hsep, hlast⟩ := exists_last hu (not_exhausted hex)
        have htake : removeSuffix u.mozcValue v.length = rest := by
          simp [removeSuffix, hv]
        rw [hlast] at hsame ⊢
        rw [htake]
        obtain ⟨value, hcov, huni, hval⟩ := peelTrailing_covers n
          ⟨removeSuffix u.key (lastUtf8Char u.key).length, rest,
            removeSuffix u.acceptedValue (lastUtf8Char u.acceptedValue).length⟩ hrest
        refine ⟨value ++ v, ?_, huni, by rw [← List.append_assoc, hval, hv]⟩
        exact hcov.append (Covers.singleton
          (s := ⟨lastUtf8Char u.key, v, _, false, true, []⟩) hsep fun _ => hsame)

/-! ## One segment, a gap, all anchors -/

theorem covers_core (core : LexicalUnit) (h : IsUnicode core.mozcValue) :
    Covers [{ key := core.key, mozcValue := core.mozcValue, zenzValue := core.acceptedValue,
              changed := core.acceptedValue != core.mozcValue }] core.mozcValue := by
  refine Covers.singleton h fun hc => ?_
  have hne : ¬(core.acceptedValue != core.mozcValue) = true := by
    simpa using hc
  rw [bne_iff_ne, not_not] at hne
  exact hne

theorem appendBaselineSegment_covers {baseline : ZenzBaselineSegment} {zenzValue : Bytes}
    {segments : List ZenzProjectedSegment} (hu : IsUnicode baseline.value)
    (h : appendBaselineSegment baseline zenzValue = some segments) :
    Covers segments baseline.value := by
  unfold appendBaselineSegment at h
  split at h
  · cases h
  · split at h
    · next hsame =>
      cases h
      exact Covers.singleton hu fun _ => hsame
    · dsimp only at h
      split at h
      · cases h
        exact Covers.singleton hu fun hc => by cases hc
      · cases h
        obtain ⟨front, hfront, huni, hfval⟩ := peelLeading_covers baseline.key.length
          ⟨baseline.key, baseline.value, zenzValue⟩ hu
        obtain ⟨back, hback, hcore, hbval⟩ := peelTrailing_covers
          (peelLeading baseline.key.length ⟨baseline.key, baseline.value, zenzValue⟩).2.key.length
          _ huni
        have hcov := (hfront.append (covers_core _ hcore)).append hback
        simpa [List.append_assoc front, hbval, hfval] using hcov

theorem anchorOf_some {fullValue : Bytes} {s : ZenzBaselineSegment} {k : Nat} {anchor : Anchor}
    (h : anchorOf fullValue s k = some anchor) : anchor.index = k ∧ anchor.segment = s := by
  unfold anchorOf at h
  split at h
  · cases h
  · obtain ⟨p, -, rfl⟩ := Option.map_eq_some_iff.mp h
    exact ⟨rfl, rfl⟩

/-- What holds of the projection of single segments and of gaps, and of projections put together. -/
structure Piecewise (segments : List ZenzBaselineSegment)
    (P : List ZenzBaselineSegment → List ZenzProjectedSegment → Prop) : Prop where
  nil : P [] []
  append {a b : List ZenzBaselineSegment} {x y : List ZenzProjectedSegment} (ha : P a x)
    (hb : P b y) : P (a ++ b) (x ++ y)
  single {s : ZenzBaselineSegment} {zenzValue : Bytes} {projected : List ZenzProjectedSegment}
    (hs : s ∈ segments) (h : appendBaselineSegment s zenzValue = some projected) : P [s] projected
  several {gap : List ZenzBaselineSegment} (zenzValue : Bytes) (hgap : gap ⊆ segments)
    (hlen : 2 ≤ gap.length) :
    P gap [{ key := gap.flatMap (·.key), mozcValue := gap.flatMap (·.value),
             zenzValue := zenzValue, changed := true, boundaryKnown := false,
             baselineKeys := gap.map (·.key) }]

namespace Piecewise

variable {segments : List ZenzBaselineSegment}
  {P : List ZenzBaselineSegment → List ZenzProjectedSegment → Prop}

/-- Segments that keep their values. -/
theorem appendEach (hP : Piecewise segments P) : ∀ {gap : List ZenzBaselineSegment}
    {each : List (List ZenzProjectedSegment)}, gap ⊆ segments →
    gap.mapM (fun s => appendBaselineSegment s s.value) = some each → P gap each.flatten
  | [], each, _, h => by
    rw [List.mapM_nil] at h
    obtain rfl : [] = each := Option.some.inj h
    exact hP.nil
  | s :: gap, each, hgap, h => by
    rw [List.mapM_cons] at h
    obtain ⟨first, hfirst, h⟩ := Option.bind_eq_some_iff.mp h
    obtain ⟨rest, hrest, h⟩ := Option.bind_eq_some_iff.mp h
    obtain rfl : first :: rest = each := Option.some.inj h
    obtain ⟨hs, hgap⟩ := List.cons_subset.mp hgap
    exact hP.append (hP.single hs hfirst) (hP.appendEach hgap hrest)

theorem appendGap (hP : Piecewise segments P) {gap : List ZenzBaselineSegment} {zenzValue : Bytes}
    {projected : List ZenzProjectedSegment} (hgap : gap ⊆ segments)
    (h : SegmentProjection.appendGap gap zenzValue = some projected) : P gap projected := by
  unfold SegmentProjection.appendGap at h
  split at h
  · split at h
    · obtain rfl : [] = projected := Option.some.inj h
      exact hP.nil
    · cases h
  · split at h
    · cases h
    · exact hP.single (hgap List.mem_cons_self) h
  · next hnil hone =>
    split at h
    · cases h
    split at h
    · obtain ⟨each, heach, rfl⟩ := Option.map_eq_some_iff.mp h
      exact hP.appendEach hgap heach
    · cases h
      refine hP.several zenzValue hgap ?_
      rcases gap with _ | ⟨s, _ | ⟨t, gap⟩⟩
      · exact absurd rfl hnil
      · exact absurd rfl (hone s)
      · simp

/-- The anchors from segment `k` on, when the segments before `first` are done. -/
theorem appendAnchored (hP : Piecewise segments P) {fullValue : Bytes} :
    ∀ (rest : List ZenzBaselineSegment) (k first leftEnd : Nat)
      (projected : List ZenzProjectedSegment), first ≤ k → segments.drop k = rest →
    SegmentProjection.appendAnchored segments fullValue first leftEnd
      ((rest.zipIdx k).filterMap fun (s, i) => anchorOf fullValue s i) = some projected →
    P (segments.drop first) projected
  | [], k, first, leftEnd, projected, _, _, h => by
    rw [List.zipIdx_nil, List.filterMap_nil, SegmentProjection.appendAnchored] at h
    exact hP.appendGap (List.drop_subset _ _) h
  | s :: rest, k, first, leftEnd, projected, hk, hdrop, h => by
    have hrest : segments.drop (k + 1) = rest := by
      simp [← List.drop_drop, hdrop]
    rw [List.zipIdx_cons, List.filterMap_cons] at h
    dsimp only at h
    split at h
    · exact hP.appendAnchored rest (k + 1) first leftEnd projected (by omega) hrest h
    · next anchor hanchor =>
      obtain ⟨hindex, hsegment⟩ := anchorOf_some hanchor
      rw [SegmentProjection.appendAnchored] at h
      obtain ⟨gap, hgap, h⟩ := Option.bind_eq_some_iff.mp h
      obtain ⟨own, hown, h⟩ := Option.bind_eq_some_iff.mp h
      obtain ⟨tail, htail, h⟩ := Option.bind_eq_some_iff.mp h
      obtain rfl : gap ++ own ++ tail = projected := Option.some.inj h
      rw [hindex] at hgap htail
      rw [hsegment] at hown
      have hs : s ∈ segments := List.mem_of_mem_drop (by rw [hdrop]; exact List.mem_cons_self)
      have hsplit : segments.drop first
          = (segments.drop first).take (k - first) ++ [s] ++ segments.drop (k + 1) := by
        have htd := List.take_append_drop (k - first) (segments.drop first)
        rw [List.drop_drop, Nat.add_sub_cancel' hk, hdrop, ← hrest] at htd
        simpa using htd.symm
      have hfront : (segments.drop first).take (k - first) ⊆ segments :=
        List.Subset.trans (List.take_subset _ _) (List.drop_subset _ _)
      rw [hsplit]
      exact hP.append (hP.append (hP.appendGap hfront hgap) (hP.single hs hown))
        (hP.appendAnchored rest (k + 1) (k + 1) _ tail (Nat.le_refl _) hrest htail)

end Piecewise

theorem piecewise_covers {segments : List ZenzBaselineSegment}
    (hu : ∀ s ∈ segments, IsUnicode s.value) :
    Piecewise segments fun gap projected => Covers projected (gap.flatMap (·.value)) where
  nil := .nil
  append ha hb := by
    simpa using ha.append hb
  single hs h := by
    simpa using appendBaselineSegment_covers (hu _ hs) h
  several zenzValue hgap _ :=
    Covers.singleton (isUnicode_flatMap fun s hs => hu s (hgap hs)) fun hc => by cases hc

/-! ## The projection -/

/-- Only keys are normalized. -/
theorem reconcile_values {baselineSegments segments : List ZenzBaselineSegment} {fullKey : Bytes}
    (h : reconcileZenzBaselineKeysForRequest baselineSegments fullKey = some segments) :
    segments.map (·.value) = baselineSegments.map (·.value) := by
  unfold reconcileZenzBaselineKeysForRequest at h
  split at h
  · cases h
  · split at h
    · cases h
    · split at h
      · cases h
        rfl
      · dsimp only at h
        split at h
        · cases h
          simp
        · cases h

/-- **The projected segments cover the values of the baseline segments.** -/
theorem project_covers {baselineSegments : List ZenzBaselineSegment} {fullKey fullValue : Bytes}
    {projected : List ZenzProjectedSegment} (hu : ∀ s ∈ baselineSegments, IsUnicode s.value)
    (h : projectZenzValueToMozcSegments baselineSegments fullKey fullValue = some projected) :
    Covers projected (baselineSegments.flatMap (·.value)) := by
  obtain ⟨segments, hrec, happ, -⟩ := project_some h
  have hvalues := reconcile_values hrec
  have hu' : ∀ s ∈ segments, IsUnicode s.value := by
    intro s hs
    have hmem : s.value ∈ baselineSegments.map (·.value) := by
      rw [← hvalues]
      exact List.mem_map_of_mem hs
    obtain ⟨t, ht, hts⟩ := List.mem_map.mp hmem
    rw [← hts]
    exact hu t ht
  have hcov := (piecewise_covers hu').appendAnchored segments 0 0 0 projected (Nat.le_refl 0) rfl
    happ
  rw [List.drop_zero, List.flatMap_def, hvalues] at hcov
  rw [List.flatMap_def]
  exact hcov

/-!
## Where an anchor may stand

An anchor is a value that the output holds once. It is counted without overlaps, so a value that
overlaps itself, as repeated kana do, can be an anchor and stand in two places.

* `anchors_unambiguous_iff` — when every anchor of a projection has one place
* `anchor_stands_twice` — one that has two
-/

/-- Every anchor of a projection that succeeds stands in one place only, so that what is left to
its neighbours is forced. -/
def AnchorsUnambiguous (baselineSegments : List ZenzBaselineSegment) (fullKey fullValue : Bytes) :
    Prop :=
  ∀ projected segments,
    projectZenzValueToMozcSegments baselineSegments fullKey fullValue = some projected →
    reconcileZenzBaselineKeysForRequest baselineSegments fullKey = some segments →
    ∀ anchor ∈ anchors fullValue segments, ∃! p, anchor.segment.value <+: fullValue.drop p

/-- Behind the first place of `value`, the text goes on with the rest of one of its borders. -/
def BorderGoesOn (value fullValue : Bytes) : Prop :=
  ∃ p d, find value fullValue 0 = some p ∧ 0 < d ∧ d < value.length ∧ value.drop d <+: value ∧
    value.drop (value.length - d) <+: fullValue.drop (p + value.length)

theorem exists_find_of_count {value fullValue : Bytes}
    (h : countOccurrences fullValue value = 1) : ∃ p, find value fullValue 0 = some p := by
  obtain ⟨x, y, hxy, -⟩ := split_of_countOccurrences_eq_one h
  have hcontains : contains value fullValue = true :=
    (contains_iff fullValue).mpr ⟨x, y, hxy.symm⟩
  exact Option.isSome_iff_exists.mp hcontains

theorem existsUnique_place_iff {value fullValue : Bytes}
    (h : countOccurrences fullValue value = 1) :
    (∃! p, value <+: fullValue.drop p) ↔ ¬BorderGoesOn value fullValue := by
  obtain ⟨p, hp⟩ := exists_find_of_count h
  rw [existsUnique_occurrence_iff h hp]
  constructor
  · rintro hnone ⟨p', d, hp', hd, hlt, hborder, hgoes⟩
    obtain rfl : p = p' := Option.some.inj (hp.symm.trans hp')
    exact hnone d hd hlt hborder hgoes
  · intro hnone d hd hlt hborder hgoes
    exact hnone ⟨p, d, hp, hd, hlt, hborder, hgoes⟩

/-- The anchors are the segments whose value is counted once. -/
theorem exists_anchor_iff {fullValue value : Bytes} {segments : List ZenzBaselineSegment} :
    (∃ anchor ∈ anchors fullValue segments, anchor.segment.value = value) ↔
      value ∈ segments.map (·.value) ∧ countOccurrences fullValue value = 1 := by
  have hanchor : ∀ (s : ZenzBaselineSegment) (k : Nat) (anchor : Anchor),
      anchorOf fullValue s k = some anchor →
        anchor.segment = s ∧ countOccurrences fullValue s.value = 1 := by
    intro s k anchor h
    refine ⟨(anchorOf_some h).2, ?_⟩
    unfold anchorOf at h
    split at h
    · cases h
    · next hcount => exact not_not.mp hcount
  constructor
  · rintro ⟨anchor, hmem, rfl⟩
    obtain ⟨⟨s, k⟩, hs, h⟩ := List.mem_filterMap.mp hmem
    obtain ⟨rfl, hcount⟩ := hanchor s k anchor h
    exact ⟨List.mem_map_of_mem (List.fst_mem_of_mem_zipIdx hs), hcount⟩
  · rintro ⟨hmem, hcount⟩
    obtain ⟨s, hs, rfl⟩ := List.mem_map.mp hmem
    obtain ⟨p, hp⟩ := exists_find_of_count hcount
    obtain ⟨k, hk⟩ := List.mem_iff_getElem?.mp hs
    refine ⟨⟨k, s, p, p + s.value.length⟩, List.mem_filterMap.mpr ⟨(s, k), ?_, ?_⟩, rfl⟩
    · exact List.mk_mem_zipIdx_iff_getElem?.mpr hk
    · show anchorOf fullValue s k = _
      simp [anchorOf, if_neg (not_not.mpr hcount), hp]

theorem AnchorsUnambiguous.not_borderGoesOn {baselineSegments : List ZenzBaselineSegment}
    {fullKey fullValue : Bytes} (h : AnchorsUnambiguous baselineSegments fullKey fullValue)
    (hsome : (projectZenzValueToMozcSegments baselineSegments fullKey fullValue).isSome = true)
    {s : ZenzBaselineSegment} (hs : s ∈ baselineSegments)
    (hcount : countOccurrences fullValue s.value = 1) : ¬BorderGoesOn s.value fullValue := by
  obtain ⟨projected, hprojected⟩ := Option.isSome_iff_exists.mp hsome
  obtain ⟨segments, hrec, -, -⟩ := project_some hprojected
  have hvalue : s.value ∈ segments.map (·.value) :=
    reconcile_values hrec ▸ List.mem_map_of_mem hs
  obtain ⟨anchor, hanchor, hsame⟩ := exists_anchor_iff.mpr ⟨hvalue, hcount⟩
  rw [← existsUnique_place_iff hcount, ← hsame]
  exact h projected segments hprojected hrec anchor hanchor

/-- **The anchors have one place each, exactly when the output goes on behind none of them with
the rest of one of its borders.** -/
theorem anchors_unambiguous_iff (baselineSegments : List ZenzBaselineSegment)
    (fullKey fullValue : Bytes) :
    AnchorsUnambiguous baselineSegments fullKey fullValue ↔
      ((projectZenzValueToMozcSegments baselineSegments fullKey fullValue).isSome = true →
        ∀ s ∈ baselineSegments, countOccurrences fullValue s.value = 1 →
          ¬BorderGoesOn s.value fullValue) := by
  constructor
  · intro h hsome s hs hcount
    exact h.not_borderGoesOn hsome hs hcount
  · intro h projected segments hprojected hrec anchor hanchor
    obtain ⟨hvalue, hcount⟩ := exists_anchor_iff.mp ⟨anchor, hanchor, rfl⟩
    rw [existsUnique_place_iff hcount]
    rw [reconcile_values hrec] at hvalue
    obtain ⟨s, hs, hsame⟩ := List.mem_map.mp hvalue
    rw [← hsame] at hcount ⊢
    exact h (by rw [hprojected]; rfl) s hs hcount

/-- The middle segment keeps its value, which stands at the bytes 3 and 6 of the output. -/
def overlappingBaseline : List ZenzBaselineSegment :=
  [⟨utf8 "い", utf8 "胃"⟩, ⟨utf8 "ああ", utf8 "ああ"⟩, ⟨utf8 "う", utf8 "鵜"⟩]

theorem anchor_stands_twice :
    ¬AnchorsUnambiguous overlappingBaseline (utf8 "いああう") (utf8 "医あああ羽") := by
  intro h
  have hs : (⟨utf8 "ああ", utf8 "ああ"⟩ : ZenzBaselineSegment) ∈ overlappingBaseline := by
    decide +kernel
  exact h.not_borderGoesOn (by decide +kernel) hs (by decide +kernel)
    ⟨3, 3, by decide +kernel, by decide, by decide +kernel, by decide +kernel, by decide +kernel⟩

end Mozkey.Zenz.SegmentProjection
