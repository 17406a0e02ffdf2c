import Mozkey.Base.Utf8Encode
import Mozkey.Zenz.ProjectionCoverage

/-!
# A projection as a double segmentation

The projected segments come in blocks. A block tiles one baseline segment, in its key and in its
value alike, or it is a single unit for several of them. At run time only the keys and the output
are compared; that Mozc's side is tiled as well follows from how the pieces are cut.

* `project_faithful` — what a projection that succeeds is
-/

namespace Mozkey.Zenz.SegmentProjection

open Infra Base

/-! ## Blocks -/

/-- Consecutive projected segments, and the baseline segments they stand for. -/
structure Block where
  baseline : List ZenzBaselineSegment
  projected : List ZenzProjectedSegment

/-- A segment whose place in a baseline segment is known. -/
structure Known (s : ZenzProjectedSegment) : Prop where
  boundaryKnown : s.boundaryKnown = true
  changed : s.changed = (s.mozcValue != s.zenzValue)
  baselineKeys : s.baselineKeys = []

/-- Known segments that tile a key and a value. -/
structure Pieces (segments : List ZenzProjectedSegment) (key mozcValue : Bytes) : Prop where
  key : segments.flatMap (·.key) = key
  mozcValue : segments.flatMap (·.mozcValue) = mozcValue
  known : ∀ s ∈ segments, Known s

/-- A unit for all of `gap`. -/
structure IsAggregate (s : ZenzProjectedSegment) (gap : List ZenzBaselineSegment) : Prop where
  boundaryKnown : s.boundaryKnown = false
  several : 2 ≤ gap.length
  key : s.key = gap.flatMap (·.key)
  mozcValue : s.mozcValue = gap.flatMap (·.value)
  baselineKeys : s.baselineKeys = gap.map (·.key)

inductive Block.Faithful : Block → Prop
  | known {baseline : ZenzBaselineSegment} {segments : List ZenzProjectedSegment}
      (h : Pieces segments baseline.key baseline.value) : Block.Faithful ⟨[baseline], segments⟩
  | aggregate {gap : List ZenzBaselineSegment} {s : ZenzProjectedSegment} (h : IsAggregate s gap) :
      Block.Faithful ⟨gap, [s]⟩

/-- The projected segments are faithful blocks for the baseline segments, in order. -/
def Tiles (baseline : List ZenzBaselineSegment) (projected : List ZenzProjectedSegment) : Prop :=
  ∃ blocks : List Block, blocks.flatMap Block.baseline = baseline ∧
    blocks.flatMap Block.projected = projected ∧ ∀ b ∈ blocks, b.Faithful

namespace Tiles

variable {baseline baseline' : List ZenzBaselineSegment}
  {projected projected' : List ZenzProjectedSegment}

theorem nil : Tiles [] [] := ⟨[], rfl, rfl, by simp⟩

theorem append (h : Tiles baseline projected) (h' : Tiles baseline' projected') :
    Tiles (baseline ++ baseline') (projected ++ projected') := by
  obtain ⟨blocks, rfl, rfl, hfaithful⟩ := h
  obtain ⟨blocks', rfl, rfl, hfaithful'⟩ := h'
  refine ⟨blocks ++ blocks', List.flatMap_append, List.flatMap_append, fun b hb => ?_⟩
  rcases List.mem_append.mp hb with hb | hb
  · exact hfaithful b hb
  · exact hfaithful' b hb

theorem block {b : Block} (h : b.Faithful) : Tiles b.baseline b.projected :=
  ⟨[b], by simp, by simp, by simpa using h⟩

theorem mozcValue (h : Tiles baseline projected) :
    projected.flatMap (·.mozcValue) = baseline.flatMap (·.value) := by
  obtain ⟨blocks, rfl, rfl, hfaithful⟩ := h
  rw [List.flatMap_assoc, List.flatMap_assoc]
  refine List.flatMap_congr fun b hb => ?_
  cases hfaithful b hb with
  | known hpieces => rw [hpieces.mozcValue, List.flatMap_singleton]
  | aggregate hunit => rw [List.flatMap_singleton, hunit.mozcValue]

end Tiles

/-! ## Peeling -/

theorem Pieces.nil : Pieces [] [] [] := ⟨rfl, rfl, by simp⟩

theorem Pieces.append {a b : List ZenzProjectedSegment} {k l x y : Bytes} (ha : Pieces a k x)
    (hb : Pieces b l y) : Pieces (a ++ b) (k ++ l) (x ++ y) := by
  refine ⟨?_, ?_, fun s hs => ?_⟩
  · simp [ha.key, hb.key]
  · simp [ha.mozcValue, hb.mozcValue]
  · rcases List.mem_append.mp hs with hs | hs
    · exact ha.known s hs
    · exact hb.known s hs

theorem Pieces.singleton {s : ZenzProjectedSegment} (h : Known s) :
    Pieces [s] s.key s.mozcValue :=
  ⟨List.flatMap_singleton _ _, List.flatMap_singleton _ _, by simpa using h⟩

/-- An unchanged separator. -/
theorem known_separator {keyChar mozcChar zenzChar : Bytes} (h : zenzChar = mozcChar) :
    Known ⟨keyChar, mozcChar, zenzChar, false, true, []⟩ :=
  ⟨rfl, by simp [h], rfl⟩

theorem exists_first {s : Bytes} (h : IsUnicode s) (hne : s ≠ []) :
    ∃ u rest, s = u ++ rest ∧ IsUnicode rest ∧ utf8SubString s 0 1 = u := by
  obtain ⟨u, rest, hs, hu, hrest⟩ := h.exists_first hne
  refine ⟨u, rest, hs, hrest, ?_⟩
  obtain ⟨chars, hchars, rfl⟩ := (isUnicode_iff rest).mp hrest
  rw [hs, ← List.flatten_cons]
  exact utf8SubString_first hu hchars

/-- Key and value of a unit are Unicode texts. -/
structure LexicalUnit.Readable (u : LexicalUnit) : Prop where
  key : IsUnicode u.key
  mozcValue : IsUnicode u.mozcValue

theorem key_ne_nil_of_not_exhausted {u : LexicalUnit} (h : ¬u.isExhausted = true) : u.key ≠ [] := by
  intro hnil
  refine h ?_
  rw [LexicalUnit.isExhausted, hnil]
  rfl

theorem peelLeading_pieces : ∀ (n : Nat) (u : LexicalUnit), u.Readable →
    ∃ key value, Pieces (peelLeading n u).1 key value ∧ (peelLeading n u).2.Readable ∧
      key ++ (peelLeading n u).2.key = u.key ∧ value ++ (peelLeading n u).2.mozcValue = u.mozcValue
  | 0, u, hu => ⟨[], [], .nil, hu, rfl, rfl⟩
  | n + 1, u, hu => by
    rw [peelLeading]
    split
    · exact ⟨[], [], .nil, hu, rfl, rfl⟩
    · next hex =>
      dsimp only
      split
      · exact ⟨[], [], .nil, hu, rfl, rfl⟩
      · next hpeel =>
        rw [Bool.not_eq_true', Bool.not_eq_false] at hpeel
        have hsame := isPeelable_same hpeel
        obtain ⟨k, krest, hk, hkrest, hkfirst⟩ :=
          exists_first hu.key (key_ne_nil_of_not_exhausted hex)
        obtain ⟨v, vrest, hv, hvrest, hvfirst⟩ := exists_first hu.mozcValue (not_exhausted hex)
        have hkdrop : u.key.drop k.length = krest := by rw [hk, List.drop_left]
        have hvdrop : u.mozcValue.drop v.length = vrest := by rw [hv, List.drop_left]
        rw [hvfirst] at hsame ⊢
        rw [hkfirst, hkdrop, hvdrop]
        obtain ⟨key, value, hpieces, hread, hkey, hvalue⟩ := peelLeading_pieces n
          ⟨krest, vrest, u.acceptedValue.drop (utf8SubString u.acceptedValue 0 1).length⟩
          ⟨hkrest, hvrest⟩
        refine ⟨k ++ key, v ++ value,
          (Pieces.singleton (known_separator hsame)).append hpieces, hread, ?_, ?_⟩
        · simp [hkey, hk]
        · simp [hvalue, hv]

theorem removeSuffix_append (s t : Bytes) : removeSuffix (s ++ t) t.length = s := by
  simp [removeSuffix]

theorem peelTrailing_pieces : ∀ (n : Nat) (u : LexicalUnit), u.Readable →
    ∃ key value, Pieces (peelTrailing n u).2 key value ∧ (peelTrailing n u).1.Readable ∧
      (peelTrailing n u).1.key ++ key = u.key ∧
      (peelTrailing n u).1.mozcValue ++ value = u.mozcValue
  | 0, u, hu => ⟨[], [], .nil, hu, List.append_nil _, List.append_nil _⟩
  | n + 1, u, hu => by
    rw [peelTrailing]
    split
    · exact ⟨[], [], .nil, hu, List.append_nil _, List.append_nil _⟩
    · next hex =>
      dsimp only
      split
      · exact ⟨[], [], .nil, hu, List.append_nil _, List.append_nil _⟩
      · next hpeel =>
        rw [Bool.not_eq_true', Bool.not_eq_false] at hpeel
        have hsame := isPeelable_same hpeel
        obtain ⟨krest, k, hk, hkrest, -, hklast⟩ :=
          exists_last hu.key (key_ne_nil_of_not_exhausted hex)
        obtain ⟨vrest, v, hv, hvrest, -, hvlast⟩ := exists_last hu.mozcValue (not_exhausted hex)
        have hktake : removeSuffix u.key k.length = krest := by rw [hk, removeSuffix_append]
        have hvtake : removeSuffix u.mozcValue v.length = vrest := by rw [hv, removeSuffix_append]
        rw [hvlast] at hsame ⊢
        rw [hklast, hktake, hvtake]
        obtain ⟨key, value, hpieces, hread, hkey, hvalue⟩ := peelTrailing_pieces n
          ⟨krest, vrest, removeSuffix u.acceptedValue (lastUtf8Char u.acceptedValue).length⟩
          ⟨hkrest, hvrest⟩
        refine ⟨key ++ k, value ++ v,
          hpieces.append (Pieces.singleton (known_separator hsame)), hread, ?_, ?_⟩
        · rw [← List.append_assoc, hkey, hk]
        · rw [← List.append_assoc, hvalue, hv]

/-! ## One segment, all anchors -/

theorem appendBaselineSegment_pieces {baseline : ZenzBaselineSegment} {zenzValue : Bytes}
    {segments : List ZenzProjectedSegment} (hkey : IsUnicode baseline.key)
    (hvalue : IsUnicode baseline.value)
    (h : appendBaselineSegment baseline zenzValue = some segments) :
    Pieces segments baseline.key baseline.value := by
  unfold appendBaselineSegment at h
  split at h
  · cases h
  split at h
  · next hsame =>
    cases h
    exact Pieces.singleton (known_separator hsame)
  · next hchanged =>
    dsimp only at h
    split at h
    · cases h
      have hknown : Known ⟨baseline.key, baseline.value, zenzValue, true, true, []⟩ :=
        ⟨rfl, (bne_iff_ne.mpr (Ne.symm hchanged)).symm, rfl⟩
      exact Pieces.singleton hknown
    · cases h
      obtain ⟨fkey, fvalue, hfront, hread, hfkey, hfval⟩ := peelLeading_pieces baseline.key.length
        ⟨baseline.key, baseline.value, zenzValue⟩ ⟨hkey, hvalue⟩
      obtain ⟨bkey, bvalue, hback, -, hbkey, hbval⟩ := peelTrailing_pieces
        (peelLeading baseline.key.length ⟨baseline.key, baseline.value, zenzValue⟩).2.key.length
        _ hread
      have hcore : ∀ core : LexicalUnit, Known ⟨core.key, core.mozcValue, core.acceptedValue,
          core.acceptedValue != core.mozcValue, true, []⟩ := fun core => ⟨rfl, bne_comm, rfl⟩
      have hall := (hfront.append (Pieces.singleton (hcore (peelTrailing (peelLeading
        baseline.key.length ⟨baseline.key, baseline.value, zenzValue⟩).2.key.length (peelLeading
        baseline.key.length ⟨baseline.key, baseline.value, zenzValue⟩).2).1))).append hback
      dsimp only at hall
      rw [List.append_assoc fkey, hbkey, hfkey, List.append_assoc fvalue, hbval, hfval] at hall
      exact hall

theorem appendBaselineSegment_tiles {baseline : ZenzBaselineSegment} {zenzValue : Bytes}
    {segments : List ZenzProjectedSegment} (hkey : IsUnicode baseline.key)
    (hvalue : IsUnicode baseline.value)
    (h : appendBaselineSegment baseline zenzValue = some segments) : Tiles [baseline] segments :=
  Tiles.block (.known (appendBaselineSegment_pieces hkey hvalue h))

theorem piecewise_tiles {segments : List ZenzBaselineSegment}
    (hu : ∀ s ∈ segments, IsUnicode s.key ∧ IsUnicode s.value) : Piecewise segments Tiles where
  nil := .nil
  append ha hb := ha.append hb
  single hs h := appendBaselineSegment_tiles (hu _ hs).1 (hu _ hs).2 h
  several _ _ hlen := Tiles.block (.aggregate ⟨rfl, hlen, rfl, rfl, rfl⟩)

/-! ## Reconciled keys -/

theorem isUnicode_normalizeProjectionPunctuationKey {key : Bytes} (h : IsUnicode key) :
    IsUnicode (normalizeProjectionPunctuationKey key) := by
  have hmap : normalizeProjectionPunctuationKey key =
      ((utf8ToUtf32 key).map fun c =>
        if isFullWidthAsciiPunctuation c then c - 0xFEE0
        else if c = 0x301C then (byte '~').toNat
        else c).flatMap codepointToUtf8 := by
    rw [List.flatMap_map]
    rfl
  rw [hmap]
  refine isUnicode_flatMap_codepointToUtf8 fun c hc => ?_
  obtain ⟨d, hd, rfl⟩ := List.mem_map.mp hc
  have hrange := h.2 d hd
  split
  · omega
  split
  · decide
  · exact hrange

theorem reconcile_readable {baselineSegments segments : List ZenzBaselineSegment} {fullKey : Bytes}
    (hu : ∀ s ∈ baselineSegments, IsUnicode s.key ∧ IsUnicode s.value)
    (h : reconcileZenzBaselineKeysForRequest baselineSegments fullKey = some segments) :
    ∀ s ∈ segments, IsUnicode s.key ∧ IsUnicode s.value := by
  unfold reconcileZenzBaselineKeysForRequest at h
  split at h
  · cases h
  split at h
  · cases h
  split at h
  · cases h
    exact hu
  · dsimp only at h
    split at h
    · cases h
      intro s hs
      obtain ⟨t, ht, rfl⟩ := List.mem_map.mp hs
      exact ⟨isUnicode_normalizeProjectionPunctuationKey (hu t ht).1, (hu t ht).2⟩
    · cases h

/-! ## The projection -/

/-- Zenz's reading, with Mozc's for the chosen segments whose boundary is known. -/
def mixed (projected : List ZenzProjectedSegment) (chosen : List Bool) : List Bytes :=
  projected.zipWith (fun s c => if c && s.boundaryKnown then s.mozcValue else s.zenzValue) chosen

/-- What a projection of `fullKey` and `fullValue` onto the reconciled segments has to be. -/
structure IsDoubleSegmentation (segments : List ZenzBaselineSegment) (fullKey fullValue : Bytes)
    (projected : List ZenzProjectedSegment) : Prop where
  tiles : Tiles segments projected
  key : projected.flatMap (·.key) = fullKey
  zenzValue : projected.flatMap (·.zenzValue) = fullValue
  mozcValue : projected.flatMap (·.mozcValue) = segments.flatMap (·.value)
  /-- A mixture has one piece for each segment, of Mozc's reading or of Zenz's. -/
  mixed : ∀ chosen : List Bool, chosen.length = projected.length →
    List.Forall₂ (fun (s : ZenzProjectedSegment) (piece : Bytes) =>
      piece = s.zenzValue ∨ (s.boundaryKnown = true ∧ piece = s.mozcValue)) projected
      (mixed projected chosen)

theorem mixed_pieces : ∀ (projected : List ZenzProjectedSegment) (chosen : List Bool),
    chosen.length = projected.length →
    List.Forall₂ (fun (s : ZenzProjectedSegment) (piece : Bytes) =>
      piece = s.zenzValue ∨ (s.boundaryKnown = true ∧ piece = s.mozcValue)) projected
      (mixed projected chosen)
  | [], [], _ => .nil
  | s :: projected, c :: chosen, h => by
    refine .cons ?_ (mixed_pieces projected chosen (Nat.succ.inj h))
    dsimp only
    split
    · next hchosen => exact Or.inr ⟨(Bool.and_eq_true _ _ ▸ hchosen).2, rfl⟩
    · exact Or.inl rfl

/-- **A projection that succeeds is a double segmentation.** -/
theorem project_faithful {baselineSegments : List ZenzBaselineSegment} {fullKey fullValue : Bytes}
    {projected : List ZenzProjectedSegment}
    (hu : ∀ s ∈ baselineSegments, IsUnicode s.key ∧ IsUnicode s.value)
    (h : projectZenzValueToMozcSegments baselineSegments fullKey fullValue = some projected) :
    ∃ segments, reconcileZenzBaselineKeysForRequest baselineSegments fullKey = some segments ∧
      segments.map (·.value) = baselineSegments.map (·.value) ∧
      IsDoubleSegmentation segments fullKey fullValue projected := by
  obtain ⟨segments, hrec, happ, hrecon⟩ := project_some h
  have htiles := (piecewise_tiles (reconcile_readable hu hrec)).appendAnchored segments 0 0 0
    projected (Nat.le_refl 0) rfl happ
  rw [reconstructs, Bool.and_eq_true, Bool.and_eq_true] at hrecon
  exact ⟨segments, hrec, reconcile_values hrec,
    { tiles := htiles
      key := eq_of_beq hrecon.1.2
      zenzValue := eq_of_beq hrecon.2
      mozcValue := htiles.mozcValue
      mixed := mixed_pieces projected }⟩

theorem project_faithful_peeled :
    ∃ segments, reconcileZenzBaselineKeysForRequest
        [⟨utf8 "げんしょう（", utf8 "減少（"⟩, ⟨utf8 "です", utf8 "です"⟩] (utf8 "げんしょう(です") =
          some segments ∧
      segments.map (·.value) = [utf8 "減少（", utf8 "です"] ∧
      IsDoubleSegmentation segments (utf8 "げんしょう(です") (utf8 "現象（です")
        [⟨utf8 "げんしょう", utf8 "減少", utf8 "現象", true, true, []⟩,
          ⟨utf8 "(", utf8 "（", utf8 "（", false, true, []⟩,
          ⟨utf8 "です", utf8 "です", utf8 "です", false, true, []⟩] :=
  project_faithful (by decide +kernel) (by decide +kernel)

end Mozkey.Zenz.SegmentProjection
