import Mathlib.Tactic.IntervalCases
import Mozkey.Base.Utf8Text
import Mozkey.Rewriter.UserBoundaryHistory

/-!
# What is learned of the boundaries

* `texts_eq` — a text is cut in one way only into parts of given numbers of characters
* `eq_of_mod_eq` — lengths that agree modulo 16 and in their sum agree
* `lookup_learned` — the whole reading is found with the lengths of the segments
-/

namespace Mozkey.Rewriter

open Infra Base Converter Storage

/-! ## Cutting a text -/

theorem IsUnicode.leading {c : UInt8} {rest : Bytes} (h : IsUnicode (c :: rest)) :
    isUtf8TrailingByte c = false := by
  obtain ⟨u, rest', hs, hu, -⟩ := h.exists_first (List.cons_ne_nil c rest)
  obtain ⟨d, tail, rfl, -, hd, -⟩ := hu.bytes
  cases hs
  exact hd

theorem IsUnicode.eq_nil {a b : Bytes} (h : IsUnicode (a ++ b)) (h0 : charsLen a = 0) : a = [] := by
  cases a with
  | nil => rfl
  | cons c a =>
    have hc := List.countP_eq_zero.mp h0 c List.mem_cons_self
    simp [IsUnicode.leading h] at hc

theorem isUnicode_texts {texts : List Bytes} (h : ∀ t ∈ texts, IsUnicode t) :
    IsUnicode texts.flatten :=
  List.flatMap_id ▸ isUnicode_flatMap h

theorem charsLen_texts : ∀ texts : List Bytes, charsLen texts.flatten = (texts.map charsLen).sum
  | [] => rfl
  | t :: texts => by
    simp [charsLen_append, charsLen_texts texts]

/-- The first parts are the same when they have the same number of characters. -/
theorem first_text_eq {a b as bs : Bytes} (has : IsUnicode as) (hbs : IsUnicode bs)
    (h : a ++ as = b ++ bs) (hlen : charsLen a = charsLen b) : a = b := by
  rcases List.append_eq_append_iff.mp h with ⟨c, rfl, rfl⟩ | ⟨c, rfl, rfl⟩
  · rw [charsLen_append] at hlen
    simp [IsUnicode.eq_nil has (by omega)]
  · rw [charsLen_append] at hlen
    simp [IsUnicode.eq_nil hbs (by omega)]

theorem texts_eq : ∀ {as bs : List Bytes}, (∀ a ∈ as, IsUnicode a) → (∀ b ∈ bs, IsUnicode b) →
    as.flatten = bs.flatten → as.map charsLen = bs.map charsLen → as = bs
  | [], [], _, _, _, _ => rfl
  | [], _ :: _, _, _, _, hlen => by cases hlen
  | _ :: _, [], _, _, _, hlen => by cases hlen
  | a :: as, b :: bs, ha, hb, h, hlen => by
    rw [List.map_cons, List.map_cons, List.cons.injEq] at hlen
    rw [List.flatten_cons, List.flatten_cons] at h
    have has := fun t ht => ha t (List.mem_cons_of_mem a ht)
    have hbs := fun t ht => hb t (List.mem_cons_of_mem b ht)
    have hab : a = b := first_text_eq (isUnicode_texts has) (isUnicode_texts hbs) h hlen.1
    subst hab
    rw [texts_eq has hbs (List.append_cancel_left h) hlen.2]

theorem charsLen_pos {t : Bytes} (h : IsUnicode t) (hne : t ≠ []) : 0 < charsLen t := by
  refine Nat.pos_of_ne_zero fun h0 => hne ?_
  exact IsUnicode.eq_nil (b := []) (by rwa [List.append_nil]) h0

/-! ## Lengths modulo 16 -/

theorem sum_mod_le (m : Nat) : ∀ l : List Nat, (l.map (· % m)).sum ≤ l.sum
  | [] => Nat.le_refl _
  | n :: l => by
    simpa using Nat.add_le_add (Nat.mod_le _ _) (sum_mod_le m l)

theorem map_mod_eq_self (m : Nat) : ∀ {l : List Nat}, (l.map (· % m)).sum = l.sum →
    l.map (· % m) = l
  | [], _ => rfl
  | n :: l, h => by
    rw [List.map_cons, List.sum_cons, List.sum_cons] at h
    have hn := Nat.mod_le n m
    have hl := sum_mod_le m l
    rw [List.map_cons, map_mod_eq_self m (by omega), show n % m = n by omega]

/-- Lengths that are only compared modulo `m` are the same if their sums are. -/
theorem eq_of_mod_eq (m : Nat) {a b : List Nat} (h : a.map (· % m) = b) (hsum : a.sum = b.sum) :
    a = b := by
  rw [← h, map_mod_eq_self m (by rw [h, hsum])]

namespace UserBoundaryHistoryRewriter

open SegmentsKey

/-! ## The spans -/

theorem mem_spansFrom {n segIdx : Nat} {span : Nat × Nat} : span ∈ spansFrom n segIdx ↔
    span.1 = segIdx ∧ 0 < span.2 ∧ span.2 ≤ n - segIdx ∧ span.2 ≤ kMaxKeysSize := by
  obtain ⟨i, m⟩ := span
  simp only [spansFrom, List.mem_map, List.mem_reverse, List.mem_range, Prod.mk.injEq]
  constructor
  · rintro ⟨j, hj, rfl, rfl⟩
    omega
  · rintro ⟨rfl, hpos, hn, h5⟩
    exact ⟨m - 1, by omega, rfl, by omega⟩

theorem mem_spans {n : Nat} {span : Nat × Nat} : span ∈ spans n ↔
    0 < span.2 ∧ span.1 + span.2 ≤ n ∧ span.2 ≤ kMaxKeysSize := by
  simp only [spans, List.mem_flatMap, List.mem_range, mem_spansFrom]
  constructor
  · rintro ⟨i, hi, rfl, hpos, hn, h5⟩
    omega
  · rintro ⟨hpos, hn, h5⟩
    exact ⟨span.1, by omega, rfl, hpos, by omega, h5⟩

/-- The first span of at most five segments is all of them. -/
theorem spans_eq_cons {n : Nat} (hpos : 0 < n) (hn : n ≤ kMaxKeysSize) :
    ∃ rest, spans n = (0, n) :: rest ∧ (0, n) ∉ rest ∧ rest.length ≤ 14 := by
  refine ⟨(spans n).tail, ?_⟩
  unfold kMaxKeysSize at hn
  interval_cases n <;> decide

/-! ## What is stored when there is room -/

variable (reversible : Bool) (k : SegmentsKey)

theorem storage_insertSpan {st : Learning} (h : st.storage.usedSize < st.storage.size)
    (span : Nat × Nat) : (insertSpan reversible k st span).storage =
      st.storage.insert (k.getKey span.1 span.2) (k.getLengthArray span.1 span.2) := by
  cases reversible with
  | false => rfl
  | true =>
    simp only [insertSpan, if_true]
    split
    · rw [if_neg (by omega)]
      rfl
    · rfl

/-- A key that no span writes keeps its value. -/
theorem lookup_foldl : ∀ (l : List (Nat × Nat)) {st : Learning} {key : Bytes},
    st.storage.usedSize + l.length ≤ st.storage.size →
    (∀ span ∈ l, st.storage.fingerprint key ≠ st.storage.fingerprint (k.getKey span.1 span.2)) →
    (l.foldl (insertSpan reversible k) st).storage.lookup key = st.storage.lookup key
  | [], _, _, _, _ => rfl
  | span :: l, st, key, hroom, hne => by
    rw [List.length_cons] at hroom
    have hroom' : st.storage.usedSize < st.storage.size := by omega
    have hstep := storage_insertSpan reversible k hroom' span
    rw [List.foldl_cons, lookup_foldl l, hstep,
      LruStorage.lookup_insert (.inr hroom'), if_neg (hne span List.mem_cons_self)]
    · rw [hstep, LruStorage.size_insert]
      have hused : (st.storage.insert (k.getKey span.1 span.2)
          (k.getLengthArray span.1 span.2)).usedSize ≤ st.storage.usedSize + 1 :=
        LruStorage.usedSize_insert_le
      omega
    · intro span' hmem
      rw [hstep]
      exact hne span' (List.mem_cons_of_mem _ hmem)

/-! ## A list of segments to learn -/

/-- One to five segments that a user has fixed, with readings of at most 15 characters. -/
structure Learnable (segments : Segments) : Prop where
  resized : segments.resized = true
  count : segments.conversionSegmentsSize ≤ kMaxKeysSize
  nonempty : 0 < segments.conversionSegmentsSize
  fixed : ∀ s ∈ segments.conversionSegments, s.segmentType = .fixedValue
  text : ∀ s ∈ segments.conversionSegments, IsUnicode s.key ∧ s.key ≠ []
  short : ∀ s ∈ segments.conversionSegments, s.keyLen ≤ kMaxStoredSegmentLength

/-- One to five segments that are not resized, with readings of at most 255 characters. -/
structure Askable (segments : Segments) : Prop where
  resized : segments.resized = false
  count : segments.conversionSegmentsSize ≤ kMaxKeysSize
  nonempty : 0 < segments.conversionSegmentsSize
  text : ∀ s ∈ segments.conversionSegments, IsUnicode s.key ∧ s.key ≠ []
  short : ∀ s ∈ segments.conversionSegments, s.keyLen ≤ 255

/-- The keys of the spans have fingerprints of their own. -/
def NoCollision (storage : LruStorage LengthArray) (segments : Segments) : Prop :=
  ∀ span ∈ spans segments.conversionSegmentsSize,
    storage.fingerprint (SegmentsKey.keyOf (spanOf segments.conversionSegments span)) =
      storage.fingerprint (SegmentsKey.keyOf segments.conversionSegments) →
    SegmentsKey.keyOf (spanOf segments.conversionSegments span) =
      SegmentsKey.keyOf segments.conversionSegments

theorem spanOf_all (segs : List Segment) : spanOf segs (0, segs.length) = segs := by
  simp [spanOf]

theorem keyOf_ne_nil {segs : List Segment} (hne : segs ≠ [])
    (h : ∀ s ∈ segs, s.key ≠ []) : SegmentsKey.keyOf segs ≠ [] := by
  cases segs with
  | nil => exact absurd rfl hne
  | cons s segs =>
    intro hnil
    exact h s List.mem_cons_self (List.append_eq_nil_iff.mp hnil).1

/-- Only the span of all segments has the whole reading. -/
theorem span_eq_of_keyOf {segs : List Segment} (h : ∀ s ∈ segs, s.key ≠ []) {span : Nat × Nat}
    (hin : span.1 + span.2 ≤ segs.length)
      (hkey : SegmentsKey.keyOf (spanOf segs span) = SegmentsKey.keyOf segs) :
    span = (0, segs.length) := by
  obtain ⟨i, m⟩ := span
  have hsplit : segs = segs.take i ++ (spanOf segs (i, m) ++ segs.drop (i + m)) := by
    simp [spanOf, ← List.drop_drop]
  have hlen := congrArg (fun l => (SegmentsKey.keyOf l).length) hsplit
  simp only [keyOf_append, List.length_append, hkey] at hlen
  have hbefore : segs.take i = [] := by
    by_contra hne
    have := List.length_pos_of_ne_nil (keyOf_ne_nil hne fun s hs => h s (List.mem_of_mem_take hs))
    omega
  have hafter : segs.drop (i + m) = [] := by
    by_contra hne
    have := List.length_pos_of_ne_nil (keyOf_ne_nil hne fun s hs => h s (List.mem_of_mem_drop hs))
    omega
  rw [List.take_eq_nil_iff] at hbefore
  rw [List.drop_eq_nil_iff] at hafter
  simp only at hin
  rcases hbefore with rfl | rfl
  · simp
    omega
  · rw [List.length_nil] at hin hafter ⊢
    simp
    omega

variable {rw : UserBoundaryHistoryRewriter} {request : RewriterRequest} {segments : Segments}

theorem targetSegmentsSize_of_fixed
    (h : ∀ s ∈ segments.conversionSegments, s.segmentType = .fixedValue) :
    targetSegmentsSize segments = segments.conversionSegmentsSize :=
  List.countP_eq_length.mpr fun s hs => by simpa using h s hs

theorem tooLong_eq_false (h : ∀ s ∈ segments.conversionSegments,
    s.segmentType = .fixedValue → s.keyLen ≤ kMaxStoredSegmentLength) :
    tooLong segments = false := by
  refine List.any_eq_false.mpr fun s hs => ?_
  simpa [decide_eq_true_eq, not_and, not_lt] using h s hs

/-- After learning the whole reading is stored with the lengths of its segments. -/
theorem lookup_learned (hl : Learnable segments) (hcan : canLearn request segments = true)
    (hroom : rw.storage.usedSize + 15 ≤ rw.storage.size)
    (hcol : NoCollision rw.storage segments) :
    ∃ value, (finish rw request segments).storage.lookup
        (SegmentsKey.keyOf segments.conversionSegments) =
        some value ∧
      value.lengths.map UInt8.toNat = segments.conversionSegments.map Segment.keyLen ++
        List.replicate (8 - segments.conversionSegmentsSize) 0 := by
  have hshort : ∀ s ∈ segments.conversionSegments, s.keyLen ≤ 255 := fun s hs =>
    Nat.le_trans (hl.short s hs) (by decide)
  obtain ⟨k, hk, hof⟩ := create_of_short hshort
  obtain ⟨rest, hspans, hnot, hlen⟩ := spans_eq_cons hl.nonempty hl.count
  have hn : targetSegmentsSize segments = segments.conversionSegmentsSize :=
    targetSegmentsSize_of_fixed hl.fixed
  have hsize := hl.count
  have hpos := hl.nonempty
  unfold kMaxKeysSize at hsize
  -- the write of the whole reading is the first one
  have hfinish : (finish rw request segments).storage =
      ((spans segments.conversionSegmentsSize).foldl
        (insertSpan request.reversibleExternalLearning k) { storage := rw.storage }).storage := by
    have hlearn : learn rw request segments =
        (spans segments.conversionSegmentsSize).foldl
          (insertSpan request.reversibleExternalLearning k) { storage := rw.storage } := by
      rw [learn, if_pos hcan, insert, hn, if_neg (by omega),
        tooLong_eq_false fun s hs _ => hl.short s hs, hk]
      rfl
    rw [← hlearn, finish]
    split <;> rfl
  refine ⟨k.getLengthArray 0 segments.conversionSegmentsSize, ?_, ?_⟩
  · have hwhole :
      k.getKey 0 segments.conversionSegmentsSize = SegmentsKey.keyOf segments.conversionSegments :=
      (hof.getKey (Nat.le_of_eq (Nat.zero_add _))).trans (congrArg SegmentsKey.keyOf (spanOf_all _))
    have hfirst : rw.storage.usedSize < rw.storage.size := by omega
    have hstep := storage_insertSpan request.reversibleExternalLearning k
      (show (Learning.mk rw.storage [] []).storage.usedSize < _ from hfirst)
      (0, segments.conversionSegmentsSize)
    rw [hfinish, hspans, List.foldl_cons, lookup_foldl _ _ rest, hstep, hwhole]
    · exact LruStorage.lookup_insert_self
    · rw [hstep, LruStorage.size_insert]
      have hused : (rw.storage.insert (k.getKey 0 segments.conversionSegmentsSize)
          (k.getLengthArray 0 segments.conversionSegmentsSize)).usedSize ≤
          rw.storage.usedSize + 1 := LruStorage.usedSize_insert_le
      show (rw.storage.insert (k.getKey 0 segments.conversionSegmentsSize)
        (k.getLengthArray 0 segments.conversionSegmentsSize)).usedSize + _ ≤ rw.storage.size
      omega
    · intro span hspan
      have hmem : span ∈ spans segments.conversionSegmentsSize := by
        rw [hspans]
        exact List.mem_cons_of_mem _ hspan
      have hin := (mem_spans.mp hmem).2.1
      rw [hstep]
      show rw.storage.fingerprint _ ≠ rw.storage.fingerprint _
      rw [hof.getKey hin]
      intro heq
      refine hnot ?_
      have hall := span_eq_of_keyOf (fun s hs => (hl.text s hs).2) hin (hcol span hmem heq.symm)
      rwa [hall] at hspan
  · have hlengths := hof.getLengthArray (i := 0) (n := segments.conversionSegmentsSize)
      (Nat.le_of_eq (Nat.zero_add _)) (by omega)
    have hall : spanOf segments.conversionSegments (0, segments.conversionSegmentsSize) =
      segments.conversionSegments := spanOf_all _
    rw [hlengths, hall]
    refine (List.map_congr_left fun m hm => Nat.mod_eq_of_lt ?_).trans (List.map_id _)
    rcases List.mem_append.mp hm with hm | hm
    · obtain ⟨s, hs, rfl⟩ := List.mem_map.mp hm
      exact Nat.lt_succ_of_le (hl.short s hs)
    · rw [(List.mem_replicate.mp hm).2]
      decide

end UserBoundaryHistoryRewriter

/-!
## A learned segmentation comes back

`CheckResizeSegmentsRequest` after `Finish`.

* `check_learned` — another segmentation of the reading is resized to the learned one, and the
  learned one is left alone
-/

namespace UserBoundaryHistoryRewriter

open SegmentsKey

/-! ## The first lookup decides -/

variable {storage : LruStorage LengthArray} {k : SegmentsKey}

theorem checkLoop_skip (storage : LruStorage LengthArray) (k : SegmentsKey) (total : Nat) :
    ∀ left skip : Nat, left ≤ skip → checkLoop storage k total left skip = none
  | 0, _, _ => rfl
  | left + 1, 0, h => absurd h (by omega)
  | left + 1, skip + 1, h => checkLoop_skip storage k total left skip (by omega)

theorem checkLoop_first {n : Nat} (hpos : 0 < n) (hn : n ≤ kMaxKeysSize) {value : LengthArray}
    (h : storage.lookup (k.getKey 0 n) = some value) :
    checkLoop storage k n n 0 =
      if value = k.getLengthArray 0 n then none else some ⟨0, value.toUint8Array⟩ := by
  obtain ⟨m, rfl⟩ : ∃ m, n = m + 1 := ⟨n - 1, by omega⟩
  have hfrom : checkFrom storage k 0 (m + 1) =
      if value = k.getLengthArray 0 (m + 1) then .inr (m + 1)
      else .inl ⟨0, value.toUint8Array⟩ := by
    rw [checkFrom, lookupSpan, h]
    by_cases heq : value = k.getLengthArray 0 (m + 1)
    · simp only [heq, if_true]
    · simp only [heq, if_false]
  rw [checkLoop, Nat.sub_self, Nat.min_eq_left hn, hfrom]
  by_cases heq : value = k.getLengthArray 0 (m + 1)
  · simp only [heq, if_true]
    exact checkLoop_skip storage k _ m (m + 1 - 1) (by omega)
  · simp only [heq, if_false]

/-! ## Comparing with the stored lengths -/

theorem lengths_pos {segments : Segments}
    (h : ∀ s ∈ segments.conversionSegments, IsUnicode s.key ∧ s.key ≠ []) :
    ∀ n ∈ segments.conversionSegments.map Segment.keyLen, n ≠ 0 := by
  intro n hn
  obtain ⟨s, hs, rfl⟩ := List.mem_map.mp hn
  exact Nat.ne_of_gt (charsLen_pos (h s hs).1 (h s hs).2)

theorem filter_padded {l : List Nat} (h : ∀ n ∈ l, n ≠ 0) (m : Nat) :
    (l ++ List.replicate m 0).filter (· ≠ 0) = l := by
  rw [List.filter_append, List.filter_eq_self.mpr (by simpa using h),
    List.filter_eq_nil_iff.mpr, List.append_nil]
  intro n hn
  simp [(List.mem_replicate.mp hn).2]

theorem sum_lengths (segs : List Segment) :
    (segs.map Segment.keyLen).sum = charsLen (SegmentsKey.keyOf segs) := by
  rw [SegmentsKey.keyOf, charsLen_texts, List.map_map]
  rfl

/-- The lengths of one to five segments in an array. -/
def Holds (value : LengthArray) (segments : Segments) : Prop :=
  value.lengths.map UInt8.toNat = segments.conversionSegments.map Segment.keyLen ++
    List.replicate (8 - segments.conversionSegmentsSize) 0

theorem Holds.sizes {value : LengthArray} {segments : Segments} (h : Holds value segments)
    (htext : ∀ s ∈ segments.conversionSegments, IsUnicode s.key ∧ s.key ≠ []) :
    (value.toUint8Array.map UInt8.toNat).filter (· ≠ 0) =
      segments.conversionSegments.map Segment.keyLen := by
  show (value.lengths.map UInt8.toNat).filter (· ≠ 0) = _
  rw [h, filter_padded (lengths_pos htext)]

/-- The array of a segmentation of the same reading is the stored one only if the segmentations are
the same: what four bits cannot hold would be missing in the sum. -/
theorem Holds.eq_iff {value : LengthArray} {S T : Segments} {k : SegmentsKey}
    (h : Holds value S) (hof : k.Of T.conversionSegments) (hT : Askable T)
    (hS : ∀ s ∈ S.conversionSegments, IsUnicode s.key ∧ s.key ≠ [])
    (hkey : SegmentsKey.keyOf T.conversionSegments = SegmentsKey.keyOf S.conversionSegments) :
    value = k.getLengthArray 0 T.conversionSegmentsSize ↔
      T.conversionSegments.map Segment.key = S.conversionSegments.map Segment.key := by
  have hcount := hT.count
  unfold kMaxKeysSize at hcount
  have hall : spanOf T.conversionSegments (0, T.conversionSegmentsSize) = T.conversionSegments :=
    spanOf_all _
  have hlengths := hof.getLengthArray (i := 0) (n := T.conversionSegmentsSize)
    (Nat.le_of_eq (Nat.zero_add _)) (by omega)
  rw [hall] at hlengths
  constructor
  · intro heq
    rw [← heq, h] at hlengths
    have hsum : (T.conversionSegments.map Segment.keyLen ++
        List.replicate (8 - T.conversionSegmentsSize) 0).sum =
        (S.conversionSegments.map Segment.keyLen ++
          List.replicate (8 - S.conversionSegmentsSize) 0).sum := by
      simp [sum_lengths, hkey]
    have heq := congrArg (List.filter (· ≠ 0)) (eq_of_mod_eq 16 hlengths.symm hsum)
    rw [filter_padded (lengths_pos hT.text), filter_padded (lengths_pos hS)] at heq
    refine texts_eq ?_ ?_ hkey ?_
    · intro t ht
      obtain ⟨s, hs, rfl⟩ := List.mem_map.mp ht
      exact (hT.text s hs).1
    · intro t ht
      obtain ⟨s, hs, rfl⟩ := List.mem_map.mp ht
      exact (hS s hs).1
    · rw [List.map_map, List.map_map]
      exact heq
  · intro heq
    have hlen : T.conversionSegments.map Segment.keyLen =
        S.conversionSegments.map Segment.keyLen := by
      have := congrArg (List.map charsLen) heq
      rwa [List.map_map, List.map_map] at this
    have hsize : T.conversionSegmentsSize = S.conversionSegmentsSize := by
      have := congrArg List.length heq
      rwa [List.length_map, List.length_map] at this
    rw [hlen, hsize, ← h] at hlengths
    have hsmall : (value.lengths.map UInt8.toNat).map (· % 16) = value.lengths.map UInt8.toNat := by
      rw [List.map_map]
      refine List.map_congr_left fun n hn => ?_
      exact Nat.mod_eq_of_lt (value.small n hn)
    rw [hsmall] at hlengths
    rw [hsize]
    refine LengthArray.ext_lengths ?_
    exact (List.map_injective_iff.mpr fun a b hab => UInt8.toNat_inj.mp hab) hlengths.symm

/-- **Another segmentation of the reading is resized, the learned one is not.** -/
theorem check_learned {rw : UserBoundaryHistoryRewriter} {request request' : RewriterRequest}
    {S T : Segments} (hS : Learnable S) (hcan : canLearn request S = true)
    (hroom : rw.storage.usedSize + 15 ≤ rw.storage.size) (hcol : NoCollision rw.storage S)
    (hT : Askable T) (hask : canLookup request' T = true)
    (hkey : SegmentsKey.keyOf T.conversionSegments = SegmentsKey.keyOf S.conversionSegments) :
    if T.conversionSegments.map Segment.key = S.conversionSegments.map Segment.key then
      checkResizeSegmentsRequest (finish rw request S) request' T = none
    else ∃ sizes, checkResizeSegmentsRequest (finish rw request S) request' T = some ⟨0, sizes⟩ ∧
      (sizes.map UInt8.toNat).filter (· ≠ 0) = S.conversionSegments.map Segment.keyLen := by
  obtain ⟨value, hvalue, hholds⟩ := lookup_learned hS hcan hroom hcol
  have hholds : Holds value S := hholds
  obtain ⟨k, hk, hof⟩ := create_of_short hT.short
  have hwhole : k.getKey 0 T.conversionSegmentsSize = SegmentsKey.keyOf S.conversionSegments :=
    ((hof.getKey (Nat.le_of_eq (Nat.zero_add _))).trans
      (congrArg SegmentsKey.keyOf (spanOf_all _))).trans hkey
  have hcheck : checkResizeSegmentsRequest (finish rw request S) request' T =
      if value = k.getLengthArray 0 T.conversionSegmentsSize then none
      else some ⟨0, value.toUint8Array⟩ := by
    rw [checkResizeSegmentsRequest, if_pos hask, hk]
    exact checkLoop_first hT.nonempty hT.count (by rw [hwhole]; exact hvalue)
  have hiff := hholds.eq_iff hof hT hS.text hkey
  split
  · next h => rw [hcheck, if_pos (hiff.mpr h)]
  · next h =>
    rw [hcheck, if_neg fun heq => h (hiff.mp heq)]
    exact ⟨_, rfl, hholds.sizes hS.text⟩

end UserBoundaryHistoryRewriter

end Mozkey.Rewriter
