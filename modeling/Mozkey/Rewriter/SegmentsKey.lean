import Mozkey.Converter.Segments

/-!
# Keys and lengths of learned segments

`LengthArray` and `SegmentsKey` of `rewriter/user_boundary_history_rewriter.cc`.

* `create_of_short`, `create_eq_none` — there is a key unless a segment is too long
* `SegmentsKey.Of.getKey` — the key of a span is the keys of its segments
* `SegmentsKey.Of.getLengthArray` — its lengths, modulo 16
-/

namespace Mozkey.Rewriter

open Infra Base Converter

/-! ## Eight lengths of four bits -/

structure LengthArray where
  lengths : List UInt8
  eight : lengths.length = 8
  small : ∀ n ∈ lengths, n.toNat < 16
  deriving DecidableEq

namespace LengthArray

/-- A length goes into four bits of a field. -/
def truncate (n : UInt8) : UInt8 := n % 16

theorem toNat_truncate (n : UInt8) : (truncate n).toNat = n.toNat % 16 := UInt8.toNat_mod n 16

def ofUint8Array (array : List UInt8) (h : array.length = 8) : LengthArray where
  lengths := array.map truncate
  eight := by rw [List.length_map, h]
  small := by
    intro n hn
    obtain ⟨m, -, rfl⟩ := List.mem_map.mp hn
    rw [toNat_truncate]
    exact Nat.mod_lt _ (by decide)

def toUint8Array (array : LengthArray) : List UInt8 := array.lengths

theorem ext_lengths {a b : LengthArray} (h : a.lengths = b.lengths) : a = b := by
  cases a
  cases b
  cases h
  rfl

end LengthArray

/-! ## The key of a list of segments -/

structure SegmentsKey where
  wholeKey : Bytes := []
  byteIndexs : List Nat := []
  charSizes : List UInt8 := []

namespace SegmentsKey

/-- A round of the loop of `Create`. `byte_index` is the length of `whole_key`. -/
def add (k : SegmentsKey) (segment : Segment) : Option SegmentsKey :=
  if 255 < segment.keyLen then none
  else some {
    wholeKey := k.wholeKey ++ segment.key
    byteIndexs := k.byteIndexs ++ [k.wholeKey.length]
    charSizes := k.charSizes ++ [UInt8.ofNat segment.keyLen] }

def create (segments : Segments) : Option SegmentsKey := do
  let k ← segments.conversionSegments.foldlM add {}
  return { k with byteIndexs := k.byteIndexs ++ [k.wholeKey.length] }

def getKey (k : SegmentsKey) (segmentIndex segmentSize : Nat) : Bytes :=
  let startIndex := k.byteIndexs.getD segmentIndex 0
  let endIndex := k.byteIndexs.getD (segmentIndex + segmentSize) 0
  (k.wholeKey.drop startIndex).take (endIndex - startIndex)

/-- The lengths of a span before they are put into four bits each. -/
def sizes (k : SegmentsKey) (segmentIndex segmentSize : Nat) : List UInt8 :=
  (List.range 8).map fun i =>
    if i < min segmentSize 8 then k.charSizes.getD (segmentIndex + i) 0 else 0

def getLengthArray (k : SegmentsKey) (segmentIndex segmentSize : Nat) : LengthArray :=
  .ofUint8Array (k.sizes segmentIndex segmentSize) (by simp [sizes])

/-! ## What it says about the segments -/

/-- The text of some segments. -/
def keyOf (segs : List Segment) : Bytes := (segs.map Segment.key).flatten

/-- `segmentSize` segments from `segmentIndex` on. -/
def spanOf (segs : List Segment) (span : Nat × Nat) : List Segment := (segs.drop span.1).take span.2

theorem keyOf_append (a b : List Segment) : keyOf (a ++ b) = keyOf a ++ keyOf b := by
  simp [keyOf]

/-- Where the first `n` segments end, for every `n`. -/
def ends (segs : List Segment) (n : Nat) : Nat := (keyOf (segs.take n)).length

/-- `k` is made of `segs`, the last index aside. -/
structure Of (k : SegmentsKey) (segs : List Segment) : Prop where
  wholeKey : k.wholeKey = keyOf segs
  byteIndexs : k.byteIndexs = (List.range (segs.length + 1)).map (ends segs)
  charSizes : k.charSizes = segs.map fun s => UInt8.ofNat s.keyLen
  short : ∀ s ∈ segs, s.keyLen ≤ 255

/-- The state of the loop after `segs`. -/
structure Loop (k : SegmentsKey) (segs : List Segment) : Prop where
  wholeKey : k.wholeKey = keyOf segs
  byteIndexs : k.byteIndexs = (List.range segs.length).map (ends segs)
  charSizes : k.charSizes = segs.map fun s => UInt8.ofNat s.keyLen
  short : ∀ s ∈ segs, s.keyLen ≤ 255

theorem ends_append_of_le {segs : List Segment} {n : Nat} (h : n ≤ segs.length)
    (rest : List Segment) : ends (segs ++ rest) n = ends segs n := by
  rw [ends, List.take_append_of_le_length h, ends]

theorem ends_length (segs : List Segment) : ends segs segs.length = (keyOf segs).length := by
  simp [ends]

theorem range_ends_append (segs : List Segment) (n : Nat) (h : n ≤ segs.length + 1)
    (rest : List Segment) :
    (List.range n).map (ends (segs ++ rest)) = (List.range n).map (ends segs) := by
  refine List.map_congr_left fun i hi => ?_
  have hlt := List.mem_range.mp hi
  exact ends_append_of_le (by omega) rest

theorem Loop.add {k : SegmentsKey} {segs : List Segment} (h : Loop k segs) (segment : Segment)
    (hs : segment.keyLen ≤ 255) : ∃ k', k.add segment = some k' ∧ Loop k' (segs ++ [segment]) := by
  refine ⟨_, if_neg (by omega), ?_, ?_, ?_, ?_⟩
  · rw [keyOf_append, ← h.wholeKey]
    simp [keyOf]
  · rw [List.length_append, List.length_singleton, List.range_succ, List.map_append,
      range_ends_append segs segs.length (by omega), ← h.byteIndexs, List.map_singleton,
      ends_append_of_le (Nat.le_refl _), ends_length, h.wholeKey]
  · simp [← h.charSizes]
  · intro s hmem
    rcases List.mem_append.mp hmem with hmem | hmem
    · exact h.short s hmem
    · rw [List.mem_singleton.mp hmem]
      exact hs

theorem Loop.foldlM : ∀ (rest : List Segment) {k : SegmentsKey} {segs : List Segment},
    Loop k segs → (∀ s ∈ rest, s.keyLen ≤ 255) →
    ∃ k', rest.foldlM SegmentsKey.add k = some k' ∧ Loop k' (segs ++ rest)
  | [], k, segs, h, _ => ⟨k, rfl, by rwa [List.append_nil]⟩
  | s :: rest, k, segs, h, hs => by
    obtain ⟨k', hk', hloop⟩ := h.add s (hs s List.mem_cons_self)
    obtain ⟨k'', hk'', hloop'⟩ := hloop.foldlM rest (List.forall_mem_cons.mp hs).2
    refine ⟨k'', ?_, ?_⟩
    · simpa [hk'] using hk''
    · rwa [List.append_assoc] at hloop'

theorem foldlM_none : ∀ (segs : List Segment) (k : SegmentsKey),
    (∃ s ∈ segs, 255 < s.keyLen) → segs.foldlM SegmentsKey.add k = none
  | [], _, h => by simp at h
  | s :: rest, k, h => by
    rw [List.foldlM_cons]
    by_cases hs : 255 < s.keyLen
    · simp [SegmentsKey.add, hs]
    · obtain ⟨t, ht, hlong⟩ := h
      rw [SegmentsKey.add, if_neg hs]
      refine foldlM_none rest _ ⟨t, ?_, hlong⟩
      rcases List.mem_cons.mp ht with rfl | ht
      · exact absurd hlong hs
      · exact ht

variable {segments : Segments} {k : SegmentsKey} {segs : List Segment}

theorem create_of_short (h : ∀ s ∈ segments.conversionSegments, s.keyLen ≤ 255) :
    ∃ k, create segments = some k ∧ k.Of segments.conversionSegments := by
  have h0 : Loop {} ([] : List Segment) := ⟨rfl, rfl, rfl, by simp⟩
  obtain ⟨k, hk, hloop⟩ := h0.foldlM segments.conversionSegments h
  rw [List.nil_append] at hloop
  refine ⟨{ k with byteIndexs := k.byteIndexs ++ [k.wholeKey.length] }, ?_, hloop.wholeKey, ?_,
    hloop.charSizes, hloop.short⟩
  · rw [create, hk]
    rfl
  · show k.byteIndexs ++ [k.wholeKey.length] = _
    rw [List.range_succ, List.map_append, ← hloop.byteIndexs, List.map_singleton, ends_length,
      hloop.wholeKey]

theorem create_eq_none (h : ∃ s ∈ segments.conversionSegments, 255 < s.keyLen) :
    create segments = none := by
  rw [create, foldlM_none _ _ h]
  rfl

theorem Of.getKey (h : k.Of segs) {i n : Nat} (hin : i + n ≤ segs.length) :
    k.getKey i n = keyOf (spanOf segs (i, n)) := by
  have hend : ∀ j ≤ segs.length, k.byteIndexs.getD j 0 = ends segs j := by
    intro j hj
    rw [h.byteIndexs, List.getD_eq_getElem?_getD, List.getElem?_map,
      List.getElem?_range (by omega)]
    rfl
  have hsplit : keyOf (segs.take (i + n)) = keyOf (segs.take i) ++ keyOf (spanOf segs (i, n)) := by
    rw [← keyOf_append, List.take_add]
    rfl
  have hrest : keyOf segs = keyOf (segs.take (i + n)) ++ keyOf (segs.drop (i + n)) := by
    simp [← keyOf_append]
  show (k.wholeKey.drop (k.byteIndexs.getD i 0)).take
    (k.byteIndexs.getD (i + n) 0 - k.byteIndexs.getD i 0) = _
  rw [hend i (by omega), hend (i + n) hin, h.wholeKey, hrest, ends, ends, hsplit,
    List.append_assoc, List.drop_left, List.length_append, Nat.add_sub_cancel_left, List.take_left]

theorem length_spanOf {i n : Nat} (hin : i + n ≤ segs.length) :
    (spanOf segs (i, n)).length = n := by
  simp [spanOf]
  omega

/-- The lengths as they are, with zeros behind them. -/
theorem Of.sizes (h : k.Of segs) {i n : Nat} (hin : i + n ≤ segs.length) (hn : n ≤ 8) :
    (k.sizes i n).map UInt8.toNat =
      (spanOf segs (i, n)).map Segment.keyLen ++ List.replicate (8 - n) 0 := by
  refine List.ext_getElem? fun j => ?_
  rw [SegmentsKey.sizes, h.charSizes, List.map_map, List.getElem?_map]
  by_cases hj : j < n
  · have hseg : i + j < segs.length := by omega
    have hlen : (segs[i + j]).keyLen ≤ 255 := h.short _ (List.getElem_mem _)
    rw [List.getElem?_range (by omega), List.getElem?_append_left
      (by rw [List.length_map, length_spanOf hin]; exact hj), List.getElem?_map, spanOf,
      List.getElem?_take_of_lt hj, List.getElem?_drop, List.getElem?_eq_getElem hseg]
    simp only [Option.map_some, Function.comp_apply]
    rw [if_pos (by omega), List.getD_eq_getElem?_getD, List.getElem?_map,
      List.getElem?_eq_getElem hseg]
    simpa using congrArg some (UInt8.toNat_ofNat_of_lt' (Nat.lt_succ_of_le hlen))
  · rw [List.getElem?_append_right (by rw [List.length_map, length_spanOf hin]; omega),
      List.length_map, length_spanOf hin]
    by_cases h8 : j < 8
    · rw [List.getElem?_range h8, List.getElem?_replicate, if_pos (by omega)]
      simp only [Option.map_some, Function.comp_apply]
      rw [if_neg (by omega)]
      rfl
    · rw [List.getElem?_replicate, if_neg (by omega), List.getElem?_eq_none (by simp; omega)]
      rfl

theorem Of.getLengthArray (h : k.Of segs) {i n : Nat} (hin : i + n ≤ segs.length) (hn : n ≤ 8) :
    (k.getLengthArray i n).lengths.map UInt8.toNat =
      ((spanOf segs (i, n)).map Segment.keyLen ++ List.replicate (8 - n) 0).map (· % 16) := by
  rw [← h.sizes hin hn]
  show ((k.sizes i n).map LengthArray.truncate).map UInt8.toNat = _
  rw [List.map_map, List.map_map]
  exact List.map_congr_left fun m _ => LengthArray.toNat_truncate m

end SegmentsKey

end Mozkey.Rewriter
