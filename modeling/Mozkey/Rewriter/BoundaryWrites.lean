import Mathlib.Data.List.Induction
import Mozkey.Rewriter.BoundaryLearning

/-!
# Which lengths are written

A reversible call does not write a new key into a full storage, so only the first new keys that
there is room for are written.

* `mem_log_iff` — the writes of `Insert`
* `exactWrites_iff` — when all of them are of `FIXED_VALUE` segments
-/

namespace Mozkey.Rewriter

open Infra Base Converter Storage

namespace UserBoundaryHistoryRewriter

open SegmentsKey

/-! ## Room for new keys -/

/-- The fingerprint of `key` comes behind the others if it is new. -/
def addNew (storage : LruStorage LengthArray) (new : List UInt64) (key : Bytes) : List UInt64 :=
  if storage.lookup key ≠ none ∨ storage.fingerprint key ∈ new then new
  else new ++ [storage.fingerprint key]

/-- The fingerprints of the keys that are not stored, in the order of their first keys. -/
def newFingerprints (storage : LruStorage LengthArray) (keys : List Bytes) : List UInt64 :=
  keys.foldl (addNew storage) []

/-- `key` is stored, or one of the first new keys. -/
def Fits (storage : LruStorage LengthArray) (keys : List Bytes) (key : Bytes) : Prop :=
  storage.lookup key ≠ none ∨ storage.fingerprint key ∈
    (newFingerprints storage keys).take (storage.size - storage.usedSize)

variable {storage : LruStorage LengthArray} {keys : List Bytes} {key key' : Bytes}

theorem newFingerprints_append (keys : List Bytes) (key : Bytes) :
    newFingerprints storage (keys ++ [key]) =
      addNew storage (newFingerprints storage keys) key := by
  simp [newFingerprints, List.foldl_append]

theorem addNew_of_mem {new : List UInt64}
    (h : storage.lookup key ≠ none ∨ storage.fingerprint key ∈ new) :
    addNew storage new key = new := if_pos h

theorem subset_addNew {new : List UInt64} {f : UInt64} (h : f ∈ new) :
    f ∈ addNew storage new key := by
  unfold addNew
  split
  · exact h
  · exact List.mem_append_left _ h

theorem mem_newFingerprints (hmem : key ∈ keys) (h : storage.lookup key = none) :
    storage.fingerprint key ∈ newFingerprints storage keys := by
  induction keys using List.reverseRecOn with
  | nil => cases hmem
  | append_singleton keys last ih =>
    rw [newFingerprints_append]
    rcases List.mem_append.mp hmem with hmem | hmem
    · exact subset_addNew (ih hmem)
    · rw [← List.mem_singleton.mp hmem]
      unfold addNew
      split
      · next hor => exact hor.resolve_left (not_not.mpr h)
      · exact List.mem_append_right _ (List.mem_singleton.mpr rfl)

/-- More keys do not change whether an earlier one fits. -/
theorem fits_append_iff (hmem : key ∈ keys) (last : Bytes) :
    Fits storage (keys ++ [last]) key ↔ Fits storage keys key := by
  unfold Fits
  by_cases hfound : storage.lookup key = none
  · have hin := mem_newFingerprints hmem hfound
    rw [newFingerprints_append, addNew]
    split
    · rfl
    · next hnew =>
      refine or_congr_right ?_
      have hne : storage.fingerprint key ≠ storage.fingerprint last := fun heq =>
        hnew (.inr (heq ▸ hin))
      rw [List.take_append, List.mem_append]
      refine or_iff_left fun h => ?_
      exact hne (List.mem_singleton.mp (List.mem_of_mem_take h))
  · exact iff_of_true (.inl hfound) (.inl hfound)

/-! ## The loop -/

/-- The call of `storage_.Insert` for a span. -/
def writeOf (k : SegmentsKey) (span : Nat × Nat) : Write :=
  ⟨span, k.getKey span.1 span.2, k.getLengthArray span.1 span.2⟩

def keysOf (k : SegmentsKey) (l : List (Nat × Nat)) : List Bytes :=
  l.map fun span => k.getKey span.1 span.2

/-- A reversible call after the spans `done`. -/
structure Filled (storage : LruStorage LengthArray) (k : SegmentsKey) (done : List (Nat × Nat))
    (st : Learning) : Prop where
  fingerprint : ∀ key, st.storage.fingerprint key = storage.fingerprint key
  size : st.storage.size = storage.size
  used : st.storage.usedSize = storage.usedSize +
    min (storage.size - storage.usedSize) (newFingerprints storage (keysOf k done)).length
  found : ∀ key, st.storage.lookup key ≠ none ↔ Fits storage (keysOf k done) key
  log : ∀ w, w ∈ st.log ↔
    ∃ span ∈ done, Fits storage (keysOf k done) (k.getKey span.1 span.2) ∧ w = writeOf k span

variable {k : SegmentsKey} {done : List (Nat × Nat)} {st : Learning}

theorem keysOf_append (k : SegmentsKey) (done : List (Nat × Nat)) (span : Nat × Nat) :
    keysOf k (done ++ [span]) = keysOf k done ++ [k.getKey span.1 span.2] := by
  simp [keysOf]

/-- The log of a round, from whether the key fits. -/
theorem Filled.log_append (h : Filled storage k done st) (span : Nat × Nat) (w : Write) :
    (∃ s ∈ done ++ [span], Fits storage (keysOf k (done ++ [span])) (k.getKey s.1 s.2) ∧
        w = writeOf k s) ↔
      w ∈ st.log ∨ Fits storage (keysOf k (done ++ [span])) (k.getKey span.1 span.2) ∧
        w = writeOf k span := by
  have hold : ∀ s ∈ done, (Fits storage (keysOf k (done ++ [span])) (k.getKey s.1 s.2) ↔
      Fits storage (keysOf k done) (k.getKey s.1 s.2)) := by
    intro s hs
    rw [keysOf_append]
    exact fits_append_iff (List.mem_map.mpr ⟨s, hs, rfl⟩) _
  rw [h.log]
  constructor
  · rintro ⟨s, hs, hfits, hw⟩
    rcases List.mem_append.mp hs with hs | hs
    · exact .inl ⟨s, hs, (hold s hs).mp hfits, hw⟩
    · cases List.mem_singleton.mp hs
      exact .inr ⟨hfits, hw⟩
  · rintro (⟨s, hs, hfits, hw⟩ | ⟨hfits, hw⟩)
    · exact ⟨s, List.mem_append_left _ hs, (hold s hs).mpr hfits, hw⟩
    · exact ⟨span, List.mem_append_right _ (List.mem_singleton.mpr rfl), hfits, hw⟩

theorem lookup_congr (h : storage.fingerprint key' = storage.fingerprint key) :
    storage.lookup key' = storage.lookup key := by
  rw [LruStorage.lookup, h]
  rfl

theorem fits_congr (h : storage.fingerprint key' = storage.fingerprint key) :
    Fits storage keys key' ↔ Fits storage keys key := by
  rw [Fits, Fits, h, lookup_congr h]

/-- A write for which there is room: afterwards its key is stored as well. -/
theorem Filled.found_insert (h : Filled storage k done st) {value : LengthArray}
    (hroom : st.storage.RoomFor key) :
    (st.storage.insert key value).lookup key' ≠ none ↔
      storage.fingerprint key' = storage.fingerprint key ∨
        Fits storage (keysOf k done) key' := by
  rw [LruStorage.lookup_insert hroom, h.fingerprint, h.fingerprint, ← h.found]
  split
  · next heq => simp [heq]
  · next hne => simp [hne]

/-- A round for a key that is in the storage. -/
theorem Filled.overwrite (h : Filled storage k done st) (span : Nat × Nat)
    {previous : LengthArray} (hlook : st.storage.lookup (k.getKey span.1 span.2) = some previous) :
    Filled storage k (done ++ [span])
      ((st.remember (k.getKey span.1 span.2) (some previous)).store k span) := by
  have hne : st.storage.lookup (k.getKey span.1 span.2) ≠ none := by simp [hlook]
  have hfits := (h.found _).mp hne
  have hnew : newFingerprints storage (keysOf k (done ++ [span])) =
      newFingerprints storage (keysOf k done) := by
    rw [keysOf_append, newFingerprints_append]
    exact addNew_of_mem (hfits.imp_right List.mem_of_mem_take)
  have hall : ∀ key, Fits storage (keysOf k (done ++ [span])) key ↔
      Fits storage (keysOf k done) key := by
    intro key
    rw [Fits, Fits, hnew]
  refine ⟨h.fingerprint, h.size, ?_, ?_, ?_⟩
  · rw [hnew, ← h.used]
    exact LruStorage.usedSize_insert_of_found hne
  · intro key
    rw [hall]
    refine (h.found_insert (.inl hne)).trans (or_iff_right_of_imp fun heq => ?_)
    exact (fits_congr heq).mpr hfits
  · intro w
    rw [h.log_append span w, hall]
    show w ∈ st.log ++ [writeOf k span] ↔ _
    simpa using or_congr_right (and_iff_right hfits).symm

/-- A round for a new key when the storage is full. -/
theorem Filled.skip (h : Filled storage k done st) (span : Nat × Nat)
    (hle : storage.usedSize ≤ storage.size)
    (hlook : st.storage.lookup (k.getKey span.1 span.2) = none)
    (hfull : st.storage.size ≤ st.storage.usedSize) : Filled storage k (done ++ [span]) st := by
  have hnot : ¬Fits storage (keysOf k done) (k.getKey span.1 span.2) := fun hfits =>
    (h.found _).mpr hfits hlook
  have hmany : storage.size - storage.usedSize ≤
      (newFingerprints storage (keysOf k done)).length := by
    have := h.used
    have := h.size
    omega
  -- what comes behind the keys that fit does not count
  have htake : (newFingerprints storage (keysOf k (done ++ [span]))).take
      (storage.size - storage.usedSize) = (newFingerprints storage (keysOf k done)).take
      (storage.size - storage.usedSize) := by
    rw [keysOf_append, newFingerprints_append, addNew]
    split
    · rfl
    · exact List.take_append_of_le_length hmany
  have hall : ∀ key, Fits storage (keysOf k (done ++ [span])) key ↔
      Fits storage (keysOf k done) key := by
    intro key
    rw [Fits, Fits, htake]
  refine ⟨h.fingerprint, h.size, ?_, fun key => (h.found key).trans (hall key).symm, ?_⟩
  · have hlen := congrArg List.length htake
    rw [List.length_take, List.length_take] at hlen
    rw [hlen, ← h.used]
  · intro w
    rw [h.log_append span w, hall]
    exact (or_iff_left fun hw => hnot hw.1).symm

/-- A round for a new key when there is room. -/
theorem Filled.grow (h : Filled storage k done st) (span : Nat × Nat)
    (hle : storage.usedSize ≤ storage.size)
    (hlook : st.storage.lookup (k.getKey span.1 span.2) = none)
    (hroom : st.storage.usedSize < st.storage.size) : Filled storage k (done ++ [span])
      ((st.remember (k.getKey span.1 span.2) none).store k span) := by
  have hnot : ¬Fits storage (keysOf k done) (k.getKey span.1 span.2) := fun hfits =>
    (h.found _).mpr hfits hlook
  have hfew : (newFingerprints storage (keysOf k done)).length <
      storage.size - storage.usedSize := by
    have := h.used
    have := h.size
    omega
  have hold : (newFingerprints storage (keysOf k done)).take (storage.size - storage.usedSize) =
      newFingerprints storage (keysOf k done) := List.take_of_length_le (Nat.le_of_lt hfew)
  have hnew : newFingerprints storage (keysOf k (done ++ [span])) =
      newFingerprints storage (keysOf k done) ++
        [storage.fingerprint (k.getKey span.1 span.2)] := by
    rw [keysOf_append, newFingerprints_append, addNew, if_neg]
    simpa [Fits, hold] using hnot
  have hlen : (newFingerprints storage (keysOf k (done ++ [span]))).length =
      (newFingerprints storage (keysOf k done)).length + 1 := by
    simp [hnew]
  have hall : ∀ key, Fits storage (keysOf k (done ++ [span])) key ↔
      storage.fingerprint key = storage.fingerprint (k.getKey span.1 span.2) ∨
        Fits storage (keysOf k done) key := by
    intro key
    rw [Fits, Fits, hold, List.take_of_length_le (by omega), hnew, List.mem_append,
      List.mem_singleton]
    constructor
    · rintro (h | h | h)
      exacts [.inr (.inl h), .inr (.inr h), .inl h]
    · rintro (h | h | h)
      exacts [.inr (.inr h), .inl h, .inr (.inl h)]
  refine ⟨h.fingerprint, h.size, ?_, ?_, ?_⟩
  · have hused : ((st.remember (k.getKey span.1 span.2) none).store k span).storage.usedSize =
        st.storage.usedSize + 1 := LruStorage.usedSize_insert_of_new hlook hroom
    have := h.used
    omega
  · intro key
    rw [hall]
    exact h.found_insert (.inr hroom)
  · intro w
    rw [h.log_append span w, hall]
    show w ∈ st.log ++ [writeOf k span] ↔ _
    simp

theorem Filled.step (h : Filled storage k done st) (hle : storage.usedSize ≤ storage.size)
    (span : Nat × Nat) : Filled storage k (done ++ [span]) (insertSpan true k st span) := by
  cases hlook : st.storage.lookup (k.getKey span.1 span.2) with
  | some previous =>
    simpa [insertSpan, if_true, hlook] using h.overwrite span hlook
  | none =>
    simp only [insertSpan, if_true, hlook]
    split
    · next hfull => exact h.skip span hle hlook hfull
    · next hroom => exact h.grow span hle hlook (Nat.lt_of_not_le hroom)

theorem Filled.run (hle : storage.usedSize ≤ storage.size) : ∀ (l : List (Nat × Nat))
    {done : List (Nat × Nat)} {st : Learning}, Filled storage k done st →
    Filled storage k (done ++ l) (l.foldl (insertSpan true k) st)
  | [], _, _, h => by rwa [List.append_nil]
  | span :: l, done, st, h => by
    have := (h.step hle span).run hle l
    rwa [List.append_assoc] at this

theorem Filled.start (storage : LruStorage LengthArray) (k : SegmentsKey) :
    Filled storage k [] { storage := storage } := by
  refine ⟨fun _ => rfl, rfl, ?_, fun key => ?_, fun w => by simp⟩
  · simp [keysOf, newFingerprints]
  · simp [Fits, keysOf, newFingerprints]

/-! ## The writes of a call -/

theorem log_foldl (k : SegmentsKey) : ∀ (l : List (Nat × Nat)) (st : Learning),
    (l.foldl (insertSpan false k) st).log = st.log ++ l.map (writeOf k)
  | [], st => by simp
  | span :: l, st => by
    rw [List.foldl_cons, log_foldl k l]
    show st.log ++ [writeOf k span] ++ _ = _
    simp

theorem mem_log_iff (hle : storage.usedSize ≤ storage.size) (reversible : Bool) (k : SegmentsKey)
    (l : List (Nat × Nat)) (w : Write) :
    w ∈ (l.foldl (insertSpan reversible k) { storage := storage }).log ↔
      ∃ span ∈ l, (reversible = false ∨ Fits storage (keysOf k l) (k.getKey span.1 span.2)) ∧
        w = writeOf k span := by
  cases reversible with
  | false =>
    rw [log_foldl]
    simp only [List.nil_append, List.mem_map, true_or, true_and]
    exact exists_congr fun span => and_congr_right fun _ => eq_comm
  | true =>
    have h := (Filled.start storage k).run hle l
    rw [List.nil_append] at h
    rw [h.log]
    simp

/-- The readings of the spans of `n` segments. -/
def spanKeys (segs : List Segment) (n : Nat) : List Bytes :=
  (spans n).map fun span => SegmentsKey.keyOf (spanOf segs span)

variable (rw : UserBoundaryHistoryRewriter) (request : RewriterRequest) (segments : Segments)

/-- The call gets as far as the loops. -/
def Learns : Prop := canLearn request segments = true ∧ tooLong segments = false ∧
  ∀ s ∈ segments.conversionSegments, s.keyLen ≤ 255

/-- The reading of a span finds its place: always, or in a reversible call if it fits. -/
def FindsPlace (span : Nat × Nat) : Prop :=
  request.reversibleExternalLearning = false ∨
    Fits rw.storage (spanKeys segments.conversionSegments (targetSegmentsSize segments))
      (SegmentsKey.keyOf (spanOf segments.conversionSegments span))

/-- Every array that is written holds the lengths, as they are, of the `FIXED_VALUE` segments that
have its key. -/
def ExactWrites : Prop :=
  ∀ w ∈ (learn rw request segments).log,
    (∀ s ∈ spanOf segments.conversionSegments w.span, s.segmentType = .fixedValue) ∧
      w.key = SegmentsKey.keyOf (spanOf segments.conversionSegments w.span) ∧
      w.lengths.lengths.map UInt8.toNat =
        (spanOf segments.conversionSegments w.span).map Segment.keyLen ++
          List.replicate (8 - w.span.2) 0

variable {rw request segments}

theorem keysOf_spans (hof : k.Of segments.conversionSegments) :
    keysOf k (spans (targetSegmentsSize segments)) =
      spanKeys segments.conversionSegments (targetSegmentsSize segments) := by
  refine List.map_congr_left fun span hspan => hof.getKey ?_
  exact Nat.le_trans (mem_spans.mp hspan).2.1 List.countP_le_length

theorem log_learn (h : ¬Learns request segments) : (learn rw request segments).log = [] := by
  by_cases hcan : canLearn request segments = true
  · rw [learn, if_pos hcan]
    dsimp only [insert]
    by_cases hlong : tooLong segments = true
    · rw [if_pos hlong]
      split <;> rfl
    · have hcreate : SegmentsKey.create segments = none := by
        refine create_eq_none ?_
        by_contra hshort
        refine h ⟨hcan, by simpa using hlong, fun s hs => ?_⟩
        exact Nat.le_of_not_lt fun hlt => hshort ⟨s, hs, hlt⟩
      rw [if_neg hlong, hcreate]
      split <;> rfl
  · rw [learn, if_neg hcan]

theorem learn_of_learns (rw : UserBoundaryHistoryRewriter) (h : Learns request segments) :
    ∃ k, k.Of segments.conversionSegments ∧ (learn rw request segments).log =
      ((spans (targetSegmentsSize segments)).foldl
        (insertSpan request.reversibleExternalLearning k) { storage := rw.storage }).log := by
  obtain ⟨hcan, hlong, hshort⟩ := h
  obtain ⟨k, hk, hof⟩ := create_of_short hshort
  refine ⟨k, hof, ?_⟩
  rw [learn, if_pos hcan, insert, hlong, hk]
  split
  · next h0 =>
    rw [h0]
    rfl
  · rfl

/-- The stored lengths of `FIXED_VALUE` segments are exact, because none of them is too long. -/
theorem writeOf_exact (hof : k.Of segments.conversionSegments) (hlong : tooLong segments = false)
    {span : Nat × Nat} (hspan : span ∈ spans (targetSegmentsSize segments))
    (hfixed : ∀ s ∈ spanOf segments.conversionSegments span, s.segmentType = .fixedValue) :
    (writeOf k span).key = SegmentsKey.keyOf (spanOf segments.conversionSegments span) ∧
      (writeOf k span).lengths.lengths.map UInt8.toNat =
        (spanOf segments.conversionSegments span).map Segment.keyLen ++
          List.replicate (8 - span.2) 0 := by
  obtain ⟨-, hle, h5⟩ := mem_spans.mp hspan
  have hin : span.1 + span.2 ≤ segments.conversionSegments.length :=
    Nat.le_trans hle List.countP_le_length
  unfold kMaxKeysSize at h5
  refine ⟨hof.getKey hin, (hof.getLengthArray hin (by omega)).trans ?_⟩
  refine (List.map_congr_left fun m hm => Nat.mod_eq_of_lt ?_).trans (List.map_id _)
  rcases List.mem_append.mp hm with hm | hm
  · obtain ⟨s, hs, rfl⟩ := List.mem_map.mp hm
    have hconv : s ∈ segments.conversionSegments := List.mem_of_mem_drop (List.mem_of_mem_take hs)
    have hshort := List.any_eq_false.mp hlong s hconv
    simp only [hfixed s hs, decide_true, Bool.true_and, decide_eq_true_eq] at hshort
    unfold kMaxStoredSegmentLength at hshort
    omega
  · rw [(List.mem_replicate.mp hm).2]
    decide

/-- **The stored lengths are exact exactly when every span that finds its place has only
`FIXED_VALUE` segments.** -/
theorem exactWrites_iff : ExactWrites rw request segments ↔
    (Learns request segments → ∀ span ∈ spans (targetSegmentsSize segments),
      FindsPlace rw request segments span →
        ∀ s ∈ spanOf segments.conversionSegments span, s.segmentType = .fixedValue) := by
  by_cases hl : Learns request segments
  · obtain ⟨k, hof, hlog⟩ := learn_of_learns rw hl
    have hmem := mem_log_iff rw.storage.items.bounded request.reversibleExternalLearning k
      (spans (targetSegmentsSize segments))
    rw [keysOf_spans hof, ← hlog] at hmem
    have hkey : ∀ span ∈ spans (targetSegmentsSize segments),
        k.getKey span.1 span.2 = SegmentsKey.keyOf (spanOf segments.conversionSegments span) :=
      fun span hspan => hof.getKey (Nat.le_trans (mem_spans.mp hspan).2.1 List.countP_le_length)
    constructor
    · intro hexact _ span hspan hplace
      refine (hexact (writeOf k span) ((hmem _).mpr ⟨span, hspan, ?_, rfl⟩)).1
      rw [hkey span hspan]
      exact hplace
    · intro hfixed w hw
      obtain ⟨span, hspan, hplace, rfl⟩ := (hmem w).mp hw
      rw [hkey span hspan] at hplace
      have hall := hfixed hl span hspan hplace
      exact ⟨hall, writeOf_exact hof hl.2.1 hspan hall⟩
  · refine iff_of_true ?_ fun h => absurd h hl
    intro w hw
    simp [log_learn hl] at hw

/-! ## The two results together -/

/-- **A learned segmentation comes back for every other segmentation of its reading, and what is
stored is exact as long as the spans that are stored are of `FIXED_VALUE` segments.** -/
theorem boundaries_learned (rw : UserBoundaryHistoryRewriter) (request request' : RewriterRequest)
    (S T : Segments) :
    (Learnable S → canLearn request S = true → rw.storage.usedSize + 15 ≤ rw.storage.size →
      NoCollision rw.storage S → Askable T → canLookup request' T = true →
      SegmentsKey.keyOf T.conversionSegments = SegmentsKey.keyOf S.conversionSegments →
      if T.conversionSegments.map Segment.key = S.conversionSegments.map Segment.key then
        checkResizeSegmentsRequest (finish rw request S) request' T = none
      else ∃ sizes,
        checkResizeSegmentsRequest (finish rw request S) request' T = some ⟨0, sizes⟩ ∧
        (sizes.map UInt8.toNat).filter (· ≠ 0) = S.conversionSegments.map Segment.keyLen) ∧
    (ExactWrites rw request S ↔
      (Learns request S → ∀ span ∈ spans (targetSegmentsSize S), FindsPlace rw request S span →
        ∀ s ∈ spanOf S.conversionSegments span, s.segmentType = .fixedValue)) :=
  ⟨fun hS hcan hroom hcol hT hask hkey => check_learned hS hcan hroom hcol hT hask hkey,
    exactWrites_iff⟩

/-- A rewriter that has learned nothing. -/
def fresh : UserBoundaryHistoryRewriter where
  storage := { seed := 0x761fea81, items := { capacity := 5000, positive := by decide } }
  revertCache := { capacity := 16, positive := by decide }

def segmentOf (segmentType : SegmentType) (key : String) : Segment :=
  { segmentType, key := utf8 key }

def umiDesu : Segments where
  segments := [segmentOf .fixedValue "うみ", segmentOf .fixedValue "です"]
  resized := true

def umidesu : Segments := { segments := [segmentOf .free "うみです"] }

theorem boundaries_learned_umiDesu :
    ∃ sizes, checkResizeSegmentsRequest (finish fresh {} umiDesu) {} umidesu = some ⟨0, sizes⟩ ∧
      (sizes.map UInt8.toNat).filter (· ≠ 0) = [2, 2] := by
  have h := (boundaries_learned fresh {} {} umiDesu umidesu).1
    ⟨by decide, by decide, by decide, by decide, by decide, by decide⟩ (by decide) (by decide)
    (by unfold NoCollision; decide +kernel) ⟨by decide, by decide, by decide, by decide, by decide⟩
    (by decide) (by decide)
  rwa [if_neg (by decide)] at h

/-- Twenty characters that the converter chose, and three that the user did. -/
def longFront : Segments where
  segments := [segmentOf .free "ああああああああああああああああああああ", segmentOf .fixedValue "かきく"]
  resized := true

/-- The front segment is stored in place of the fixed one, and twenty characters as four. -/
theorem not_exactWrites_longFront :
    ((learn fresh {} longFront).log.map fun w => (w.key, w.lengths.lengths)) =
        [(utf8 "ああああああああああああああああああああ", [4, 0, 0, 0, 0, 0, 0, 0])] ∧
      ¬ExactWrites fresh {} longFront := by
  refine ⟨by decide +kernel, fun h => ?_⟩
  have hfixed := exactWrites_iff.mp h ⟨by decide, by decide +kernel, by decide +kernel⟩ (0, 1)
    (by decide) (.inl rfl)
  exact absurd (hfixed _ (List.mem_cons_self ..)) (by decide)

/-! ## Undoing -/

def SameLookups (s t : LruStorage LengthArray) : Prop :=
  ∀ key, s.fingerprint key = t.fingerprint key ∧ s.lookup key = t.lookup key

theorem lookup_restore {s : LruStorage LengthArray} {e : RevertEntry} (h : s.lookup e.key ≠ none) :
    (restore s e).lookup key' =
      if s.fingerprint key' = s.fingerprint e.key then e.previousValue else s.lookup key' := by
  unfold restore
  split
  · next value heq => exact heq ▸ LruStorage.lookup_insert (.inl h)
  · next heq => exact heq ▸ RecencyMap.value?_remove _ _ _

/-- A write is undone by the entry that was made before it. -/
theorem SameLookups.restore {s t : LruStorage LengthArray} {value : LengthArray}
    (hroom : t.RoomFor key) (h : SameLookups s (t.insert key value)) :
    SameLookups (restore s ⟨key, t.lookup key⟩) t := by
  intro key'
  have hkey : ∀ key', s.fingerprint key' = t.fingerprint key' := fun key' => (h key').1
  have hlook := (h key').2
  rw [LruStorage.lookup_insert hroom] at hlook
  constructor
  · rw [← hkey]
    unfold UserBoundaryHistoryRewriter.restore
    split <;> rfl
  · rw [lookup_restore (by simp [(h key).2, LruStorage.lookup_insert_self]), hkey, hkey, hlook]
    split
    · next heq => exact (lookup_congr heq).symm
    · rfl

/-- These entries lead back from a state of `Insert` to an earlier one. -/
def Undoes (entries : List RevertEntry) (st st' : Learning) : Prop :=
  st'.revertEntries = st.revertEntries ++ entries ∧ ∀ s, SameLookups s st'.storage →
    SameLookups (entries.reverse.foldl restore s) st.storage

theorem undoes_nil (st : Learning) : Undoes [] st st := ⟨by simp, fun _ h => h⟩

/-- A reversible round never pushes anything out. -/
theorem exists_undoes_insertSpan (k : SegmentsKey) (st : Learning) (span : Nat × Nat) :
    ∃ entries, Undoes entries st (insertSpan true k st span) := by
  have hstore : st.storage.RoomFor (k.getKey span.1 span.2) → ∃ entries, Undoes entries st
      ((st.remember (k.getKey span.1 span.2) (st.storage.lookup _)).store k span) :=
    fun hroom => ⟨[⟨_, _⟩], rfl, fun s h => h.restore hroom⟩
  cases hlook : st.storage.lookup (k.getKey span.1 span.2) with
  | none =>
    rw [hlook] at hstore
    simp only [insertSpan, if_true, hlook]
    split
    · exact ⟨[], undoes_nil st⟩
    · next hroom => exact hstore (.inr (Nat.lt_of_not_le hroom))
  | some previous =>
    rw [hlook] at hstore
    simpa [insertSpan, hlook] using hstore (.inl (by simp [hlook]))

theorem exists_undoes_foldl (k : SegmentsKey) : ∀ (l : List (Nat × Nat)) (st : Learning),
    ∃ entries, Undoes entries st (l.foldl (insertSpan true k) st)
  | [], st => ⟨[], undoes_nil st⟩
  | span :: l, st => by
    obtain ⟨first, hfirst, hundo⟩ := exists_undoes_insertSpan k st span
    obtain ⟨rest, hrest, hundos⟩ := exists_undoes_foldl k l (insertSpan true k st span)
    refine ⟨first ++ rest, by simp [hrest, hfirst], fun s h => ?_⟩
    rw [List.reverse_append, List.foldl_append]
    exact hundo _ (hundos s h)

/-- **What a reversible commit learned is forgotten when it is reverted**: every key has the value
that it had before. -/
theorem lookup_revert_finish (hreversible : request.reversibleExternalLearning = true)
    (hfresh : rw.revertCache.get? segments.revertId = none) (key : Bytes) :
    (revert (finish rw request segments) segments).storage.lookup key = rw.storage.lookup key := by
  obtain ⟨entries, hentries, hundo⟩ :
      ∃ entries, Undoes entries { storage := rw.storage } (learn rw request segments) := by
    rw [learn, insert, hreversible]
    split_ifs
    iterate 2 exact ⟨[], undoes_nil _⟩
    · split
      · exact ⟨[], undoes_nil _⟩
      · exact exists_undoes_foldl _ _ _
    · exact ⟨[], undoes_nil _⟩
  have hsame := (hundo _ fun _ => ⟨rfl, rfl⟩) key
  rw [List.nil_append] at hentries
  by_cases hid : segments.revertId = 0
  · have hlearn : learn rw request segments = { storage := rw.storage } := by
      simp [learn, canLearn, hreversible, hid]
    simp [revert, finish, hid, hlearn]
  · rw [finish, hreversible, hentries, revert, if_neg hid]
    cases entries with
    | nil =>
      dsimp only [List.isEmpty_nil]
      rw [if_neg (by decide), hfresh]
      exact hsame.2
    | cons e entries =>
      dsimp only [List.isEmpty_cons]
      rw [if_pos (by decide), RecencyMap.get?_insert_self]
      exact hsame.2

theorem lookup_revert_finish_umiDesu :
    (revert (finish fresh { reversibleExternalLearning := true } { umiDesu with revertId := 1 })
      { umiDesu with revertId := 1 }).storage.lookup (utf8 "うみです") = none :=
  lookup_revert_finish rfl rfl _

end UserBoundaryHistoryRewriter

end Mozkey.Rewriter
