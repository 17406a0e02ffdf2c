import Mathlib.Logic.Function.Iterate
import Mozkey.Base.FullWidthAscii
import Mozkey.Converter.Segments

/-!
# The normalization of the history

`NormalizeHistorySegments` in `converter/immutable_converter.cc`, with which `MakeLattice` begins. A
number is reduced to its last digit, in all places but the key of the candidate, and the next run
takes the longer key. So the segments are stable exactly when no number is reduced
(`normalizeHistorySegments_stable_iff`).
-/

namespace Mozkey.Converter

open Infra Base

/-- `IsNumber` of the last byte. -/
def endsWithDigit (key : Bytes) : Bool :=
  match key.getLast? with
  | some c => 0x30 ≤ c.toNat && c.toNat ≤ 0x39
  | none => false

/-- The key, and the candidate when its texts have been converted. -/
def convertHistory (s : Segment) (c : Candidate) : Bytes × Candidate :=
  let historyKey := if s.key.length < c.key.length then c.key else s.key
  let key := fullWidthAsciiToHalfWidthAscii historyKey
  (key, { c with
    key
    value := fullWidthAsciiToHalfWidthAscii c.value
    contentKey := fullWidthAsciiToHalfWidthAscii c.contentKey
    contentValue := fullWidthAsciiToHalfWidthAscii c.contentValue })

/-- The number that is written in the same way everywhere. -/
def isWholeNumber (key : Bytes) (c : Candidate) : Bool :=
  1 < key.length && key = c.value && key = c.contentValue && key = c.key && key = c.contentKey &&
    getScriptTypeOfString key = .number && endsWithDigit key

/-- Uses the last digit only. -/
def useLastDigit (key : Bytes) (c : Candidate) : Bytes × Candidate :=
  let digit := key.drop (key.length - 1)
  (digit, { c with value := digit, contentValue := digit, contentKey := digit })

def sameSizes (c d : Candidate) : Bool :=
  c.key.length = d.key.length && c.value.length = d.value.length &&
    c.contentKey.length = d.contentKey.length && c.contentValue.length = d.contentValue.length

def normalizeHistorySegment (s : Segment) : Segment :=
  match s.candidates with
  | [] => s
  | c :: rest =>
    let (key, d) := convertHistory s c
    let (key, d) := if isWholeNumber key d then useLastDigit key d else (key, d)
    let d := if sameSizes d c then d else { d with innerSegmentBoundary := [] }
    { s with key, candidates := d :: rest }

def normalizeHistorySegments (s : Segments) : Segments :=
  { s with segments := s.historySegments.map normalizeHistorySegment ++ s.conversionSegments }

/-! ## What is expected -/

/-- The segment is a number of several digits, of which the last one is left. -/
def Segment.reducesToLastDigit (s : Segment) : Bool :=
  match s.candidates with
  | [] => false
  | c :: _ => isWholeNumber (convertHistory s c).1 (convertHistory s c).2

/-- The key of each segment, and the texts of its candidates. -/
def texts (s : Segments) : List (Bytes × List (Bytes × Bytes × Bytes × Bytes)) :=
  s.segments.map fun g =>
    (g.key, g.candidates.map fun c => (c.key, c.value, c.contentKey, c.contentValue))

structure StableNormalization (s : Segments) : Prop where
  /-- A second run changes no text. -/
  twice : texts (normalizeHistorySegments (normalizeHistorySegments s)) =
    texts (normalizeHistorySegments s)
  /-- What was reduced stays so, whenever the same segments are normalized again. -/
  reduced : ∀ (i : Nat) (g : Segment), s.historySegments[i]? = some g →
    g.reducesToLastDigit = true →
    ∀ (n : Nat) (g' : Segment) (c : Candidate),
      (normalizeHistorySegments^[n + 1] s).historySegments[i]? = some g' →
      g'.candidates.head? = some c → g'.key = c.value

/-! ## Once and twice -/

variable {s : Segment} {c d : Candidate} {rest : List Candidate} {key : Bytes}

theorem segmentType_normalizeHistorySegment (s : Segment) :
    (normalizeHistorySegment s).segmentType = s.segmentType := by
  unfold normalizeHistorySegment
  split <;> rfl

theorem normalizeHistorySegment_of_not (hs : s.candidates = c :: rest)
    (h : s.reducesToLastDigit = false) : normalizeHistorySegment s =
      { s with
        key := (convertHistory s c).1
        candidates := (if sameSizes (convertHistory s c).2 c then (convertHistory s c).2
          else { (convertHistory s c).2 with innerSegmentBoundary := [] }) :: rest } := by
  rw [Segment.reducesToLastDigit, hs] at h
  rw [normalizeHistorySegment, hs]
  simp only [h]
  rfl

theorem normalizeHistorySegment_of_reduces (hs : s.candidates = c :: rest)
    (h : s.reducesToLastDigit = true) : ∃ d, (normalizeHistorySegment s).candidates = d :: rest ∧
      (normalizeHistorySegment s).key =
        (convertHistory s c).1.drop ((convertHistory s c).1.length - 1) ∧
      d.key = (convertHistory s c).1 ∧ d.value = (normalizeHistorySegment s).key := by
  rw [Segment.reducesToLastDigit, hs] at h
  rw [normalizeHistorySegment, hs]
  simp only [h, if_true, useLastDigit]
  refine ⟨_, rfl, trivial, ?_, ?_⟩ <;> split <;> rfl

/-- A segment with converted texts is left as it is. -/
theorem convertHistory_of_converted (hkey : s.key = c.key)
    (htexts : ∀ text ∈ [c.key, c.value, c.contentKey, c.contentValue],
      fullWidthAsciiToHalfWidthAscii text = text) : convertHistory s c = (s.key, c) := by
  simp only [List.forall_mem_cons, List.not_mem_nil, false_implies, implies_true, and_true]
    at htexts
  obtain ⟨hk, hv, hck, hcv⟩ := htexts
  unfold convertHistory
  dsimp only
  rw [hkey, if_neg (Nat.lt_irrefl _), hk, hv, hck, hcv]

theorem converted_convertHistory (s : Segment) (c : Candidate) :
    ∀ text ∈ [(convertHistory s c).2.key, (convertHistory s c).2.value,
      (convertHistory s c).2.contentKey, (convertHistory s c).2.contentValue],
      fullWidthAsciiToHalfWidthAscii text = text := by
  simp [convertHistory, fullWidthAsciiToHalfWidthAscii_idem]

theorem normalize_twice_of_not (h : s.reducesToLastDigit = false) :
    normalizeHistorySegment (normalizeHistorySegment s) = normalizeHistorySegment s := by
  cases hs : s.candidates with
  | nil =>
    have hsame : normalizeHistorySegment s = s := by rw [normalizeHistorySegment, hs]
    rw [hsame, hsame]
  | cons c rest =>
    rw [normalizeHistorySegment_of_not hs h]
    set d := if sameSizes (convertHistory s c).2 c then (convertHistory s c).2
      else { (convertHistory s c).2 with innerSegmentBoundary := [] } with hd
    have htexts : d.key = (convertHistory s c).1 ∧ d.value = (convertHistory s c).2.value ∧
        d.contentKey = (convertHistory s c).2.contentKey ∧
        d.contentValue = (convertHistory s c).2.contentValue := by
      rw [hd]
      split <;> exact ⟨rfl, rfl, rfl, rfl⟩
    obtain ⟨hk, hv, hck, hcv⟩ := htexts
    set s' : Segment := { s with key := (convertHistory s c).1, candidates := d :: rest } with hs'
    have hconverted : convertHistory s' d = (s'.key, d) := by
      refine convertHistory_of_converted hk.symm ?_
      rw [hk, hv, hck, hcv]
      exact converted_convertHistory s c
    have hnot : s'.reducesToLastDigit = false := by
      rw [Segment.reducesToLastDigit, hs] at h
      rw [Segment.reducesToLastDigit, hs']
      dsimp only
      rw [← hs', hconverted, hs', ← h]
      unfold isWholeNumber
      dsimp only
      rw [hk, hv, hck, hcv]
      rfl
    rw [normalizeHistorySegment_of_not rfl hnot, hconverted]
    have hsizes : sameSizes d d = true := by simp [sameSizes]
    rw [if_pos hsizes]

theorem convert_singleton (x : UInt8) : fullWidthAsciiToHalfWidthAscii [x] = [x] := by
  have hlen := (oneCharLen_le x).1
  rw [convert_copy rfl, List.take_of_length_le hlen, List.drop_of_length_le hlen, convert_nil,
    List.append_nil]

/-- The next run takes the key of the candidate, which has all the digits. -/
theorem normalize_twice_of_reduces (h : s.reducesToLastDigit = true) :
    (normalizeHistorySegment (normalizeHistorySegment s)).key ≠
      (normalizeHistorySegment s).key := by
  cases hs : s.candidates with
  | nil =>
    simp [Segment.reducesToLastDigit, hs] at h
  | cons c rest =>
    obtain ⟨d, hd, hkey, hdkey, hdvalue⟩ := normalizeHistorySegment_of_reduces hs h
    rw [Segment.reducesToLastDigit, hs] at h
    simp only [isWholeNumber, Bool.and_eq_true, decide_eq_true_eq] at h
    have hlong : 1 < (convertHistory s c).1.length := h.1.1.1.1.1.1
    set s' := normalizeHistorySegment s with hs'
    have hone : s'.key.length = 1 := by
      simp [hkey]
      omega
    have hconverted : (convertHistory s' d).1 = (convertHistory s c).1 := by
      have hlt : s'.key.length < d.key.length := by rw [hdkey]; omega
      unfold convertHistory
      dsimp only
      rw [if_pos hlt, hdkey]
      exact fullWidthAsciiToHalfWidthAscii_idem _
    have hvalue : (convertHistory s' d).2.value.length = 1 := by
      obtain ⟨x, hx⟩ := List.length_eq_one_iff.mp hone
      show (fullWidthAsciiToHalfWidthAscii d.value).length = 1
      simp [hdvalue, hx, convert_singleton]
    have hnot : s'.reducesToLastDigit = false := by
      rw [Segment.reducesToLastDigit, hd]
      cases hwhole : isWholeNumber (convertHistory s' d).1 (convertHistory s' d).2 with
      | false => exact hwhole
      | true =>
        simp only [isWholeNumber, Bool.and_eq_true, decide_eq_true_eq] at hwhole
        rw [hwhole.1.1.1.1.1.2] at hconverted
        rw [← hconverted] at hlong
        omega
    rw [normalizeHistorySegment_of_not hd hnot]
    dsimp only
    rw [hconverted]
    intro heq
    rw [heq] at hlong
    omega

/-! ## All segments -/

variable {segments : Segments}

theorem isHistory_normalizeHistorySegment (s : Segment) :
    Segments.isHistory (normalizeHistorySegment s) = Segments.isHistory s := by
  simp [Segments.isHistory, segmentType_normalizeHistorySegment]

theorem historySegments_normalize : (normalizeHistorySegments segments).historySegments =
    segments.historySegments.map normalizeHistorySegment := by
  have hall : ∀ s ∈ segments.historySegments.map normalizeHistorySegment,
      Segments.isHistory s = true := by
    intro s hs
    obtain ⟨t, ht, rfl⟩ := List.mem_map.mp hs
    rw [isHistory_normalizeHistorySegment]
    exact List.mem_takeWhile_imp ht
  have hrest : segments.conversionSegments.takeWhile Segments.isHistory = [] := by
    have hhead := List.head?_dropWhile_not Segments.isHistory segments.segments
    unfold Segments.conversionSegments
    cases hconv : segments.segments.dropWhile Segments.isHistory with
    | nil => rfl
    | cons t l =>
      rw [hconv] at hhead
      exact List.takeWhile_cons_of_neg (by simpa using hhead)
  unfold normalizeHistorySegments
  rw [Segments.historySegments, List.takeWhile_append_of_pos hall, hrest, List.append_nil]

theorem conversionSegments_normalize : (normalizeHistorySegments segments).conversionSegments =
    segments.conversionSegments := by
  have hsplit : (normalizeHistorySegments segments).historySegments ++
      (normalizeHistorySegments segments).conversionSegments =
        (normalizeHistorySegments segments).segments := List.takeWhile_append_dropWhile
  rw [historySegments_normalize] at hsplit
  exact List.append_cancel_left hsplit

theorem key_of_texts {a b : Segments} (h : texts a = texts b) (i : Nat) :
    (a.segments[i]?).map Segment.key = (b.segments[i]?).map Segment.key := by
  have hentry := congrArg (fun l => (l[i]?).map Prod.fst) h
  simp only [texts, List.getElem?_map, Option.map_map] at hentry
  exact hentry

/-- **The normalization is stable exactly when no number loses digits.** -/
theorem normalizeHistorySegments_stable_iff (segments : Segments) :
    StableNormalization segments ↔
      ∀ g ∈ segments.historySegments, g.reducesToLastDigit = false := by
  have hsegments : (normalizeHistorySegments (normalizeHistorySegments segments)).segments =
      segments.historySegments.map (fun g =>
        normalizeHistorySegment (normalizeHistorySegment g)) ++ segments.conversionSegments := by
    rw [normalizeHistorySegments, historySegments_normalize, conversionSegments_normalize,
      List.map_map]
    rfl
  constructor
  · rintro ⟨htwice, _⟩ g hg
    cases h : g.reducesToLastDigit with
    | false => rfl
    | true =>
      obtain ⟨i, hi⟩ := List.mem_iff_getElem?.mp hg
      have hlt : i < segments.historySegments.length := (List.getElem?_eq_some_iff.mp hi).1
      have hentry := key_of_texts htwice i
      rw [hsegments, normalizeHistorySegments, List.getElem?_append_left (by simpa using hlt),
        List.getElem?_append_left (by simpa using hlt), List.getElem?_map, List.getElem?_map, hi]
        at hentry
      exact absurd (Option.some.inj hentry) (normalize_twice_of_reduces h)
  · intro hnot
    refine ⟨?_, fun i g hi hg => ?_⟩
    · have hsame : segments.historySegments.map (fun g =>
          normalizeHistorySegment (normalizeHistorySegment g)) =
          segments.historySegments.map normalizeHistorySegment :=
        List.map_congr_left fun g hg => normalize_twice_of_not (hnot g hg)
      rw [texts, hsegments, hsame]
      rfl
    · simp [hnot g (List.mem_of_getElem? hi)] at hg

/-- A history of one number. -/
def twelve : Segments :=
  let number := utf8 "12"
  { segments := [{
      segmentType := .history
      key := number
      candidates := [{
        key := number, value := number, contentKey := number, contentValue := number }] }] }

/-- 12 becomes 2, and then the key 12 with the value 2. -/
theorem not_stable_twelve : ¬ StableNormalization twelve := by
  intro h
  exact absurd (key_of_texts h.twice 0) (by decide +kernel)

end Mozkey.Converter
