import Mozkey.Infra.Alignment
import Mozkey.Converter.RankingConstraints
import Mozkey.Converter.Results
import Mathlib.Data.List.Forall2
import Mathlib.Data.List.Perm.Subperm

/-!
# A result, distributed over segments

`ApplyResultToSegmentsMultiSegment` of `converter/converter_util.cc`.
-/

namespace Mozkey.Converter

open Infra Base Infra.Alignment

/-- The texts of an interval. The inner segments lie behind each other in the result, so their
combined views are their texts behind each other. -/
structure Combined where
  key : Bytes
  value : Bytes
  contentKey : Bytes
  contentValue : Bytes

def combine (inner : List InnerSegment) : Combined :=
  let key := (inner.map InnerSegment.key).flatten
  let value := (inner.map InnerSegment.value).flatten
  match inner.getLast? with
  | none => ⟨key, value, key, value⟩
  | some last => ⟨key, value, key.take (key.length - last.functionalKey.length),
      value.take (value.length - last.functionalValue.length)⟩

/-- The inner segments of an interval are those from `startInner` on and before `innerIdx`. -/
structure Interval where
  combined : Combined
  numSegs : Nat
  startInner : Nat
  innerIdx : Nat
  constraints : UInt8

namespace Interval

/-- The part of the result's boundary that is the interval's. -/
def boundary (iv : Interval) (result : Result) : Option (List UInt32) :=
  if iv.innerIdx ≤ result.innerSegmentBoundary.length then
    some ((result.innerSegmentBoundary.take iv.innerIdx).drop iv.startInner)
  else none

/-- The candidate that is there already. -/
def isExisting (iv : Interval) (c : Candidate) : Bool :=
  c.value = iv.combined.value && c.effectiveConvertedSegmentCount = iv.numSegs

/-- Another derivation of a candidate that is there already. -/
def merge (iv : Interval) (result : Result) (c : Candidate) : Candidate :=
  { c with
    cost := min c.cost result.cost
    wcost := min c.wcost result.wcost
    attributes := c.attributes ||| result.attributes
    rankingConstraints := c.rankingConstraints &&& iv.constraints
    innerSegmentBoundary := (iv.boundary result).getD c.innerSegmentBoundary }

def newCandidate (iv : Interval) (result : Result) : Candidate where
  key := iv.combined.key
  value := iv.combined.value
  contentKey := iv.combined.contentKey
  contentValue := iv.combined.contentValue
  convertedSegmentCount := iv.numSegs % 2 ^ 32
  lid := result.lid
  rid := result.rid
  wcost := result.wcost
  cost := result.cost
  attributes := result.attributes
  rankingConstraints := iv.constraints
  consumedKeySize := result.consumedKeySize
  innerSegmentBoundary := (iv.boundary result).getD []

/-- The first segment of the interval gets the candidate. -/
def place (iv : Interval) (result : Result) (targetPos : Nat) (target : Segment) : Segment :=
  match target.candidates.findIdx? iv.isExisting with
  | some i =>
    if targetPos < i then
      let pos := min targetPos (target.candidates.length - 1)
      (target.moveRegular i pos).updateCandidate pos (iv.merge result)
    else target.updateCandidate i (iv.merge result)
  | none =>
    let pos := min targetPos target.candidates.length
    if pos = 0 ∧ 0 < target.candidates.length then
      target.pushFrontCandidate (iv.newCandidate result)
    else target.insertCandidate pos (iv.newCandidate result)

end Interval

abbrev segmentSize (s : Segment) : Nat := s.key.length

variable {result : Result} {segs : List Segment} {inner : List InnerSegment}

def keyOf (segs : List Segment) : Bytes := (segs.map Segment.key).flatten

def innerKey (inner : List InnerSegment) : Bytes := (inner.map InnerSegment.key).flatten

def innerValue (inner : List InnerSegment) : Bytes := (inner.map InnerSegment.value).flatten

/-- Every candidate has the key of the segments that it spans. -/
def SpansKeys (segs : List Segment) : Prop :=
  ∀ i s, segs[i]? = some s → ∀ c ∈ s.candidates,
    i + c.effectiveConvertedSegmentCount ≤ segs.length ∧
      c.key = keyOf ((segs.drop i).take c.effectiveConvertedSegmentCount)

theorem SpansKeys.drop (h : SpansKeys segs) (n : Nat) : SpansKeys (segs.drop n) := by
  intro i s hs c hc
  rw [List.getElem?_drop] at hs
  obtain ⟨hle, hkey⟩ := h (n + i) s hs c hc
  rw [List.length_drop, List.drop_drop]
  exact ⟨by omega, hkey⟩

/-! ## One segment -/

/-- What another derivation of a candidate leaves of it. -/
def Candidate.unmerged (c : Candidate) : Candidate :=
  { c with
    cost := 0, wcost := 0, attributes := 0, rankingConstraints := 0, innerSegmentBoundary := [] }

namespace Interval

/-- The first segment of an interval, before and after. -/
inductive Placed (iv : Interval) (result : Result) (s : Segment) : Segment → Prop
  /-- The first such candidate goes to the front. -/
  | existing {l₁ l₂ : List Candidate} {c : Candidate} (h : s.candidates = l₁ ++ c :: l₂)
      (hc : iv.isExisting c = true) (hl : ∀ d ∈ l₁, iv.isExisting d = false) :
      Placed iv result s { s with candidates := iv.merge result c :: (l₁ ++ l₂) }
  /-- There is none yet. -/
  | new (h : ∀ d ∈ s.candidates, iv.isExisting d = false) :
      Placed iv result s { s with candidates := iv.newCandidate result :: s.candidates }

variable {iv : Interval} {s s' : Segment}

theorem Placed.kept (h : iv.Placed result s s') :
    (s.candidates.map Candidate.unmerged).Subperm (s'.candidates.map Candidate.unmerged) := by
  cases h with
  | @existing l₁ l₂ c h =>
    rw [h]
    simp only [List.map_append, List.map_cons]
    exact List.perm_middle.subperm
  | new => exact (List.sublist_cons_self _ _).subperm

theorem Placed.head (h : iv.Placed result s s') (hpos : 0 < iv.numSegs)
    (hlt : iv.numSegs < 2 ^ 32) : ∃ c cs, s'.candidates = c :: cs ∧ c.value = iv.combined.value ∧
      c.effectiveConvertedSegmentCount = iv.numSegs ∧
      (c.key = iv.combined.key ∨ ∃ d ∈ s.candidates, c.key = d.key ∧
        d.effectiveConvertedSegmentCount = iv.numSegs) := by
  cases h with
  | @existing l₁ l₂ c h hc =>
    simp only [isExisting, Bool.and_eq_true, decide_eq_true_eq] at hc
    exact ⟨_, _, rfl, hc.1, hc.2, .inr ⟨c, by simp [h], rfl, hc.2⟩⟩
  | new =>
    refine ⟨_, _, rfl, rfl, ?_, .inl rfl⟩
    simp only [newCandidate, Candidate.effectiveConvertedSegmentCount]
    rw [Nat.mod_eq_of_lt hlt]
    omega

end Interval

/-! ## One interval -/

/-- An interval of the segments `before` and of the inner segments, before and after. -/
structure Covered (inner : List InnerSegment) (before after : List Segment) : Prop where
  keys : after.map Segment.key = before.map Segment.key
  types : after.map Segment.segmentType = before.map Segment.segmentType
  tail : after.tail = before.tail
  kept : List.Forall₂ (fun s s' => (s.candidates.map Candidate.unmerged).Subperm
    (s'.candidates.map Candidate.unmerged)) before after
  head : ∃ s c cs, after.head? = some s ∧ s.candidates = c :: cs ∧ c.value = innerValue inner ∧
    c.effectiveConvertedSegmentCount = before.length ∧
    (c.key = keyOf before ∨ c.key = innerKey inner)

theorem Covered.collect {before after : List Segment} (h : Covered inner before after)
    (hkey : keyOf before = innerKey inner) (rest : List Segment) (acc : Collected) :
    ∃ acc' : Collected, collect (after ++ rest) 0 acc = collect rest 0 acc' ∧
      acc'.result.key = acc.result.key ++ innerKey inner ∧
      acc'.result.value = acc.result.value ++ innerValue inner := by
  obtain ⟨s, c, cs, hhead, hs, hvalue, hspan, hc⟩ := h.head
  cases after with
  | nil => simp at hhead
  | cons s' after =>
    obtain rfl : s' = s := by simpa using hhead
    have hlen : before.length = after.length + 1 := by
      simpa using (congrArg List.length h.keys).symm
    refine ⟨acc.add c, collect_span after rest acc hs (by rw [hspan, hlen]), ?_, by simp [hvalue]⟩
    rcases hc with hc | hc <;> simp [hc, hkey]

def repeatedSegment : Segment where
  key := utf8 "a"
  candidates := [{ key := utf8 "a", value := utf8 "x" }]

def whole (n : Nat) : Result where
  key := List.replicate n 97
  value := utf8 "z"

/-- A segment without a key, behind one with a key. -/
def trailing : Segments where
  segments := [repeatedSegment, { candidates := [{ value := utf8 "y" }] }]

end Mozkey.Converter
