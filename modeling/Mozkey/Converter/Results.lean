import Mozkey.Converter.InnerSegments
import Mozkey.Converter.Segments

/-!
# Results from segments

`ConversionSegmentsToResult` and its kin, of `converter/converter_util.cc`.
-/

namespace Mozkey.Converter

open Infra Base

/-- `prediction::Result` -/
structure Result where
  key : Bytes := []
  value : Bytes := []
  attributes : UInt32 := 0
  rankingConstraints : UInt8 := RankingConstraint.NONE
  wcost : Int := 0
  cost : Int := 0
  lid : Nat := 0
  rid : Nat := 0
  innerSegmentBoundary : List UInt32 := []
  innerSegmentRankingConstraints : List UInt8 := []
  consumedKeySize : Nat := 0
  deriving DecidableEq

def Result.innerSegments (r : Result) : List InnerSegment :=
  Converter.innerSegments r.key r.value r.innerSegmentBoundary

def Candidate.innerSegments (c : Candidate) : List InnerSegment :=
  innerSegmentsWithContent c.key c.value c.contentKey c.contentValue c.innerSegmentBoundary

/-! ## Conversion segments -/

/-- The locals of `ConversionSegmentsToResult`. -/
structure Collected where
  result : Result := {}
  builder : InnerSegmentBoundaryBuilder := {}

def Collected.add (acc : Collected) (c : Candidate) : Collected where
  result := { acc.result with
    key := acc.result.key ++ c.key
    value := acc.result.value ++ c.value
    attributes := acc.result.attributes ||| c.attributes
    rankingConstraints := acc.result.rankingConstraints ||| c.rankingConstraints
    wcost := acc.result.wcost + c.wcost
    cost := acc.result.cost + c.cost
    innerSegmentRankingConstraints := acc.result.innerSegmentRankingConstraints ++
      c.innerSegments.map fun _ => c.rankingConstraints
    rid := c.rid }
  builder := c.innerSegments.foldl .addSegment acc.builder

/-- The loop, with `skip` segments still covered by the last candidate. -/
def collect : List Segment → Nat → Collected → Option Collected
  | [], _, acc => some acc
  | _ :: segments, skip + 1, acc => collect segments skip acc
  | s :: segments, 0, acc =>
    match s.candidates with
    | [] => none
    | c :: _ => collect segments (c.effectiveConvertedSegmentCount - 1) (acc.add c)

def firstLid (segments : List Segment) : Nat :=
  match segments with
  | { candidates := c :: _, .. } :: _ => c.lid
  | _ => 0

def conversionSegmentsToResult (segments : List Segment) : Option Result :=
  match segments with
  | [] => none
  | _ :: _ =>
    (collect segments 0 {}).map fun acc => { acc.result with
      innerSegmentBoundary := acc.builder.build acc.result.key acc.result.value
      lid := firstLid segments }

/-! ## One candidate -/

def candidateToResult (c : Candidate) : Result :=
  let boundary :=
    if c.innerSegmentBoundary.isEmpty then
      (({} : InnerSegmentBoundaryBuilder).add c.key.length c.value.length c.contentKey.length
        c.contentValue.length).build c.key c.value
    else c.innerSegmentBoundary
  { key := c.key
    value := c.value
    lid := c.lid
    rid := c.rid
    wcost := c.wcost
    cost := c.cost
    attributes := c.attributes
    rankingConstraints := c.rankingConstraints
    consumedKeySize := c.consumedKeySize
    innerSegmentBoundary := boundary
    innerSegmentRankingConstraints :=
      if boundary.length = 1 then [c.rankingConstraints] else [] }

/-- `max_results` is looked at behind each result, so one of them is always there. -/
def conversionSegmentsToResults (segments : Segments) (maxResults : Nat) : List Result :=
  match segments.conversionSegments with
  | [] => []
  | [s] => (s.candidates.take (max 1 maxResults)).map candidateToResult
  | s :: s' :: rest => (conversionSegmentsToResult (s :: s' :: rest)).toList

/-! ## History segments -/

def historySegmentsToResultFrom : List Segment → Collected → Option Collected
  | [], acc => some acc
  | s :: segments, acc =>
    match s.candidates with
    | [] => none
    | c :: _ => historySegmentsToResultFrom segments
      { result := { acc.result with
          key := acc.result.key ++ c.key
          value := acc.result.value ++ c.value
          attributes := acc.result.attributes ||| c.attributes
          rankingConstraints := acc.result.rankingConstraints ||| c.rankingConstraints
          innerSegmentRankingConstraints :=
            acc.result.innerSegmentRankingConstraints ++ [c.rankingConstraints]
          rid := c.rid
          cost := c.cost }
        builder := acc.builder.add c.key.length c.value.length c.contentKey.length
          c.contentValue.length }

def historySegmentsToResult (segments : List Segment) : Result :=
  match historySegmentsToResultFrom segments {} with
  | none => {}
  | some acc =>
    if segments.isEmpty then {}
    else { acc.result with
      innerSegmentBoundary := acc.builder.build acc.result.key acc.result.value
      lid := firstLid segments }

/-! ## What the loop collects -/

@[simp] theorem Collected.add_key (acc : Collected) (c : Candidate) :
    (acc.add c).result.key = acc.result.key ++ c.key := rfl

@[simp] theorem Collected.add_value (acc : Collected) (c : Candidate) :
    (acc.add c).result.value = acc.result.value ++ c.value := rfl

theorem collect_skip (segments rest : List Segment) (acc : Collected) :
    collect (segments ++ rest) segments.length acc = collect rest 0 acc := by
  induction segments with
  | nil => rfl
  | cons s segments ih => exact ih

/-- A candidate that covers all of `s :: segments`. -/
theorem collect_span {s : Segment} {c : Candidate} {cs : List Candidate}
    (segments rest : List Segment) (acc : Collected) (hs : s.candidates = c :: cs)
    (hspan : c.effectiveConvertedSegmentCount = segments.length + 1) :
    collect (s :: segments ++ rest) 0 acc = collect rest 0 (acc.add c) := by
  rw [List.cons_append, collect]
  simpa [hs, hspan] using collect_skip ..

end Mozkey.Converter
