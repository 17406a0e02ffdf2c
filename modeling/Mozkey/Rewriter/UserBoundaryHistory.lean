import Mozkey.Converter.RankingConstraints
import Mozkey.Rewriter.SegmentsKey
import Mozkey.Storage.LruStorage

/-!
# `UserBoundaryHistoryRewriter`

`rewriter/user_boundary_history_rewriter.cc`, with an open storage. `storage_.Insert` then never
fails. The calls of it that `Insert` makes are kept in a log beside the storage.
-/

/-!
## What a request says to the history rewriters

The parts of `request/conversion_request.h` that `UserBoundaryHistoryRewriter` and
`UserSegmentHistoryRewriter` read, and the two switches of `rewriter/rewriter_interface.h`.
-/

namespace Mozkey.Rewriter

open Infra Base Converter

/-- `Config::HistoryLearningLevel` -/
inductive HistoryLearningLevel where
  | defaultHistory
  | readOnly
  | noHistory
  deriving DecidableEq

structure RewriterRequest where
  requestType : RequestType := .conversion
  key : Bytes := []
  precedingText : Bytes := []
  incognitoMode : Bool := false
  historyLearningLevel : HistoryLearningLevel := .defaultHistory
  enableUserHistoryForConversion : Bool := true
  skipSlowRewriters : Bool := false
  reversibleExternalLearning : Bool := false
  skipPendingRevertForSuggestionLearning : Bool := false
  mixedConversion : Bool := false
  disableLegacyRewriterMode : UInt32 := 0
  disableLegacyRewriterInAllConversionMode : UInt32 := 0

def kDisableUserBoundaryHistory : UInt32 := 2

namespace RewriterRequest

def disableLegacyRewriterInMixedConversion (request : RewriterRequest) (mode : UInt32) : Bool :=
  request.mixedConversion && request.disableLegacyRewriterMode &&& mode != 0

def disableLegacyRewriter (request : RewriterRequest) (mode : UInt32) : Bool :=
  request.disableLegacyRewriterInAllConversionMode &&& mode != 0

end RewriterRequest

open Storage

def kMaxStoredSegmentLength : Nat := 15
def kMaxKeysSize : Nat := 5

namespace UserBoundaryHistoryRewriter

/-- A `RevertEntry` -/
structure RevertEntry where
  key : Bytes
  previousValue : Option LengthArray

/-- `ResizeSegmentsRequest` -/
structure ResizeSegmentsRequest where
  segmentIndex : Nat
  segmentSizes : List UInt8
  deriving DecidableEq

end UserBoundaryHistoryRewriter

open UserBoundaryHistoryRewriter

structure UserBoundaryHistoryRewriter where
  storage : LruStorage LengthArray
  revertCache : RecencyMap Nat (List RevertEntry)

namespace UserBoundaryHistoryRewriter

/-! ## Learning -/

/-- The spans among `n` segments in the order of the two loops: where each begins, and how many
segments it has. -/
def spansFrom (n segIdx : Nat) : List (Nat × Nat) :=
  (List.range (min (n - segIdx) kMaxKeysSize)).reverse.map fun i => (segIdx, i + 1)

def spans (n : Nat) : List (Nat × Nat) := (List.range n).flatMap (spansFrom n)

/-- A call of `storage_.Insert`, and the span it was made for. -/
structure Write where
  span : Nat × Nat
  key : Bytes
  lengths : LengthArray

/-- The state of `Insert`. -/
structure Learning where
  storage : LruStorage LengthArray
  revertEntries : List RevertEntry := []
  log : List Write := []

/-- `storage_.Insert` for a span. -/
def Learning.store (st : Learning) (k : SegmentsKey) (span : Nat × Nat) : Learning :=
  let key := k.getKey span.1 span.2
  let lengths := k.getLengthArray span.1 span.2
  { st with storage := st.storage.insert key lengths, log := st.log ++ [⟨span, key, lengths⟩] }

/-- `revert_entries->push_back` -/
def Learning.remember (st : Learning) (key : Bytes) (previousValue : Option LengthArray) :
    Learning :=
  { st with revertEntries := st.revertEntries ++ [⟨key, previousValue⟩] }

/-- A round of the inner loop. -/
def insertSpan (reversible : Bool) (k : SegmentsKey) (st : Learning) (span : Nat × Nat) :
    Learning :=
  if reversible then
    let key := k.getKey span.1 span.2
    match st.storage.lookup key with
    | none =>
      if st.storage.size ≤ st.storage.usedSize then st
      else (st.remember key none).store k span
    | some previousValue => (st.remember key (some previousValue)).store k span
  else st.store k span

/-- `target_segments_size`. All `FIXED_VALUE` segments are counted, wherever they are. -/
def targetSegmentsSize (segments : Segments) : Nat :=
  segments.conversionSegments.countP fun s => s.segmentType = .fixedValue

def tooLong (segments : Segments) : Bool :=
  segments.conversionSegments.any fun s =>
    s.segmentType = .fixedValue && kMaxStoredSegmentLength < s.keyLen

def insert (storage : LruStorage LengthArray) (segments : Segments) (reversible : Bool) :
    Learning :=
  let n := targetSegmentsSize segments
  if n = 0 then { storage }
  else if tooLong segments then { storage }
  else match SegmentsKey.create segments with
    | none => { storage }
    | some k => (spans n).foldl (insertSpan reversible k) { storage }

/-- The conditions under which `Finish` learns. -/
def canLearn (request : RewriterRequest) (segments : Segments) : Bool :=
  request.requestType = .conversion && !request.incognitoMode &&
    request.historyLearningLevel = .defaultHistory && request.enableUserHistoryForConversion &&
    segments.resized && !(request.reversibleExternalLearning && segments.revertId = 0)

/-- What `Finish` makes of the storage. -/
def learn (rw : UserBoundaryHistoryRewriter) (request : RewriterRequest) (segments : Segments) :
    Learning :=
  if canLearn request segments then
    insert rw.storage segments request.reversibleExternalLearning
  else { storage := rw.storage }

def finish (rw : UserBoundaryHistoryRewriter) (request : RewriterRequest) (segments : Segments) :
    UserBoundaryHistoryRewriter :=
  let learning := learn rw request segments
  if request.reversibleExternalLearning && !learning.revertEntries.isEmpty then
    { storage := learning.storage
      revertCache := rw.revertCache.insert segments.revertId learning.revertEntries }
  else { rw with storage := learning.storage }

/-! ## Undoing -/

def restore (storage : LruStorage LengthArray) (e : RevertEntry) : LruStorage LengthArray :=
  match e.previousValue with
  | some value => storage.insert e.key value
  | none => storage.delete e.key

def revert (rw : UserBoundaryHistoryRewriter) (segments : Segments) :
    UserBoundaryHistoryRewriter :=
  if segments.revertId = 0 then rw
  else match rw.revertCache.get? segments.revertId with
    | none => rw
    | some entries =>
      { storage := entries.reverse.foldl restore rw.storage
        revertCache := rw.revertCache.erase segments.revertId }

def discardRevert (rw : UserBoundaryHistoryRewriter) (segments : Segments) :
    UserBoundaryHistoryRewriter :=
  if segments.revertId = 0 then rw
  else { rw with revertCache := rw.revertCache.erase segments.revertId }

/-! ## Looking up -/

/-- What the loops find for a span. -/
inductive Found where
  | nothing
  | same
  | other (value : LengthArray)

def lookupSpan (storage : LruStorage LengthArray) (k : SegmentsKey) (segIdx segSize : Nat) :
    Found :=
  match storage.lookup (k.getKey segIdx segSize) with
  | none => .nothing
  | some value => if value = k.getLengthArray segIdx segSize then .same else .other value

/-- The inner loop from `segSize` down: the request, or the number of segments to skip. -/
def checkFrom (storage : LruStorage LengthArray) (k : SegmentsKey) (segIdx : Nat) :
    Nat → ResizeSegmentsRequest ⊕ Nat
  | 0 => .inr 1
  | segSize + 1 =>
    match lookupSpan storage k segIdx (segSize + 1) with
    | .nothing => checkFrom storage k segIdx segSize
    | .same => .inr (segSize + 1)
    | .other value => .inl ⟨segIdx, value.toUint8Array⟩

/-- The outer loop. `left` segments are left, and the next `skip` of them are passed over. -/
def checkLoop (storage : LruStorage LengthArray) (k : SegmentsKey) (total : Nat) :
    Nat → Nat → Option ResizeSegmentsRequest
  | 0, _ => none
  | left + 1, skip + 1 => checkLoop storage k total left skip
  | left + 1, 0 =>
    match checkFrom storage k (total - (left + 1)) (min (left + 1) kMaxKeysSize) with
    | .inl request => some request
    | .inr skipped => checkLoop storage k total left (skipped - 1)

/-- The conditions under which the history is looked up. -/
def canLookup (request : RewriterRequest) (segments : Segments) : Bool :=
  !segments.resized && !request.incognitoMode && request.historyLearningLevel ≠ .noHistory &&
    request.enableUserHistoryForConversion && !request.skipSlowRewriters &&
    !(request.disableLegacyRewriterInMixedConversion kDisableUserBoundaryHistory ||
      request.disableLegacyRewriter kDisableUserBoundaryHistory)

def checkResizeSegmentsRequest (rw : UserBoundaryHistoryRewriter) (request : RewriterRequest)
    (segments : Segments) : Option ResizeSegmentsRequest :=
  if canLookup request segments then
    match SegmentsKey.create segments with
    | none => none
    | some k =>
      checkLoop rw.storage k segments.conversionSegmentsSize segments.conversionSegmentsSize 0
  else none

end UserBoundaryHistoryRewriter

end Mozkey.Rewriter
