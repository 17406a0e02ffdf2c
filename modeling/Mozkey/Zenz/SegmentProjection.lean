import Mozkey.Base.ScriptType
import Mozkey.Infra.Find

/-!
# Projecting an output onto Mozc's segments

`session/zenz_segment_projection.cc`. Segments whose value occurs exactly once in the output
are anchors, and what is between two anchors is projected onto the segments between them.

A projection that fails has no segments, so `projectZenzValueToMozcSegments` gives an option.
-/

namespace Mozkey.Zenz

open Infra Base

structure ZenzBaselineSegment where
  key : Bytes
  value : Bytes
deriving DecidableEq

structure ZenzProjectedSegment where
  key : Bytes
  mozcValue : Bytes
  zenzValue : Bytes
  changed : Bool := false
  boundaryKnown : Bool := true
  /-- The keys of an aggregate with unknown internal boundaries. -/
  baselineKeys : List Bytes := []
deriving DecidableEq

namespace SegmentProjection

/-! ## Separators -/

def isAsciiPunctuationKeyChar (text : Bytes) : Bool :=
  match text with
  | [c] => inRange c.toNat 0x21 0x2F || inRange c.toNat 0x3A 0x40 || inRange c.toNat 0x5B 0x60 ||
      inRange c.toNat 0x7B 0x7E
  | _ => false

/-- Only an unchanged symbol can separate. -/
def isPeelableUnchangedSeparator (keyChar mozcChar zenzChar : Bytes) : Bool :=
  if !isAsciiPunctuationKeyChar keyChar || mozcChar != zenzChar || charsLen mozcChar != 1 then false
  else getScriptTypeOfString mozcChar = .unknownScript

/-! ## Keys -/

def isFullWidthAsciiPunctuation (c : Nat) : Bool :=
  inRange c 0xFF01 0xFF0F || inRange c 0xFF1A 0xFF20 || inRange c 0xFF3B 0xFF40 ||
    inRange c 0xFF5B 0xFF5E

def normalizeProjectionPunctuationKey (key : Bytes) : Bytes :=
  (utf8ToUtf32 key).flatMap fun c =>
    codepointToUtf8
      (if isFullWidthAsciiPunctuation c then c - 0xFEE0
      -- WAVE DASH
      else if c = 0x301C then (byte '~').toNat
      else c)

def reconcileZenzBaselineKeysForRequest (baselineSegments : List ZenzBaselineSegment)
    (fullKey : Bytes) : Option (List ZenzBaselineSegment) :=
  if baselineSegments.isEmpty || fullKey.isEmpty then none
  else if baselineSegments.any fun s => s.key.isEmpty || s.value.isEmpty then none
  else if baselineSegments.flatMap (·.key) = fullKey then some baselineSegments
  else
    let normalized := baselineSegments.map fun s =>
      { s with key := normalizeProjectionPunctuationKey s.key }
    if normalized.flatMap (·.key) = fullKey then some normalized else none

/-! ## One segment -/

/-- What is left of a segment between its separators. -/
structure LexicalUnit where
  key : Bytes
  mozcValue : Bytes
  acceptedValue : Bytes
deriving DecidableEq

def LexicalUnit.isExhausted (u : LexicalUnit) : Bool :=
  u.key.isEmpty || u.mozcValue.isEmpty || u.acceptedValue.isEmpty

/-- Peel separators off the front. A key character that is peeled is one byte, so the length of
the key is enough fuel. -/
def peelLeading : Nat → LexicalUnit → List ZenzProjectedSegment × LexicalUnit
  | 0, u => ([], u)
  | n + 1, u =>
    if u.isExhausted then ([], u)
    else
      let keyChar := utf8SubString u.key 0 1
      let mozcChar := utf8SubString u.mozcValue 0 1
      let acceptedChar := utf8SubString u.acceptedValue 0 1
      if !isPeelableUnchangedSeparator keyChar mozcChar acceptedChar then ([], u)
      else
        let rest := peelLeading n
          ⟨u.key.drop keyChar.length, u.mozcValue.drop mozcChar.length,
            u.acceptedValue.drop acceptedChar.length⟩
        ({ key := keyChar, mozcValue := mozcChar, zenzValue := acceptedChar } :: rest.1, rest.2)

/-- The last character. -/
def lastUtf8Char (s : Bytes) : Bytes := utf8SubString s (charsLen s - 1) 1

def removeSuffix (s : Bytes) (n : Nat) : Bytes := s.take (s.length - n)

/-- Peel separators off the end, which come out in the order of the text. -/
def peelTrailing : Nat → LexicalUnit → LexicalUnit × List ZenzProjectedSegment
  | 0, u => (u, [])
  | n + 1, u =>
    if u.isExhausted then (u, [])
    else
      let keyChar := lastUtf8Char u.key
      let mozcChar := lastUtf8Char u.mozcValue
      let acceptedChar := lastUtf8Char u.acceptedValue
      if !isPeelableUnchangedSeparator keyChar mozcChar acceptedChar then (u, [])
      else
        let rest := peelTrailing n
          ⟨removeSuffix u.key keyChar.length, removeSuffix u.mozcValue mozcChar.length,
            removeSuffix u.acceptedValue acceptedChar.length⟩
        (rest.1, rest.2 ++
          [{ key := keyChar, mozcValue := mozcChar, zenzValue := acceptedChar }])

def appendBaselineSegment (baseline : ZenzBaselineSegment) (zenzValue : Bytes) :
    Option (List ZenzProjectedSegment) :=
  if zenzValue.isEmpty then none
  else if zenzValue = baseline.value then
    some [{ key := baseline.key, mozcValue := baseline.value, zenzValue := zenzValue }]
  else
    let front := peelLeading baseline.key.length ⟨baseline.key, baseline.value, zenzValue⟩
    let back := peelTrailing front.2.key.length front.2
    let core := back.1
    let peeled := !front.1.isEmpty || !back.2.isEmpty
    if !peeled || core.isExhausted then
      some [{ key := baseline.key, mozcValue := baseline.value, zenzValue := zenzValue,
              changed := true }]
    else
      some (front.1 ++
        [{ key := core.key, mozcValue := core.mozcValue, zenzValue := core.acceptedValue,
           changed := core.acceptedValue != core.mozcValue }] ++ back.2)

/-! ## Gaps and anchors -/

/-- Several segments whose inner boundaries are not known stay one unit. -/
def appendGap (gap : List ZenzBaselineSegment) (zenzValue : Bytes) :
    Option (List ZenzProjectedSegment) :=
  match gap with
  | [] => if zenzValue.isEmpty then some [] else none
  | [segment] => if zenzValue.isEmpty then none else appendBaselineSegment segment zenzValue
  | _ =>
    if zenzValue.isEmpty then none
    else if gap.flatMap (·.value) = zenzValue then
      (gap.mapM fun segment => appendBaselineSegment segment segment.value).map List.flatten
    else
      some [{ key := gap.flatMap (·.key), mozcValue := gap.flatMap (·.value),
              zenzValue := zenzValue, changed := true, boundaryKnown := false,
              baselineKeys := gap.map (·.key) }]

/-- The segment at `index`, and where its value is in the output. -/
structure Anchor where
  index : Nat
  segment : ZenzBaselineSegment
  beginPos : Nat
  endPos : Nat
deriving DecidableEq

def anchorOf (fullValue : Bytes) (segment : ZenzBaselineSegment) (index : Nat) : Option Anchor :=
  if countOccurrences fullValue segment.value ≠ 1 then none
  else
    (find segment.value fullValue 0).map fun beginPos =>
      ⟨index, segment, beginPos, beginPos + segment.value.length⟩

def anchors (fullValue : Bytes) (segments : List ZenzBaselineSegment) : List Anchor :=
  segments.zipIdx.filterMap fun (segment, index) => anchorOf fullValue segment index

/-- No anchor begins before the one before it has ended. -/
def anchorsInOrder : Nat → List Anchor → Bool
  | _, [] => true
  | previousAnchorEnd, anchor :: rest =>
    previousAnchorEnd ≤ anchor.beginPos && anchorsInOrder anchor.endPos rest

/-- The gap before each anchor and its segment, then the last gap. `first` is the segment after
the last anchor. -/
def appendAnchored (segments : List ZenzBaselineSegment) (fullValue : Bytes) :
    Nat → Nat → List Anchor → Option (List ZenzProjectedSegment)
  | first, leftValueEnd, [] => appendGap (segments.drop first) (fullValue.drop leftValueEnd)
  | first, leftValueEnd, anchor :: rest => do
    let gap ← appendGap ((segments.drop first).take (anchor.index - first))
      ((fullValue.drop leftValueEnd).take (anchor.beginPos - leftValueEnd))
    let segment ← appendBaselineSegment anchor.segment anchor.segment.value
    let tail ← appendAnchored segments fullValue (anchor.index + 1) anchor.endPos rest
    return gap ++ segment ++ tail

/-- The segments give back the key and the output. -/
def reconstructs (segments : List ZenzProjectedSegment) (fullKey fullValue : Bytes) : Bool :=
  segments.all (fun s => !s.key.isEmpty && !s.zenzValue.isEmpty) &&
    segments.flatMap (·.key) == fullKey && segments.flatMap (·.zenzValue) == fullValue

end SegmentProjection

open SegmentProjection

def projectZenzValueToMozcSegments (baselineSegments : List ZenzBaselineSegment)
    (fullKey fullValue : Bytes) : Option (List ZenzProjectedSegment) :=
  if baselineSegments.isEmpty || fullKey.isEmpty || fullValue.isEmpty then none
  else do
    let segments ← reconcileZenzBaselineKeysForRequest baselineSegments fullKey
    let anchors := anchors fullValue segments
    if !anchorsInOrder 0 anchors then none
    else
      let projected ← appendAnchored segments fullValue 0 0 anchors
      if reconstructs projected fullKey fullValue then some projected else none

/-- What a projection went through. -/
theorem project_some {baselineSegments : List ZenzBaselineSegment} {fullKey fullValue : Bytes}
    {projected : List ZenzProjectedSegment}
    (h : projectZenzValueToMozcSegments baselineSegments fullKey fullValue = some projected) :
    ∃ segments, reconcileZenzBaselineKeysForRequest baselineSegments fullKey = some segments ∧
      appendAnchored segments fullValue 0 0 (anchors fullValue segments) = some projected ∧
      reconstructs projected fullKey fullValue = true := by
  unfold projectZenzValueToMozcSegments at h
  split at h
  · cases h
  · obtain ⟨segments, hrec, h⟩ := Option.bind_eq_some_iff.mp h
    dsimp only at h
    split at h
    · cases h
    · obtain ⟨p, hp, h⟩ := Option.bind_eq_some_iff.mp h
      split at h
      · next hr =>
        cases h
        exact ⟨segments, hrec, hp, hr⟩
      · cases h

/-- A projection gives back the output. -/
theorem project_zenzValue {baselineSegments : List ZenzBaselineSegment} {fullKey fullValue : Bytes}
    {projected : List ZenzProjectedSegment}
    (h : projectZenzValueToMozcSegments baselineSegments fullKey fullValue = some projected) :
    projected.flatMap (·.zenzValue) = fullValue := by
  obtain ⟨segments, -, -, hr⟩ := project_some h
  rw [reconstructs, Bool.and_eq_true, Bool.and_eq_true] at hr
  exact eq_of_beq hr.2

end Mozkey.Zenz
