import Mozkey.Composer.CharChunk

/-!
# Compositions

`composer/composition.cc`. A composition is a list of chunks, and what is typed is inserted at a
position of the displayed text, where it can be deleted again. An iterator into the list is a pair
of lists, what is in front of it and what begins with it.
-/

namespace Mozkey.Composer

open Infra Base

structure Composition where
  table : SharedTable
  inputT12r : Transliterator := .conversionString
  chunks : List CharChunk := []

namespace Composition

/-! ## Positions -/

def lengthOf (forms : CharacterForms) (t12r : Transliterator) (chunks : List CharChunk) : Nat :=
  (chunks.map fun c => c.getLength forms t12r).sum

def textOf (forms : CharacterForms) (chunks : List CharChunk) : Bytes :=
  chunks.flatMap fun c => c.result forms .localT12r

def getString (forms : CharacterForms) (comp : Composition) : Bytes := textOf forms comp.chunks

def getLength (forms : CharacterForms) (comp : Composition) : Nat :=
  lengthOf forms .localT12r comp.chunks

/-- A chunk with what is on either side of it, and a position in it. -/
structure ChunkAt where
  left : List CharChunk
  chunk : CharChunk
  right : List CharChunk
  innerPosition : Nat

/-- The first chunk that ends at the position or behind it, or else the last one. -/
def getChunkFrom (forms : CharacterForms) (t12r : Transliterator) :
    List CharChunk → List CharChunk → Nat → Option ChunkAt
  | _, [], _ => none
  | left, [chunk], position => some ⟨left, chunk, [], min position (chunk.getLength forms t12r)⟩
  | left, chunk :: right, position =>
    let chunkLength := chunk.getLength forms t12r
    if chunkLength < position then
      getChunkFrom forms t12r (left ++ [chunk]) right (position - chunkLength)
    else some ⟨left, chunk, right, position⟩

def getChunkAt (forms : CharacterForms) (chunks : List CharChunk) (position : Nat)
    (t12r : Transliterator) : Option ChunkAt :=
  getChunkFrom forms t12r [] chunks position

theorem getChunkFrom_chunks {forms : CharacterForms} {t12r : Transliterator} {found : ChunkAt} :
    ∀ {chunks left : List CharChunk} {position : Nat},
    getChunkFrom forms t12r left chunks position = some found →
      found.left ++ found.chunk :: found.right = left ++ chunks
  | [], _, _, h => by cases h
  | [chunk], left, position, h => by
    rw [getChunkFrom] at h
    rw [← Option.some.inj h]
  | chunk :: next :: right, left, position, h => by
    rw [getChunkFrom] at h
    · split at h
      · simp [getChunkFrom_chunks h]
      · rw [← Option.some.inj h]
    · nofun

theorem getChunkAt_chunks {forms : CharacterForms} {chunks : List CharChunk} {position : Nat}
    {t12r : Transliterator} {found : ChunkAt}
    (h : getChunkAt forms chunks position t12r = some found) :
    found.left ++ found.chunk :: found.right = chunks := getChunkFrom_chunks h

/-- The chunks on the left and on the right of the position, of which one may have been split. -/
def maybeSplitChunkAt (forms : CharacterForms) (chunks : List CharChunk) (position : Nat) :
    List CharChunk × List CharChunk :=
  match getChunkAt forms chunks position .localT12r with
  | none => ([], [])
  | some found =>
    if found.left.isEmpty && found.innerPosition = 0 then ([], chunks)
    else if found.innerPosition = found.chunk.getLength forms .localT12r then
      (found.left ++ [found.chunk], found.right)
    else
      match found.chunk.splitChunk forms .localT12r found.innerPosition with
      | some (leftChunk, chunk) => (found.left ++ [leftChunk], chunk :: found.right)
      | none => (found.left, found.chunk :: found.right)

/-! ## Inserting -/

def newChunk (comp : Composition) : CharChunk where
  transliterator := comp.inputT12r
  table := comp.table

/-- The chunk that takes the input, and what is in front of it. -/
def getInsertionChunk (comp : Composition) (left : List CharChunk) : List CharChunk × CharChunk :=
  match left.getLast? with
  | none => ([], comp.newChunk)
  | some last =>
    if last.isAppendable comp.inputT12r comp.table then (left.dropLast, last)
    else (left, comp.newChunk)

/-- The chunks in front, the nearest one first. -/
def combineFrom (comp : Composition) (nextInput : Bytes) :
    List CharChunk → CharChunk → List CharChunk × CharChunk
  | [], it => ([], it)
  | leftIt :: rest, it =>
    if leftIt.isConvertible comp.inputT12r comp.table (it.pending ++ nextInput) then
      combineFrom comp nextInput rest (it.combine leftIt)
    else (leftIt :: rest, it)

def combinePendingChunks (comp : Composition) (left : List CharChunk) (it : CharChunk)
    (input : CompositionInput) : List CharChunk × CharChunk :=
  if input.isAsis then (left, it)
  else
    let nextInput := if input.conversion.isEmpty then input.raw else input.conversion
    let (rest, it) := combineFrom comp nextInput left.reverse it
    (rest.reverse, it)

/-- The chunks in front, the chunk that takes the input, and the input. -/
structure Insertion where
  left : List CharChunk
  chunk : CharChunk
  input : CompositionInput

/-- One round of the loop of `InsertInput`. What a chunk does not take goes into a new one. The last
chunk is removed when it is empty. -/
def insertStep (fuel : Nat) (comp : Composition) (s : Insertion) :
    Insertion ⊕ Except Failure (List CharChunk) :=
  match s.chunk.addCompositionInput fuel s.input with
  | .error failure => .inr (.error failure)
  | .ok (chunk, input) =>
    if input.isEmpty then .inr (.ok (if chunk.isEmpty then s.left else s.left ++ [chunk]))
    else .inl ⟨s.left ++ [chunk], comp.newChunk, { input with isNewInput := false }⟩

/-- Where the loop of `InsertInput` begins, and the chunks behind. -/
def insertionAt (forms : CharacterForms) (comp : Composition) (pos : Nat)
    (input : CompositionInput) : Insertion × List CharChunk :=
  let (left, right) := maybeSplitChunkAt forms comp.chunks pos
  let isInvisible := fun c : CharChunk => c.getLength forms comp.inputT12r = 0
  let (left, chunk) := comp.getInsertionChunk (left ++ right.takeWhile isInvisible)
  let (left, chunk) := comp.combinePendingChunks left chunk input
  (⟨left, chunk, input⟩, right.dropWhile isInvisible)

/-- The composition and the new position. -/
def insertInput (forms : CharacterForms) (fuel : Nat) (comp : Composition) (pos : Nat)
    (input : CompositionInput) : Except Failure (Composition × Nat) :=
  if input.isEmpty then .ok (comp, pos)
  else
    let (start, right) := comp.insertionAt forms pos input
    match run (comp.insertStep fuel) fuel start with
    | none => .error .fuel
    | some (.error failure) => .error failure
    | some (.ok left) =>
      .ok ({ comp with chunks := left ++ right }, lengthOf forms .localT12r left)

/-! ## Deleting -/

/-- One round of the loop of `DeleteAt`: the chunks and the new position. A chunk of one character
or none is removed, and the first character of another one is split off. -/
def deleteStep (forms : CharacterForms) (originalSize position : Nat)
    (s : List CharChunk × Nat) : (List CharChunk × Nat) ⊕ (List CharChunk × Nat) :=
  let (chunks, _) := s
  if chunks.isEmpty || lengthOf forms .localT12r chunks ≠ originalSize then .inr s
  else
    let (left, right) := maybeSplitChunkAt forms chunks position
    let newPosition := lengthOf forms .localT12r left
    match right with
    | [] => .inr (left, newPosition)
    | chunk :: rest =>
      if chunk.getLength forms .localT12r ≤ 1 then .inl (left ++ rest, newPosition)
      else
        match chunk.splitChunk forms .localT12r 1 with
        | some (_, chunk) => .inl (left ++ chunk :: rest, newPosition)
        | none => .inl (left ++ chunk :: rest, newPosition)

/-- The composition and the new position, when the fuel is enough. -/
def deleteAt (forms : CharacterForms) (fuel : Nat) (comp : Composition) (position : Nat) :
    Option (Composition × Nat) :=
  (run (deleteStep forms (comp.getLength forms) position) fuel (comp.chunks, position)).map
    fun s => ({ comp with chunks := s.1 }, s.2)

def setInputMode (comp : Composition) (t12r : Transliterator) : Composition :=
  { comp with inputT12r := t12r }

end Composition

end Mozkey.Composer
