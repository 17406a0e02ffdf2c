import Mozkey.Base.Utf8
import Mozkey.Infra.ShortestPath

/-!
# The lattice

`converter/node.h` and `lattice.h`. `SetKey` makes the BOS and the EOS node, and `Insert` a node
more. The links and the cost that Viterbi leaves in a node are kept beside the lattice.
-/

namespace Mozkey.Converter

open Infra Base

inductive NodeType where
  | nor
  | bos
  | eos
  | con
  | his
  deriving DecidableEq

namespace NodeAttribute

def USER_DICTIONARY : UInt32 := (1 : UInt32) <<< 1
def NO_VARIANTS_EXPANSION : UInt32 := (1 : UInt32) <<< 2
def EMOTICON : UInt32 := (1 : UInt32) <<< 3
def STARTS_WITH_PARTICLE : UInt32 := (1 : UInt32) <<< 4
def SPELLING_CORRECTION : UInt32 := (1 : UInt32) <<< 5
def SUFFIX_DICTIONARY : UInt32 := (1 : UInt32) <<< 8
def KEY_EXPANDED : UInt32 := (1 : UInt32) <<< 9

end NodeAttribute

/-- A pointer to a node. The inserted nodes are numbered in the order of insertion. -/
inductive NodeId where
  | bos
  | eos
  | node (i : Nat)
  deriving DecidableEq

structure Node where
  constrainedPrev : Option NodeId := none
  rid : Nat := 0
  lid : Nat := 0
  /-- A `uint16_t`, as `endPos`. -/
  beginPos : Nat := 0
  endPos : Nat := 0
  wcost : Int := 0
  nodeType : NodeType := .nor
  attributes : UInt32 := 0
  key : Bytes := []
  value : Bytes := []
  deriving DecidableEq

namespace Node

def has (n : Node) (flag : UInt32) : Bool := n.attributes &&& flag != 0

/-- Where a node that is inserted at `pos` into a lattice of `size` bytes ends. -/
def stop (n : Node) (size pos : Nat) : Nat := min (n.key.length + pos) size

end Node

/-- `inserted` has the nodes and where they were inserted. -/
structure Lattice where
  key : Bytes := []
  bosId : Nat := 0
  inserted : List (Nat × Node) := []
  inside : ∀ e ∈ inserted, e.1 ≤ key.length := by simp
  placed : ∀ e ∈ inserted, e.2.beginPos = e.1 % 2 ^ 16 ∧
    e.2.endPos = e.2.stop key.length e.1 % 2 ^ 16 := by simp

namespace Lattice

def setKey (key : Bytes) (bosId : Nat) : Lattice := { key, bosId }

def insert (l : Lattice) (pos : Nat) (node : Node) (h : pos ≤ l.key.length) : Lattice :=
  { l with
    inserted := l.inserted ++ [(pos, { node with
      beginPos := pos % 2 ^ 16, endPos := node.stop l.key.length pos % 2 ^ 16 })]
    inside := fun e he => by
      rcases List.mem_append.mp he with he | he
      · exact l.inside e he
      · rw [List.mem_singleton.mp he]
        exact h
    placed := fun e he => by
      rcases List.mem_append.mp he with he | he
      · exact l.placed e he
      · rw [List.mem_singleton.mp he]
        exact ⟨rfl, rfl⟩ }

def bosNode (l : Lattice) : Node where
  rid := l.bosId
  value := utf8 "BOS"
  nodeType := .bos

def eosNode (l : Lattice) : Node where
  value := utf8 "EOS"
  nodeType := .eos
  beginPos := l.key.length % 2 ^ 16
  endPos := l.key.length % 2 ^ 16

/-- What a pointer points to. -/
def node (l : Lattice) : NodeId → Node
  | .bos => l.bosNode
  | .eos => l.eosNode
  | .node i =>
    match l.inserted[i]? with
    | some e => e.2
    | none => {}

def start (l : Lattice) : NodeId → Nat
  | .bos => 0
  | .eos => l.key.length
  | .node i =>
    match l.inserted[i]? with
    | some e => e.1
    | none => 0

def stop (l : Lattice) : NodeId → Nat
  | .bos => 0
  | .eos => l.key.length
  | .node i =>
    match l.inserted[i]? with
    | some e => e.2.stop l.key.length e.1
    | none => 0

/-- The inserted nodes that `p` is true of. -/
def nodesWhere (l : Lattice) (p : Nat × Node → Bool) : List NodeId :=
  (l.inserted.zipIdx.filter fun e => p e.1).map fun e => .node e.2

/-- `begin_nodes_[pos]`, in which the EOS node is the first at the end. -/
def beginNodes (l : Lattice) (pos : Nat) : List NodeId :=
  (if pos = l.key.length then [.eos] else []) ++ l.nodesWhere fun e => e.1 = pos

/-- `end_nodes_[pos]`, in which the BOS node is the first at the start. -/
def endNodes (l : Lattice) (pos : Nat) : List NodeId :=
  (if pos = 0 then [.bos] else []) ++
    l.nodesWhere fun e => e.2.stop l.key.length e.1 = pos

variable {l : Lattice} {v : NodeId} {pos : Nat}

theorem mem_nodesWhere {p : Nat × Node → Bool} :
    v ∈ l.nodesWhere p ↔ ∃ i e, v = .node i ∧ l.inserted[i]? = some e ∧ p e = true := by
  unfold nodesWhere
  simp only [List.mem_map, List.mem_filter]
  constructor
  · rintro ⟨⟨e, i⟩, ⟨hmem, hp⟩, rfl⟩
    exact ⟨i, e, rfl, List.mem_zipIdx_iff_getElem?.mp hmem, hp⟩
  · rintro ⟨i, e, rfl, he, hp⟩
    exact ⟨(e, i), ⟨List.mem_zipIdx_iff_getElem?.mpr he, hp⟩, rfl⟩

/-- The pointers that point to a node. -/
def Has (l : Lattice) : NodeId → Prop
  | .bos => True
  | .eos => True
  | .node i => i < l.inserted.length

theorem mem_beginNodes : v ∈ l.beginNodes pos ↔ l.Has v ∧ v ≠ .bos ∧ l.start v = pos := by
  unfold beginNodes
  rw [List.mem_append, mem_nodesWhere]
  cases v with
  | bos => simp
  | eos =>
    simp only [Has, start, true_and]
    split
    · next h => simp [h]
    · next h => simp [Ne.symm h]
  | node i =>
    simp only [Has, start]
    constructor
    · rintro (h | ⟨j, e, hj, he, hp⟩)
      · split at h <;> simp at h
      · cases hj
        simp only [he]
        exact ⟨(List.getElem?_eq_some_iff.mp he).1, by simp, by simpa using hp⟩
    · rintro ⟨hi, _, hp⟩
      rw [List.getElem?_eq_getElem hi] at hp
      exact .inr ⟨i, _, rfl, List.getElem?_eq_getElem hi, by simpa using hp⟩

theorem mem_endNodes : v ∈ l.endNodes pos ↔ l.Has v ∧ v ≠ .eos ∧ l.stop v = pos := by
  unfold endNodes
  rw [List.mem_append, mem_nodesWhere]
  cases v with
  | bos =>
    simp only [Has, stop, true_and]
    split
    · next h => simp [h]
    · next h => simp [Ne.symm h]
  | eos => simp
  | node i =>
    simp only [Has, stop]
    constructor
    · rintro (h | ⟨j, e, hj, he, hp⟩)
      · split at h <;> simp at h
      · cases hj
        simp only [he]
        exact ⟨(List.getElem?_eq_some_iff.mp he).1, by simp, by simpa using hp⟩
    · rintro ⟨hi, _, hp⟩
      rw [List.getElem?_eq_getElem hi] at hp
      exact .inr ⟨i, _, rfl, List.getElem?_eq_getElem hi, by simpa using hp⟩

end Lattice

/-!
## Viterbi

`ViterbiInternal` and `ImmutableConverter::Viterbi` of `converter/immutable_converter.cc`. The
labels are the fields `prev` and `cost` of the nodes; a new lattice has neither.

`connector` is asked at the BOS and the EOS node, and `conn`, which may give a bonus, in between.
-/

open Infra.ShortestPath

/-- `INT_MAX >> 2` -/
def kVeryBigCost : Int := 536870911

/-- `GetTransitionCost(rid, lid)` -/
abbrev TransitionCost := Nat → Nat → Int

def noLabels : Labels NodeId where
  prev := fun _ => none
  cost := fun _ => 0

namespace Lattice

variable (l : Lattice)

def setPrev (L : Labels NodeId) (v : NodeId) (prev : Option NodeId) : Labels NodeId :=
  { L with prev := Function.update L.prev v prev }

def setLabel (L : Labels NodeId) (v : NodeId) (prev : Option NodeId) (cost : Int) :
    Labels NodeId where
  prev := Function.update L.prev v prev
  cost := Function.update L.cost v cost

/-- The best of the nodes that end where `v` begins. -/
def bestLeft (conn : TransitionCost) (L : Labels NodeId) (v : NodeId) (left : List NodeId) :
    Option NodeId × Int :=
  best kVeryBigCost (fun u => (L.prev u).isSome)
    (fun u => L.cost u + conn (l.node u).rid (l.node v).lid) left

/-- The body of the loop of `ViterbiInternal`. -/
def viterbiNode (conn : TransitionCost) (pos rightBoundary : Nat) (L : Labels NodeId)
    (v : NodeId) : Labels NodeId :=
  let rnode := l.node v
  if rightBoundary < rnode.endPos then setPrev L v none
  else
    match rnode.constrainedPrev with
    | some c =>
      if (L.prev c).isNone then setPrev L v none
      else setLabel L v (some c) (L.cost c + rnode.wcost + conn (l.node c).rid rnode.lid)
    | none =>
      let (bestNode, bestCost) := l.bestLeft conn L v (l.endNodes pos)
      setLabel L v bestNode (bestCost + rnode.wcost)

def viterbiInternal (conn : TransitionCost) (rightBoundary : Nat) (L : Labels NodeId)
    (pos : Nat) : Labels NodeId :=
  (l.beginNodes pos).foldl (l.viterbiNode conn pos rightBoundary) L

def viterbiBosNode (connector : TransitionCost) (rightBoundary : Nat) (L : Labels NodeId)
    (v : NodeId) : Labels NodeId :=
  let rnode := l.node v
  if rightBoundary < rnode.endPos then L
  else setLabel L v (some .bos)
    (L.cost .bos + connector l.bosNode.rid rnode.lid + rnode.wcost)

def viterbiBos (connector : TransitionCost) (rightBoundary : Nat) (L : Labels NodeId) :
    Labels NodeId :=
  (l.beginNodes 0).foldl (l.viterbiBosNode connector rightBoundary) L

/-- The loop over the segments from the second one on. -/
def viterbiSegments (conn : TransitionCost) : Nat → List Bytes → Labels NodeId → Labels NodeId
  | _, [], L => L
  | leftBoundary, key :: keys, L =>
    let rightBoundary := leftBoundary + key.length
    viterbiSegments conn rightBoundary keys
      ((List.range' leftBoundary key.length).foldl (l.viterbiInternal conn rightBoundary) L)

def viterbiEos (connector : TransitionCost) (L : Labels NodeId) : Labels NodeId :=
  let (bestNode, bestCost) := l.bestLeft connector L .eos (l.endNodes l.key.length)
  setLabel L .eos bestNode (bestCost + l.eosNode.wcost)

/-- The labels, for segments with these keys. -/
def viterbiLabels (connector conn : TransitionCost) (keys : List Bytes) : Labels NodeId :=
  let firstKey := keys.headD []
  let L := l.viterbiBos connector firstKey.length noLabels
  let L := (List.range' 1 (firstKey.length - 1)).foldl
    (l.viterbiInternal conn firstKey.length) L
  l.viterbiEos connector (l.viterbiSegments conn firstKey.length (keys.drop 1) L)

/-- What is left of a search: the labels, and the links forwards. -/
structure Traversed where
  success : Bool
  labels : Labels NodeId
  next : NodeId → Option NodeId

/-- Goes back from the EOS node. There are no more steps than nodes unless it goes in circles. -/
def traverse (L : Labels NodeId) : Option Traversed :=
  (linkBack L.prev (l.inserted.length + 2) (fun _ => none) .eos none).map
    fun (next, prev) => ⟨prev = some .bos, L, next⟩

def viterbi (connector conn : TransitionCost) (keys : List Bytes) : Option Traversed :=
  l.traverse (l.viterbiLabels connector conn keys)

end Lattice

end Mozkey.Converter
