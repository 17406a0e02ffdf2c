import Mozkey.Converter.Segments
import Mozkey.Converter.Lattice

/-!
# Candidates from the lattice

`converter/nbest_generator.h` and `nbest_generator.cc`, and `IsBoundary` of `segmenter.cc`. The
search goes backwards: an element of the agenda is a path from a node on its left to a node behind
the segment. The filter is given; so is what the heap does with elements that cost the same.

The inner segments and the proper nouns of a candidate are left out.
-/

namespace Mozkey.Converter

open Infra Base Infra.ShortestPath

/-! ## Boundaries -/

structure Segmenter where
  /-- `IsBoundary(rid, lid)` -/
  isBoundaryIds : Nat → Nat → Bool

def Segmenter.isBoundary (s : Segmenter) (lnode rnode : Node) (isSingleSegment : Bool) : Bool :=
  if lnode.nodeType = .bos ∨ rnode.nodeType = .eos then true
  else if isSingleSegment then false
  else if lnode.has NodeAttribute.STARTS_WITH_PARTICLE then false
  else s.isBoundaryIds lnode.rid rnode.lid

def asciiIsalpha (b : UInt8) : Bool := (65 ≤ b && b ≤ 90) || (97 ≤ b && b ≤ 122)

def isBetweenAlphabetKeys (left right : Node) : Bool :=
  left.key.getLast?.any asciiIsalpha && right.key.head?.any asciiIsalpha

inductive BoundaryCheckMode where
  | strict
  | onlyMid
  | onlyEdge
  deriving DecidableEq

inductive BoundaryCheckResult where
  | valid
  | validWeakConnected
  | invalid
  deriving DecidableEq

namespace Segmenter

variable (s : Segmenter) (lnode rnode : Node) (isEdge : Bool)

def checkOnlyMid : BoundaryCheckResult :=
  let isBoundary := lnode.nodeType = .his || s.isBoundary lnode rnode false
  if !isEdge && isBoundary then .invalid
  else if isEdge && !isBoundary then .validWeakConnected
  else .valid

def checkOnlyEdge : BoundaryCheckResult :=
  let isBoundary := lnode.nodeType = .his || s.isBoundary lnode rnode true
  if isEdge ≠ isBoundary then .invalid else .valid

def checkStrict : BoundaryCheckResult :=
  let isBoundary := lnode.nodeType = .his || s.isBoundary lnode rnode false
  if isEdge ≠ isBoundary then .invalid else .valid

def boundaryCheck (mode : BoundaryCheckMode) : BoundaryCheckResult :=
  if rnode.nodeType = .con ∨ lnode.nodeType = .con then .valid
  else if !isEdge && isBetweenAlphabetKeys lnode rnode then .invalid
  else
    match mode with
    | .strict => s.checkStrict lnode rnode isEdge
    | .onlyMid => s.checkOnlyMid lnode rnode isEdge
    | .onlyEdge => s.checkOnlyEdge lnode rnode isEdge

end Segmenter

/-! ## The agenda -/

/-- A heap in a vector, with the least on top. What is put in or taken out may leave the rest in
any order. -/
structure Heap (α : Type) (key : α → Int) where
  push : List α → α → List α
  pop : List α → Option (α × List α)
  push_perm : ∀ q a, (push q a).Perm (a :: q)
  pop_perm : ∀ q a q', pop q = some (a, q') → q.Perm (a :: q')
  pop_least : ∀ q a q', pop q = some (a, q') → ∀ b ∈ q, key a ≤ key b
  pop_none : ∀ q, pop q = none → q = []

namespace Heap

variable {α : Type} {key : α → Int}

/-- Takes out the first of the least. -/
def popLeast (key : α → Int) : List α → Option (α × List α)
  | [] => none
  | a :: q =>
    match popLeast key q with
    | none => some (a, [])
    | some (b, q') => if key a ≤ key b then some (a, q) else some (b, a :: q')

theorem popLeast_none : ∀ q : List α, popLeast key q = none → q = []
  | [], _ => rfl
  | a :: q, h => by
    rw [popLeast] at h
    split at h
    · cases h
    · split at h <;> cases h

theorem popLeast_spec : ∀ (q : List α) (a : α) (q' : List α), popLeast key q = some (a, q') →
    q.Perm (a :: q') ∧ ∀ b ∈ q, key a ≤ key b
  | [], _, _, h => by cases h
  | a :: q, b, q', h => by
    rw [popLeast] at h
    split at h
    · next hnone =>
      cases h
      rw [popLeast_none q hnone]
      exact ⟨.refl _, by simp⟩
    · next c r hsome =>
      obtain ⟨hperm, hleast⟩ := popLeast_spec q c r hsome
      split at h
      · next hle =>
        cases h
        refine ⟨.refl _, fun x hx => ?_⟩
        rcases List.mem_cons.mp hx with rfl | hx
        · exact Int.le_refl _
        · exact Int.le_trans hle (hleast x hx)
      · next hlt =>
        cases h
        refine ⟨(hperm.cons a).trans (.swap ..), fun x hx => ?_⟩
        rcases List.mem_cons.mp hx with rfl | hx
        · omega
        · exact hleast x hx

/-- A heap that keeps the order in which elements were put in. -/
def firstLeast : Heap α key where
  push q a := q ++ [a]
  pop := popLeast key
  push_perm q a := List.perm_append_singleton a q
  pop_perm q a q' h := (popLeast_spec q a q' h).1
  pop_least q a q' h := (popLeast_spec q a q' h).2
  pop_none := popLeast_none

end Heap

/-- `cost`, `structure_cost` and `wcost` of a candidate; `gx`, `structure_gx` and `w_gx` of an
element. -/
structure Costs where
  cost : Int := 0
  structureCost : Int := 0
  wcost : Int := 0
  deriving DecidableEq

namespace Costs

instance : Add Costs where
  add a b := ⟨a.cost + b.cost, a.structureCost + b.structureCost, a.wcost + b.wcost⟩

instance : Sub Costs where
  sub a b := ⟨a.cost - b.cost, a.structureCost - b.structureCost, a.wcost - b.wcost⟩

end Costs

/-- A `QueueElement`, without `next`. -/
structure Entry where
  node : NodeId
  fx : Int
  costs : Costs
  deriving DecidableEq

/-- A `QueueElement`, with those that `next` leads to, one after the other. -/
structure QueueElement where
  entry : Entry
  next : List Entry
  deriving DecidableEq

namespace QueueElement

/-- The nodes, from left to right. -/
def path (e : QueueElement) : List NodeId := e.entry.node :: e.next.map Entry.node

end QueueElement

abbrev Agenda := Heap QueueElement fun e => e.entry.fx

/-! ## Candidates -/

structure NBestOptions where
  boundaryMode : BoundaryCheckMode := .strict
  /-- `BUILD_FROM_ONLY_FIRST_INNER_SEGMENT` of `candidate_mode` -/
  onlyFirstInnerSegment : Bool := false
  deriving DecidableEq

/-- A generator after `Reset`, as far as it does not change from then on. -/
structure NBestGenerator where
  lattice : Lattice
  /-- What the search has left in the nodes. -/
  search : Lattice.Traversed
  segmenter : Segmenter
  connector : TransitionCost
  posMatcher : PosMatcher
  beginNode : NodeId
  endNode : NodeId
  options : NBestOptions
  /-- Whether the request is for suggestions. -/
  isSuggestion : Bool

/-- What `MakeCandidate` has made of which nodes, and for which element if not for the best
path. -/
structure Made where
  candidate : Candidate
  nodes : List NodeId
  element : Option QueueElement

def Made.costs (m : Made) : Costs :=
  ⟨m.candidate.cost, m.candidate.structureCost, m.candidate.wcost⟩

def kCostDiff : Int := 3453
def kInvalidPenaltyCost : Int := 100000
def kWeakConnectedPenalty : Int := 3453

/-- Those in front of the first pair of neighbours that `p` is true of. -/
def cutBetween {α : Type} (p : α → α → Bool) : List α → List α
  | a :: b :: l => if p a b then [a] else a :: cutBetween p (b :: l)
  | l => l

/-- From `v` on along `next`, to the last node in front of `stop`. There are no more than `fuel`
nodes unless it goes in circles. -/
def followNext (next : NodeId → Option NodeId) (stop : NodeId) : Nat → Option NodeId →
    Option (List NodeId)
  | _, none => none
  | 0, some _ => none
  | fuel + 1, some v =>
    if v = stop then some [] else (followNext next stop fuel (next v)).map (v :: ·)

namespace NBestGenerator

variable (g : NBestGenerator)

def node (v : NodeId) : Node := g.lattice.node v

/-- `node->cost` -/
def cost (v : NodeId) : Int := g.search.labels.cost v

def attributes (v : NodeId) : UInt32 :=
  let node := g.node v
  (if node.constrainedPrev.isSome ||
      (g.search.next v).any (fun w => (g.node w).constrainedPrev = some v)
    then Attribute.CONTEXT_SENSITIVE else 0) |||
  (if node.has NodeAttribute.SPELLING_CORRECTION then Attribute.SPELLING_CORRECTION else 0) |||
  (if node.has NodeAttribute.NO_VARIANTS_EXPANSION then Attribute.NO_VARIANTS_EXPANSION else 0) |||
  (if node.has NodeAttribute.USER_DICTIONARY then Attribute.USER_DICTIONARY else 0) |||
  (if node.has NodeAttribute.SUFFIX_DICTIONARY then Attribute.SUFFIX_DICTIONARY else 0) |||
  (if node.has NodeAttribute.KEY_EXPANDED then Attribute.KEY_EXPANDED_IN_DICTIONARY else 0)

def makeCandidate (costs : Costs) (nodes : List NodeId) : Candidate :=
  let content := nodes.takeWhile fun v => !g.posMatcher.isFunctional (g.node v).lid
  let key := nodes.flatMap fun v => (g.node v).key
  let value := nodes.flatMap fun v => (g.node v).value
  let contentKey := content.flatMap fun v => (g.node v).key
  let contentValue := content.flatMap fun v => (g.node v).value
  let noContent := contentKey.isEmpty || contentValue.isEmpty
  { lid := nodes.head?.elim 0 fun v => (g.node v).lid
    rid := nodes.getLast?.elim 0 fun v => (g.node v).rid
    cost := costs.cost
    structureCost := costs.structureCost
    wcost := costs.wcost
    key, value
    contentKey := if noContent then key else contentKey
    contentValue := if noContent then value else contentValue
    attributes := nodes.foldl (fun attributes v => attributes ||| g.attributes v) 0
    rankingConstraints :=
      if nodes.any fun v => (g.node v).has NodeAttribute.EMOTICON then RankingConstraint.NO_TOP
      else RankingConstraint.NONE }

def getTransitionCost (lnode rnode : NodeId) : Int :=
  if (g.node rnode).constrainedPrev.any (· ≠ lnode) then kInvalidPenaltyCost
  else g.connector (g.node lnode).rid (g.node rnode).lid

/-! ### The best path -/

/-- The nodes from `begin_node_->next` to `end_node_`, unless a link is missing. -/
def bestNodes : Option (List NodeId) :=
  followNext g.search.next g.endNode (g.lattice.inserted.length + 2) (g.search.next g.beginNode)

/-- The top nodes, and the candidate if the function returns true. -/
def makeCandidateFromBestPath : Option (List NodeId × Option Made) := do
  let nodes ← g.bestNodes
  let first ← g.search.next g.beginNode
  let last ← g.search.labels.prev g.endNode
  let topNodes := cutBetween (fun u v => isBetweenAlphabetKeys (g.node u) (g.node v)) nodes
  let totalWcost := (topNodes.tail.map fun v => (g.node v).wcost).sum
  let costs : Costs :=
    { cost := (g.cost g.endNode - (g.node g.endNode).wcost) - g.cost g.beginNode
      structureCost := g.cost last - g.cost first - totalWcost
      wcost := g.cost last - g.cost first + (g.node first).wcost }
  some (topNodes, if topNodes.length < nodes.length then none
    else some ⟨g.makeCandidate costs topNodes, topNodes, none⟩)

def makePrefixCandidateFromBestPath : Option (List NodeId × Made) := do
  let nodes ← g.bestNodes
  let first ← g.search.next g.beginNode
  let topNodes := cutBetween (fun u v => g.segmenter.isBoundary (g.node u) (g.node v) false) nodes
  let last ← topNodes.getLast?
  let totalExtraWcost := (topNodes.tail.map fun v => (g.node v).wcost).sum
  let costs : Costs :=
    { cost := g.cost last
      structureCost := g.cost last - g.cost first - totalExtraWcost
      wcost := g.cost last - g.cost first + (g.node first).wcost }
  some (topNodes, ⟨g.makeCandidate costs topNodes, topNodes, none⟩)

/-! ### An element -/

/-- The nodes of the first inner segment, and the element in which the loop ends. -/
def firstInnerSegment : List Entry → Option (List NodeId × Entry)
  | [] => none
  | [elm] => some ([], elm)
  | elm :: next :: rest =>
    if isBetweenAlphabetKeys (g.node elm.node) (g.node next.node) then none
    else if g.segmenter.isBoundary (g.node elm.node) (g.node next.node) false then
      some ([elm.node], elm)
    else (firstInnerSegment (next :: rest)).map fun (nodes, last) => (elm.node :: nodes, last)

/-- The candidate, before it is filtered. -/
def makeCandidateFromElement (element : QueueElement) : Option Made :=
  if element.next = [] then none
  else if g.options.onlyFirstInnerSegment then
    (g.firstInnerSegment element.next).map fun (nodes, elm) =>
      ⟨g.makeCandidate (element.entry.costs - elm.costs) nodes, nodes, some element⟩
  else
    let nodes := element.next.dropLast.map Entry.node
    some ⟨g.makeCandidate element.entry.costs nodes, nodes, some element⟩

/-! ### Expanding an element -/

def isRightEdge (rnode : NodeId) : Bool := (g.node rnode).beginPos = (g.node g.endNode).beginPos

def isLeftEdge (rnode : NodeId) : Bool := (g.node rnode).beginPos = (g.node g.beginNode).endPos

def boundaryCheck (lnode rnode : NodeId) : BoundaryCheckResult :=
  g.segmenter.boundaryCheck (g.node lnode) (g.node rnode)
    (g.isRightEdge rnode || g.isLeftEdge rnode) g.options.boundaryMode

def isValidPosition (lnode : NodeId) : Bool :=
  let lnode := g.node lnode
  let pos := (g.node g.beginNode).endPos
  !(lnode.beginPos < pos && pos < lnode.endPos)

def isValidCost (lnode : NodeId) : Bool := g.cost lnode - g.cost g.beginNode ≤ kCostDiff

def canOmitSearch (lnode : NodeId) : Bool :=
  (g.node lnode).rid = (g.node g.beginNode).rid && lnode ≠ g.beginNode

/-- `cost_diff`, `structure_cost_diff` and `wcost_diff`, before the penalty. -/
def edgeCosts (lnode rnode : NodeId) : Costs :=
  let transitionCost := g.getTransitionCost lnode rnode
  let wcost := (g.node rnode).wcost
  if g.isRightEdge rnode then
    { cost := transitionCost + (g.cost rnode - g.cost g.endNode) }
  else if g.isLeftEdge rnode then
    { cost := transitionCost + wcost + (g.cost lnode - g.cost g.beginNode), wcost }
  else
    { cost := transitionCost + wcost
      structureCost := transitionCost
      wcost := transitionCost + wcost }

def costDiff (lnode rnode : NodeId) : Costs :=
  if g.boundaryCheck lnode rnode = .validWeakConnected then
    g.edgeCosts lnode rnode +
      ⟨kWeakConnectedPenalty, kWeakConnectedPenalty / 2, kWeakConnectedPenalty / 2⟩
  else g.edgeCosts lnode rnode

/-- The element for `lnode` in front of `top`, if the loop comes to it. -/
def createNewElement (top : QueueElement) (lnode : NodeId) : Option QueueElement :=
  let rnode := top.entry.node
  if !g.isValidPosition lnode then none
  else if g.isLeftEdge rnode && !g.isValidCost lnode then none
  else if g.isLeftEdge rnode && g.canOmitSearch lnode then none
  else if g.boundaryCheck lnode rnode = .invalid then none
  else
    let costs := g.costDiff lnode rnode + top.entry.costs
    some ⟨⟨lnode, g.cost lnode + costs.cost, costs⟩, top.entry :: top.next⟩

/-- `best_left_elm` -/
def bestLeft (best : Option QueueElement) (e : QueueElement) : Option QueueElement :=
  match best with
  | none => some e
  | some b => if b.entry.fx > e.entry.fx then some e else some b

variable (agenda : Agenda)

def expand (q : List QueueElement) (top : QueueElement) : List QueueElement :=
  let made := (g.lattice.endNodes (g.node top.entry.node).beginPos).filterMap
    (g.createNewElement top)
  if g.isLeftEdge top.entry.node then (made.foldl bestLeft none).elim q (agenda.push q)
  else made.foldl agenda.push q

end NBestGenerator

/-! ## `Next` -/

inductive ResultType where
  | goodCandidate
  | badCandidate
  | stopEnumeration
  deriving DecidableEq

/-- `FilterCandidate`, which keeps what it has seen in a state. -/
structure CandidateFilter (σ : Type) where
  /-- The state after `Reset`. -/
  init : σ
  filterCandidate : σ → Candidate → List NodeId → List NodeId → ResultType × σ

/-- What changes from call to call. -/
structure NBestState (σ : Type) where
  agenda : List QueueElement
  topNodes : List NodeId := []
  filter : σ
  viterbiResultChecked : Bool := false

/-- The candidate if there is one, and all that were made on the way. -/
structure NextResult (σ : Type) where
  candidate : Option Candidate
  made : List Made
  state : NBestState σ

namespace NBestGenerator

variable {σ : Type} (g : NBestGenerator) (agenda : Agenda) (filter : CandidateFilter σ)

/-- The node is one that the search starts from. -/
def isStart (v : NodeId) : Bool :=
  v = g.endNode || ((g.node v).lid ≠ (g.node g.endNode).lid &&
    ((g.cost v - g.cost g.endNode).natAbs : Int) ≤ kCostDiff &&
    g.search.labels.prev v ≠ g.search.labels.prev g.endNode)

def reset : NBestState σ where
  agenda := ((g.lattice.beginNodes (g.node g.endNode).beginPos).filter g.isStart).foldl
    (fun q v => agenda.push q ⟨⟨v, g.cost v, {}⟩, []⟩) []
  filter := filter.init

def kMaxTrial : Nat := 500

/-- Filters a candidate that has been made, and goes on if it is bad. -/
def filtered (made : Made) (s : NBestState σ) (goOn : NBestState σ → NextResult σ) :
    NextResult σ :=
  let (result, f) := filter.filterCandidate s.filter made.candidate s.topNodes made.nodes
  let s := { s with filter := f }
  match result with
  | .goodCandidate => ⟨some made.candidate, [made], s⟩
  | .stopEnumeration => ⟨none, [made], s⟩
  | .badCandidate =>
    let r := goOn s
    { r with made := made :: r.made }

/-- The loop of `Next`, with the number of elements that are left to try. -/
def searchLoop : Nat → NBestState σ → NextResult σ
  | trials, s =>
    match agenda.pop s.agenda with
    | none => ⟨none, [], s⟩
    | some (top, q) =>
      let s := { s with agenda := q }
      match trials with
      -- `num_trials++ > KMaxTrial`; the element is lost.
      | 0 => ⟨none, [], s⟩
      | trials + 1 =>
        if (g.node top.entry.node).endPos = (g.node g.beginNode).endPos then
          match g.makeCandidateFromElement top with
          | none => searchLoop trials s
          | some made => filtered filter made s (searchLoop trials)
        else searchLoop trials { s with agenda := g.expand agenda q top }

/-- `Next`, unless a link of the best path is missing. -/
def next (s : NBestState σ) : Option (NextResult σ) :=
  let loop := g.searchLoop agenda filter (kMaxTrial + 1)
  if s.viterbiResultChecked then some (loop s)
  else
    let s := { s with viterbiResultChecked := true }
    let insertTopResult (topNodes : List NodeId) (made : Made) : NextResult σ :=
      let candidate := if g.isSuggestion then
        { made.candidate with
          attributes := made.candidate.attributes ||| Attribute.REALTIME_CONVERSION }
        else made.candidate
      filtered filter { made with candidate } { s with topNodes } loop
    if g.options.onlyFirstInnerSegment then
      g.makePrefixCandidateFromBestPath.map fun (topNodes, made) => insertTopResult topNodes made
    else
      g.makeCandidateFromBestPath.map fun
        | (topNodes, none) => ⟨none, [], { s with topNodes }⟩
        | (topNodes, some made) => insertTopResult topNodes made

/-- What can be reached by calls of `Next`. -/
inductive Reached : NBestState σ → Prop
  | reset : Reached (g.reset agenda filter)
  | next {s : NBestState σ} {r : NextResult σ} (h : Reached s)
      (hr : g.next agenda filter s = some r) : Reached r.state

end NBestGenerator

end Mozkey.Converter
