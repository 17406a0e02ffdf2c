import Mozkey.Converter.BestPath
import Mozkey.Converter.NBestGenerator

/-!
# What an element costs

An element of the agenda is a path that has been built from the right. What it has added up is the
sum of the costs of the connections on it, each of which is counted according to the edge that it
lies on.

* `OnEdges.accumulated_upTo`, `OnEdges.accumulated_eq` — the sum is what the source says it is
* `Built.backwards`, `Backwards.tiles` — the nodes of an element that has come to the goal
* `callOk_next` — **what a call makes**, whatever the filter and the heap do
-/

namespace Mozkey.Converter

open Infra Base Infra.ShortestPath

namespace Costs

@[ext] theorem ext {a b : Costs} (hcost : a.cost = b.cost)
    (hstructure : a.structureCost = b.structureCost) (hwcost : a.wcost = b.wcost) : a = b := by
  cases a
  cases b
  simp_all

@[simp] theorem add_cost (a b : Costs) : (a + b).cost = a.cost + b.cost := rfl
@[simp] theorem add_structureCost (a b : Costs) :
    (a + b).structureCost = a.structureCost + b.structureCost := rfl
@[simp] theorem add_wcost (a b : Costs) : (a + b).wcost = a.wcost + b.wcost := rfl
@[simp] theorem sub_cost (a b : Costs) : (a - b).cost = a.cost - b.cost := rfl
@[simp] theorem sub_structureCost (a b : Costs) :
    (a - b).structureCost = a.structureCost - b.structureCost := rfl
@[simp] theorem sub_wcost (a b : Costs) : (a - b).wcost = a.wcost - b.wcost := rfl

theorem add_sub_cancel (a b : Costs) : a + b - b = a :=
  ext (Int.add_sub_cancel ..) (Int.add_sub_cancel ..) (Int.add_sub_cancel ..)

theorem sub_zero (a : Costs) : a - {} = a :=
  ext (Int.sub_zero _) (Int.sub_zero _) (Int.sub_zero _)

theorem add_zero (a : Costs) : a + {} = a :=
  ext (Int.add_zero _) (Int.add_zero _) (Int.add_zero _)

end Costs

/-- The nodes stand one behind the other, from `left` to `right`. -/
structure Lattice.Covers (l : Lattice) (left right : Nat) (nodes : List NodeId) : Prop where
  has : ∀ v ∈ nodes, l.Has v
  adjacent : nodes.IsChain fun u v => l.stop u = l.start v
  first : nodes.head?.map l.start = some left
  last : nodes.getLast?.map l.stop = some right

namespace NBestGenerator

variable (g : NBestGenerator)

/-! ## The costs of a path -/

def wcosts (nodes : List NodeId) : Int := (nodes.map fun v => (g.node v).wcost).sum

/-- The costs of nodes behind `u`, up to the last of them. -/
def documentedUpTo (trans : NodeId → NodeId → Int) (u : NodeId) (nodes : List NodeId) : Costs where
  cost := (g.cost u - g.cost g.beginNode) + pathCost trans (u :: nodes) + g.wcosts nodes
  structureCost := pathCost trans nodes
  wcost := g.wcosts nodes + pathCost trans nodes

/-- The costs of nodes between `u` and `v`, as the comment in `Next` has them. -/
def documented (trans : NodeId → NodeId → Int) (u : NodeId) (nodes : List NodeId) (v : NodeId) :
    Costs where
  cost := (g.cost u - g.cost g.beginNode) + pathCost trans (u :: nodes ++ [v]) +
    g.wcosts nodes + (g.cost v - g.cost g.endNode)
  structureCost := pathCost trans nodes
  wcost := g.wcosts nodes + pathCost trans nodes

def isWeak (lnode rnode : NodeId) : Int :=
  if g.boundaryCheck lnode rnode = .validWeakConnected then 1 else 0

/-- The penalties for the weak connections on a path. -/
def weakPenalties (path : List NodeId) : Costs where
  cost := kWeakConnectedPenalty * pathCost g.isWeak path
  structureCost := kWeakConnectedPenalty / 2 * pathCost g.isWeak path
  wcost := kWeakConnectedPenalty / 2 * pathCost g.isWeak path

/-- What an element adds up along a path. -/
def accumulated (path : List NodeId) : Costs where
  cost := pathCost (fun u v => (g.costDiff u v).cost) path
  structureCost := pathCost (fun u v => (g.costDiff u v).structureCost) path
  wcost := pathCost (fun u v => (g.costDiff u v).wcost) path

variable {g} {u v : NodeId} {nodes : List NodeId}

theorem accumulated_cons (u v : NodeId) (p : List NodeId) :
    g.accumulated (u :: v :: p) = g.costDiff u v + g.accumulated (v :: p) := rfl

theorem accumulated_append (p q : List NodeId) (u : NodeId) :
    g.accumulated (p ++ u :: q) = g.accumulated (p ++ [u]) + g.accumulated (u :: q) :=
  Costs.ext (pathCost_append p q u) (pathCost_append p q u) (pathCost_append p q u)

theorem costDiff_eq (u v : NodeId) :
    (g.costDiff u v).cost = (g.edgeCosts u v).cost + kWeakConnectedPenalty * g.isWeak u v ∧
    (g.costDiff u v).structureCost =
      (g.edgeCosts u v).structureCost + kWeakConnectedPenalty / 2 * g.isWeak u v ∧
    (g.costDiff u v).wcost =
      (g.edgeCosts u v).wcost + kWeakConnectedPenalty / 2 * g.isWeak u v := by
  unfold costDiff isWeak
  split <;> simp

/-- The node is on neither edge. -/
def IsInner (g : NBestGenerator) (v : NodeId) : Prop :=
  g.isRightEdge v = false ∧ g.isLeftEdge v = false

theorem edgeCosts_inner (hv : g.IsInner v) (u : NodeId) :
    g.edgeCosts u v =
      ⟨g.getTransitionCost u v + (g.node v).wcost, g.getTransitionCost u v,
        g.getTransitionCost u v + (g.node v).wcost⟩ := by
  rw [edgeCosts, hv.1, hv.2]
  rfl

theorem isChain_of_tail {α : Type} {R : α → α → Prop} : ∀ {a : α} {l : List α},
    (∀ b ∈ l, ∀ a, R a b) → (a :: l).IsChain R
  | _, [], _ => List.isChain_singleton _
  | _, b :: _, h => List.isChain_cons_cons.mpr
      ⟨h b List.mem_cons_self _, isChain_of_tail (List.forall_mem_cons.mp h).2⟩

/-- From an inner node to the next, the word cost of the next is added. -/
theorem accumulated_inner (hnodes : ∀ v ∈ nodes, g.IsInner v) (u : NodeId) :
    g.accumulated (u :: nodes) =
      ⟨pathCost g.getTransitionCost (u :: nodes) + g.wcosts nodes,
        pathCost g.getTransitionCost (u :: nodes),
        pathCost g.getTransitionCost (u :: nodes) + g.wcosts nodes⟩ +
      g.weakPenalties (u :: nodes) := by
  have hwcost := pathCost_right (fun v => (g.node v).wcost) u nodes
  refine Costs.ext ?_ ?_ ?_
  · have hchain : (u :: nodes).IsChain fun u v => (g.costDiff u v).cost =
        (g.getTransitionCost u v + (g.node v).wcost) + kWeakConnectedPenalty * g.isWeak u v :=
      isChain_of_tail fun v hv u => by rw [(costDiff_eq u v).1, edgeCosts_inner (hnodes v hv)]
    rw [accumulated, pathCost_congr hchain, pathCost_add, pathCost_add, pathCost_mul, hwcost]
    rfl
  · have hchain : (u :: nodes).IsChain fun u v => (g.costDiff u v).structureCost =
        g.getTransitionCost u v + kWeakConnectedPenalty / 2 * g.isWeak u v :=
      isChain_of_tail fun v hv u => by rw [(costDiff_eq u v).2.1, edgeCosts_inner (hnodes v hv)]
    rw [accumulated, pathCost_congr hchain, pathCost_add, pathCost_mul]
    rfl
  · have hchain : (u :: nodes).IsChain fun u v => (g.costDiff u v).wcost =
        (g.getTransitionCost u v + (g.node v).wcost) + kWeakConnectedPenalty / 2 * g.isWeak u v :=
      isChain_of_tail fun v hv u => by rw [(costDiff_eq u v).2.2, edgeCosts_inner (hnodes v hv)]
    rw [accumulated, pathCost_congr hchain, pathCost_add, pathCost_add, pathCost_mul, hwcost]
    rfl

/-- The nodes of a path, of which the first is on the left edge. -/
structure OnEdges (g : NBestGenerator) (n : NodeId) (nodes : List NodeId) : Prop where
  left : g.isRightEdge n = false ∧ g.isLeftEdge n = true
  inner : ∀ v ∈ nodes, g.IsInner v

theorem OnEdges.of_append {n : NodeId} {rest : List NodeId} (h : g.OnEdges n (nodes ++ rest)) :
    g.OnEdges n nodes :=
  ⟨h.left, fun v hv => h.inner v (List.mem_append_left rest hv)⟩

/-- **An element up to a node.** -/
theorem OnEdges.accumulated_upTo {n : NodeId} (h : g.OnEdges n nodes) (u : NodeId) :
    g.accumulated (u :: n :: nodes) =
      g.documentedUpTo g.getTransitionCost u (n :: nodes) + g.weakPenalties (u :: n :: nodes) := by
  have hinner := accumulated_inner h.inner n
  obtain ⟨hcost, hstructure, hwcost⟩ := costDiff_eq (g := g) u n
  have hedge : g.edgeCosts u n =
      { cost := g.getTransitionCost u n + (g.node n).wcost + (g.cost u - g.cost g.beginNode)
        wcost := (g.node n).wcost } := by
    rw [edgeCosts, h.left.1, h.left.2]
    rfl
  rw [hedge] at hcost hstructure hwcost
  rw [accumulated_cons, hinner]
  refine Costs.ext ?_ ?_ ?_
  · simp only [Costs.add_cost, hcost, documentedUpTo, weakPenalties, wcosts, pathCost,
      List.map_cons, List.sum_cons, Int.mul_add]
    omega
  · simp only [Costs.add_structureCost, hstructure, documentedUpTo, weakPenalties, pathCost,
      Int.mul_add]
    omega
  · simp only [Costs.add_wcost, hwcost, documentedUpTo, weakPenalties, wcosts, pathCost,
      List.map_cons, List.sum_cons, Int.mul_add]
    omega

theorem documented_concat (trans : NodeId → NodeId → Int) (u : NodeId) (q : List NodeId)
    (n v : NodeId) :
    g.documented trans u (q ++ [n]) v = g.documentedUpTo trans u (q ++ [n]) +
      { cost := trans n v + (g.cost v - g.cost g.endNode) } := by
  have hpath := pathCost_concat (w := trans) (u :: q) n v
  simp only [List.cons_append] at hpath
  refine Costs.ext ?_ (Int.add_zero _).symm (Int.add_zero _).symm
  simp only [documented, documentedUpTo, Costs.add_cost, List.cons_append, hpath]
  omega

theorem weakPenalties_concat (p : List NodeId) (n v : NodeId) :
    g.weakPenalties (p ++ [n] ++ [v]) = g.weakPenalties (p ++ [n]) + g.weakPenalties [n, v] := by
  have hpath := pathCost_concat (w := g.isWeak) p n v
  refine Costs.ext ?_ ?_ ?_ <;>
  · simp only [weakPenalties, Costs.add_cost, Costs.add_structureCost, Costs.add_wcost, hpath,
      pathCost, Int.mul_add, Int.add_zero]

/-- **An element between two nodes.** -/
theorem OnEdges.accumulated_eq {n : NodeId} (h : g.OnEdges n nodes) (u : NodeId)
    (hv : g.isRightEdge v = true) :
    g.accumulated (u :: n :: nodes ++ [v]) =
      g.documented g.getTransitionCost u (n :: nodes) v +
        g.weakPenalties (u :: n :: nodes ++ [v]) := by
  have hupTo := h.accumulated_upTo u
  obtain ⟨q, m, hq⟩ := (List.eq_nil_or_concat' (n :: nodes)).resolve_left (by simp)
  rw [hq] at hupTo ⊢
  have hlast : g.accumulated [m, v] =
      { cost := g.getTransitionCost m v + (g.cost v - g.cost g.endNode) } +
        g.weakPenalties [m, v] := by
    obtain ⟨hcost, hstructure, hwcost⟩ := costDiff_eq (g := g) m v
    rw [edgeCosts, hv] at hcost hstructure hwcost
    refine Costs.ext ?_ ?_ ?_
    · simpa [accumulated, weakPenalties, pathCost] using hcost
    · simpa [accumulated, weakPenalties, pathCost] using hstructure
    · simpa [accumulated, weakPenalties, pathCost] using hwcost
  have hsplit := accumulated_append (g := g) (u :: q) [v] m
  have hweak := weakPenalties_concat (g := g) (u :: q) m v
  simp only [List.cons_append, List.append_assoc, List.nil_append] at hupTo hsplit hweak ⊢
  rw [hsplit, hupTo, hlast, documented_concat, hweak]
  refine Costs.ext ?_ ?_ ?_ <;>
  · simp only [Costs.add_cost, Costs.add_structureCost, Costs.add_wcost]
    omega

/-! ## The nodes of an element -/

/-- The generator has been reset for two nodes with a part of the key between them. -/
structure Spans (g : NBestGenerator) (keys : List Bytes) : Prop where
  sound : g.lattice.Sound keys
  has_begin : g.lattice.Has g.beginNode
  has_end : g.lattice.Has g.endNode
  lt : g.lattice.stop g.beginNode < g.lattice.start g.endNode

variable {keys : List Bytes}

namespace Spans

theorem isLeftEdge_eq (hg : g.Spans keys) (hv : g.lattice.Has v) :
    g.isLeftEdge v = decide (g.lattice.start v = g.lattice.stop g.beginNode) := by
  rw [isLeftEdge, node, node, hg.sound.beginPos_eq hv, hg.sound.endPos_eq hg.has_begin]

theorem isRightEdge_eq (hg : g.Spans keys) (hv : g.lattice.Has v) :
    g.isRightEdge v = decide (g.lattice.start v = g.lattice.start g.endNode) := by
  rw [isRightEdge, node, node, hg.sound.beginPos_eq hv, hg.sound.beginPos_eq hg.has_end]

theorem le_start (hg : g.Spans keys) (hv : g.lattice.Has v) (h : g.isValidPosition v = true)
    (hlt : g.lattice.stop g.beginNode < g.lattice.stop v) :
    g.lattice.stop g.beginNode ≤ g.lattice.start v := by
  rw [isValidPosition, node, node, hg.sound.beginPos_eq hv, hg.sound.endPos_eq hv,
    hg.sound.endPos_eq hg.has_begin] at h
  simp only [hlt, decide_true, Bool.and_true, Bool.not_eq_true', decide_eq_false_iff_not] at h
  exact Nat.le_of_not_lt h

end Spans

/-- How the search comes to an element. -/
inductive Built (g : NBestGenerator) : Entry → List Entry → Prop
  | start {v : NodeId} {fx : Int} (hv : v ∈ g.lattice.beginNodes (g.node g.endNode).beginPos) :
    Built g ⟨v, fx, {}⟩ []
  | expand {top : Entry} {rest : List Entry} {u : NodeId} {fx : Int} (h : Built g top rest)
      (hgoal : (g.node top.node).endPos ≠ (g.node g.beginNode).endPos)
      (hu : u ∈ g.lattice.endNodes (g.node top.node).beginPos)
      (hvalid : g.isValidPosition u = true) :
    Built g ⟨u, fx, g.costDiff u top.node + top.costs⟩ (top :: rest)

theorem Built.costs_eq {e : Entry} {rest : List Entry} (h : g.Built e rest) :
    e.costs = g.accumulated (e.node :: rest.map Entry.node) := by
  induction h with
  | start hv => rfl
  | expand h hgoal hu hvalid ih => rw [ih, List.map_cons, accumulated_cons]

/-- A path that has been found from the right, on which no goal has been passed. -/
structure Backwards (g : NBestGenerator) (path : List NodeId) : Prop where
  has : ∀ v ∈ path, g.lattice.Has v
  adjacent : path.IsChain fun u v => g.lattice.stop u = g.lattice.start v
  last : path.getLast?.map g.lattice.start = some (g.lattice.start g.endNode)
  not_eos : ∀ v ∈ path.dropLast, v ≠ .eos
  behind : ∀ v ∈ path.tail, g.lattice.stop g.beginNode ≤ g.lattice.start v ∧
    g.lattice.stop v ≠ g.lattice.stop g.beginNode
  le_start : ∀ v ∈ path.head?, g.lattice.stop v ≠ g.lattice.stop g.beginNode →
    g.lattice.stop g.beginNode ≤ g.lattice.start v

theorem Built.backwards (hg : g.Spans keys) {e : Entry} {rest : List Entry}
    (h : g.Built e rest) : g.Backwards (e.node :: rest.map Entry.node) := by
  induction h with
  | start hv =>
    rw [node, hg.sound.beginPos_eq hg.has_end] at hv
    obtain ⟨hhas, -, hstart⟩ := Lattice.mem_beginNodes.mp hv
    have hlt := hg.lt
    refine ⟨by simpa using hhas, by simp, by simpa using hstart, by simp, by simp, ?_⟩
    intro x hx _
    obtain rfl : _ = x := by simpa using hx
    omega
  | @expand top rest u fx h hgoal hu hvalid ih =>
    have htop : g.lattice.Has top.node := ih.has _ List.mem_cons_self
    rw [node, hg.sound.beginPos_eq htop] at hu
    rw [node, node, hg.sound.endPos_eq htop, hg.sound.endPos_eq hg.has_begin] at hgoal
    obtain ⟨hhas, hue, hstop⟩ := Lattice.mem_endNodes.mp hu
    have hle := ih.le_start _ rfl hgoal
    refine ⟨?_, ?_, ?_, ?_, ?_, ?_⟩
    · simpa [hhas] using ih.has
    · exact List.isChain_cons_cons.mpr ⟨hstop, ih.adjacent⟩
    · simpa [List.getLast?_cons_cons] using ih.last
    · rw [List.map_cons, List.dropLast_cons_cons]
      exact List.forall_mem_cons.mpr ⟨hue, ih.not_eos⟩
    · exact List.forall_mem_cons.mpr ⟨⟨hle, hgoal⟩, ih.behind⟩
    · intro x hx hne
      obtain rfl : u = x := by simpa using hx
      exact hg.le_start hhas hvalid (by omega)

/-- What lies on a path begins in front of where the path ends. -/
theorem start_lt {l : Lattice} : ∀ {q : List NodeId},
    (q ++ [v]).IsChain (fun u v => l.stop u = l.start v) → (∀ x ∈ q, l.start x < l.stop x) →
    ∀ x ∈ q, l.start x < l.start v
  | [], _, _ => by simp
  | [y], hchain, hwide => by
    intro x hx
    obtain rfl := List.mem_singleton.mp hx
    have hadj : l.stop x = l.start v := by simpa using hchain
    exact hadj ▸ hwide x hx
  | y :: z :: q, hchain, hwide => by
    obtain ⟨hadj, hrest⟩ := List.isChain_cons_cons.mp hchain
    have ih := start_lt hrest (List.forall_mem_cons.mp hwide).2
    refine List.forall_mem_cons.mpr ⟨?_, ih⟩
    have := hwide y List.mem_cons_self
    have := ih z List.mem_cons_self
    omega

/-- What lies behind a node on a path begins where that ends, or later. -/
theorem stop_le_start {l : Lattice} : ∀ {n : NodeId} {nodes : List NodeId},
    (n :: nodes).IsChain (fun u v => l.stop u = l.start v) →
    (∀ x ∈ nodes, l.start x < l.stop x) → ∀ x ∈ nodes, l.stop n ≤ l.start x
  | _, [], _, _ => by simp
  | n, m :: nodes, hchain, hwide => by
    obtain ⟨hadj, hrest⟩ := List.isChain_cons_cons.mp hchain
    obtain ⟨hm, hwide⟩ := List.forall_mem_cons.mp hwide
    have ih := stop_le_start hrest hwide
    refine List.forall_mem_cons.mpr ⟨Nat.le_of_eq hadj, fun x hx => ?_⟩
    have := ih x hx
    omega

/-- `nodes` go from one edge to the other, where `u` ends and `v` begins. -/
structure EdgeToEdge (g : NBestGenerator) (u : NodeId) (nodes : List NodeId) (v : NodeId) :
    Prop where
  left : g.lattice.Has u ∧ g.lattice.stop u = g.lattice.stop g.beginNode
  right : g.lattice.Has v ∧ g.lattice.start v = g.lattice.start g.endNode
  covers : g.lattice.Covers (g.lattice.stop g.beginNode) (g.lattice.start g.endNode) nodes

structure Tiles (g : NBestGenerator) (u n : NodeId) (nodes : List NodeId) (v : NodeId) : Prop where
  edgeToEdge : g.EdgeToEdge u (n :: nodes) v
  onEdges : g.OnEdges n nodes
  isRightEdge : g.isRightEdge v = true

theorem Spans.tiles (hg : g.Spans keys) {n : NodeId}
    (hhas : ∀ x ∈ u :: n :: nodes ++ [v], g.lattice.Has x)
    (hadj : (u :: n :: nodes ++ [v]).IsChain fun u v => g.lattice.stop u = g.lattice.start v)
    (hleft : g.lattice.stop u = g.lattice.stop g.beginNode)
    (hright : g.lattice.start v = g.lattice.start g.endNode)
    (hwide : ∀ x ∈ n :: nodes, g.lattice.start x < g.lattice.stop x) :
    g.Tiles u n nodes v := by
  have hlt := hg.lt
  obtain ⟨hun, hrest⟩ : g.lattice.stop u = g.lattice.start n ∧
      (n :: nodes ++ [v]).IsChain fun u v => g.lattice.stop u = g.lattice.start v :=
    List.isChain_cons_cons.mp hadj
  have hn : g.lattice.start n = g.lattice.stop g.beginNode := hun.symm.trans hleft
  obtain ⟨hnodes, -, hlast⟩ := List.isChain_append.mp hrest
  have hhas' : ∀ x ∈ n :: nodes, g.lattice.Has x := fun x hx => hhas x (by
    rcases List.mem_cons.mp hx with rfl | hx
    · simp
    · simp [hx])
  have hv := hhas v (by simp)
  have hlt' := start_lt hrest hwide
  have hstart := stop_le_start hnodes fun x hx => hwide x (List.mem_cons_of_mem n hx)
  refine ⟨⟨⟨hhas u (by simp), hleft⟩, ⟨hv, hright⟩, ⟨hhas', hnodes, ?_, ?_⟩⟩, ⟨⟨?_, ?_⟩, ?_⟩, ?_⟩
  · simpa using hn
  · have hm := List.getLast?_eq_some_getLast (List.cons_ne_nil n nodes)
    simp [hm, hlast _ hm v rfl, hright]
  · rw [hg.isRightEdge_eq (hhas' n List.mem_cons_self)]
    exact decide_eq_false (by omega)
  · rw [hg.isLeftEdge_eq (hhas' n List.mem_cons_self)]
    exact decide_eq_true hn
  · intro x hx
    have hx' := List.mem_cons_of_mem n hx
    have := hlt' x hx'
    have := hstart x hx
    have := hwide n List.mem_cons_self
    rw [IsInner, hg.isRightEdge_eq (hhas' x hx'), hg.isLeftEdge_eq (hhas' x hx')]
    exact ⟨decide_eq_false (by omega), decide_eq_false (by omega)⟩
  · rw [hg.isRightEdge_eq hv]
    exact decide_eq_true hright

/-- **The nodes of an element that has come to the goal.** -/
theorem Backwards.tiles (hg : g.Spans keys) {path : List NodeId} (h : g.Backwards (u :: path))
    (hgoal : g.lattice.stop u = g.lattice.stop g.beginNode) (hne : path ≠ []) :
    ∃ n nodes v, path = n :: nodes ++ [v] ∧ g.Tiles u n nodes v := by
  have hlt := hg.lt
  obtain ⟨q, v, rfl⟩ := (List.eq_nil_or_concat' path).resolve_left hne
  have hright : g.lattice.start v = g.lattice.start g.endNode := by
    have hlast := h.last
    rw [← List.cons_append, List.getLast?_concat] at hlast
    exact Option.some.inj hlast
  cases q with
  | nil =>
    have hadj : g.lattice.stop u = g.lattice.start v := by simpa using h.adjacent
    omega
  | cons n nodes =>
    refine ⟨n, nodes, v, rfl, hg.tiles h.has h.adjacent hgoal hright ?_⟩
    intro x hx
    obtain ⟨hle, hstop⟩ := h.behind x (List.mem_append_left [v] hx)
    have hxb : x ≠ .bos := by
      rintro rfl
      exact hstop (Nat.le_antisymm (Nat.zero_le _) hle)
    have hxe : x ≠ .eos := h.not_eos x (by
      rw [← List.cons_append, List.dropLast_concat]
      exact List.mem_cons_of_mem u hx)
    exact hg.sound.start_lt_stop (h.has x (List.mem_cons_of_mem u (List.mem_append_left [v] hx)))
      hxb hxe

/-! ## The agenda -/

section agenda

variable {agenda : Agenda} {q : List QueueElement} {top x : QueueElement}

theorem mem_push {e : QueueElement} (h : x ∈ agenda.push q e) : x = e ∨ x ∈ q :=
  List.mem_cons.mp ((agenda.push_perm q e).mem_iff.mp h)

theorem mem_foldl_push {es : List QueueElement} (h : x ∈ es.foldl agenda.push q) :
    x ∈ q ∨ x ∈ es := by
  induction es generalizing q with
  | nil => exact .inl h
  | cons e es ih =>
    rcases ih h with h | h
    · rcases mem_push h with rfl | h
      · exact .inr List.mem_cons_self
      · exact .inl h
    · exact .inr (List.mem_cons_of_mem e h)

theorem mem_of_bestLeft {es : List QueueElement} {best : Option QueueElement}
    (h : es.foldl bestLeft best = some x) : best = some x ∨ x ∈ es := by
  induction es generalizing best with
  | nil => exact .inl h
  | cons e es ih =>
    rcases ih h with h | h
    · unfold bestLeft at h
      split at h
      · cases h
        exact .inr List.mem_cons_self
      · split at h
        · cases h
          exact .inr List.mem_cons_self
        · exact .inl h
    · exact .inr (List.mem_cons_of_mem e h)

theorem mem_expand (h : x ∈ g.expand agenda q top) :
    x ∈ q ∨ ∃ u ∈ g.lattice.endNodes (g.node top.entry.node).beginPos,
      g.createNewElement top u = some x := by
  unfold expand at h
  dsimp only at h
  split at h
  · cases hbest : (((g.lattice.endNodes (g.node top.entry.node).beginPos).filterMap
        (g.createNewElement top)).foldl bestLeft none) with
    | none =>
      rw [hbest] at h
      exact .inl h
    | some e =>
      rw [hbest] at h
      rcases mem_push h with rfl | h
      · exact .inr (List.mem_filterMap.mp ((mem_of_bestLeft hbest).resolve_left (by simp)))
      · exact .inl h
  · exact (mem_foldl_push h).imp_right List.mem_filterMap.mp

/-- The search has come to all of the elements. -/
def AllBuilt (g : NBestGenerator) (q : List QueueElement) : Prop :=
  ∀ e ∈ q, g.Built e.entry e.next

theorem built_createNewElement (h : g.Built top.entry top.next)
    (hgoal : (g.node top.entry.node).endPos ≠ (g.node g.beginNode).endPos)
    (hu : u ∈ g.lattice.endNodes (g.node top.entry.node).beginPos)
    (hx : g.createNewElement top u = some x) : g.Built x.entry x.next := by
  unfold createNewElement at hx
  dsimp only at hx
  split at hx
  · cases hx
  · next hvalid =>
    split at hx
    · cases hx
    · split at hx
      · cases hx
      · split at hx
        · cases hx
        · cases hx
          exact .expand h hgoal hu (by simpa using hvalid)

theorem AllBuilt.expand (hq : g.AllBuilt q) (htop : g.Built top.entry top.next)
    (hgoal : (g.node top.entry.node).endPos ≠ (g.node g.beginNode).endPos) :
    g.AllBuilt (g.expand agenda q top) := by
  intro x hx
  rcases mem_expand hx with hx | ⟨u, hu, hx⟩
  · exact hq x hx
  · exact built_createNewElement htop hgoal hu hx

end agenda

/-! ## The runs -/

section runs

variable {σ : Type} {agenda : Agenda} {filter : CandidateFilter σ} {s : NBestState σ}
  {r : NextResult σ} {m : Made}

theorem allBuilt_reset (agenda : Agenda) (filter : CandidateFilter σ) :
    g.AllBuilt (g.reset agenda filter).agenda := by
  refine List.foldlRecOn (motive := g.AllBuilt) _ _ (by simp [AllBuilt]) fun q hq v hv => ?_
  intro x hx
  rcases mem_push hx with rfl | hx
  · exact .start (List.mem_of_mem_filter hv)
  · exact hq x hx

/-- The candidate is made of an element that has come to the goal. -/
structure FromElement (g : NBestGenerator) (e : QueueElement) (m : Made) : Prop where
  built : g.Built e.entry e.next
  goal : (g.node e.entry.node).endPos = (g.node g.beginNode).endPos
  made : g.makeCandidateFromElement e = some m

/-- What a call keeps of the agenda, and what it makes. -/
structure CallOk (g : NBestGenerator) (made : Made → Prop) (r : NextResult σ) : Prop where
  agenda : g.AllBuilt r.state.agenda
  made : ∀ m ∈ r.made, made m

theorem callOk_filtered {made : Made → Prop} {goOn : NBestState σ → NextResult σ}
    (hs : g.AllBuilt s.agenda) (hm : made m)
    (hgoOn : ∀ s : NBestState σ, g.AllBuilt s.agenda → g.CallOk made (goOn s)) :
    g.CallOk made (filtered filter m s goOn) := by
  have hsingle : ∀ x ∈ [m], made x := by simpa using hm
  unfold filtered
  dsimp only
  split
  · exact ⟨hs, hsingle⟩
  · exact ⟨hs, hsingle⟩
  · have hrest := hgoOn { s with
      filter := (filter.filterCandidate s.filter m.candidate s.topNodes m.nodes).2 } hs
    exact ⟨hrest.agenda, List.forall_mem_cons.mpr ⟨hm, hrest.made⟩⟩

theorem callOk_searchLoop (trials : Nat) : ∀ s : NBestState σ, g.AllBuilt s.agenda →
    g.CallOk (fun m => ∃ e, g.FromElement e m) (g.searchLoop agenda filter trials s) := by
  induction trials with
  | zero =>
    intro s hs
    unfold searchLoop
    split
    · exact ⟨hs, by simp⟩
    · next top q hpop =>
      have hperm := agenda.pop_perm _ _ _ hpop
      exact ⟨fun e he => hs e (hperm.mem_iff.mpr (List.mem_cons_of_mem top he)), by simp⟩
  | succ trials ih =>
    intro s hs
    unfold searchLoop
    split
    · exact ⟨hs, by simp⟩
    · next top q hpop =>
      have hperm := agenda.pop_perm _ _ _ hpop
      have hq : g.AllBuilt q := fun e he => hs e (hperm.mem_iff.mpr (List.mem_cons_of_mem top he))
      have htop := hs top (hperm.mem_iff.mpr List.mem_cons_self)
      dsimp only
      split
      · next hgoal =>
        split
        · exact ih _ hq
        · next made hmade => exact callOk_filtered hq ⟨top, htop, hgoal, hmade⟩ ih
      · next hgoal => exact ih _ (hq.expand htop hgoal)

/-- The candidate of the best path, before it is marked. -/
def topMade (g : NBestGenerator) : Option Made :=
  if g.options.onlyFirstInnerSegment then g.makePrefixCandidateFromBestPath.map Prod.snd
  else g.makeCandidateFromBestPath.bind Prod.snd

/-- The candidate is made of the best path. -/
def FromBestPath (g : NBestGenerator) (m : Made) : Prop :=
  ∃ top attributes, g.topMade = some top ∧
    m = { top with candidate := { top.candidate with attributes } }

theorem callOk_next (hs : g.AllBuilt s.agenda) (hr : g.next agenda filter s = some r) :
    g.CallOk (fun m => (∃ e, g.FromElement e m) ∨ g.FromBestPath m) r := by
  have hloop : ∀ s : NBestState σ, g.AllBuilt s.agenda →
      g.CallOk (fun m => (∃ e, g.FromElement e m) ∨ g.FromBestPath m)
        (g.searchLoop agenda filter (kMaxTrial + 1) s) := fun s hs =>
    have h := callOk_searchLoop (kMaxTrial + 1) s hs
    ⟨h.agenda, fun m hm => .inl (h.made m hm)⟩
  have htop : ∀ {made : Made}, g.topMade = some made → g.FromBestPath { made with candidate :=
      if g.isSuggestion then
        { made.candidate with
          attributes := made.candidate.attributes ||| Attribute.REALTIME_CONVERSION }
      else made.candidate } := fun {made} hmade => by
    split
    · exact ⟨made, _, hmade, rfl⟩
    · exact ⟨made, made.candidate.attributes, hmade, rfl⟩
  unfold next at hr
  dsimp only at hr
  split at hr
  · cases hr
    exact hloop s hs
  · split at hr
    · next hfirst =>
      obtain ⟨⟨topNodes, made⟩, hmade, rfl⟩ := Option.map_eq_some_iff.mp hr
      exact callOk_filtered hs (.inr (htop (by rw [topMade, if_pos hfirst, hmade]; rfl))) hloop
    · next hfirst =>
      obtain ⟨⟨topNodes, made⟩, hmade, rfl⟩ := Option.map_eq_some_iff.mp hr
      cases made with
      | none => exact ⟨hs, by simp⟩
      | some made =>
        exact callOk_filtered hs (.inr (htop (by rw [topMade, if_neg hfirst, hmade]; rfl))) hloop

theorem Reached.allBuilt (h : g.Reached agenda filter s) : g.AllBuilt s.agenda := by
  induction h with
  | reset => exact allBuilt_reset agenda filter
  | next _ hr ih => exact (callOk_next ih hr).agenda

/-- Where the best path can be followed, a call comes to an end. -/
theorem exists_next (agenda : Agenda) (filter : CandidateFilter σ) {topNodes : List NodeId}
    {made : Option Made} {topNodes' : List NodeId} {made' : Made}
    (h : g.makeCandidateFromBestPath = some (topNodes, made))
    (h' : g.makePrefixCandidateFromBestPath = some (topNodes', made')) (s : NBestState σ) :
    ∃ r, g.next agenda filter s = some r := by
  unfold next
  dsimp only
  rw [h, h']
  split
  · exact ⟨_, rfl⟩
  · split
    · exact ⟨_, rfl⟩
    · exact ⟨_, rfl⟩

end runs

/-! ## Candidates from elements -/

theorem Built.of_append {rest : List Entry} : ∀ {c₀ c₁ : List Entry} {e elm : Entry},
    g.Built e rest → rest = c₀ ++ elm :: c₁ → g.Built elm c₁
  | [], _, _, _, h, hrest => by
    cases h with
    | start => cases hrest
    | expand h =>
      cases hrest
      exact h
  | _ :: _, _, _, _, h, hrest => by
    cases h with
    | start => cases hrest
    | expand h =>
      obtain ⟨rfl, htail⟩ := List.cons.inj hrest
      exact h.of_append htail

/-- No inner segment ends in between. -/
def NoBoundary (g : NBestGenerator) (nodes : List NodeId) : Prop :=
  nodes.IsChain fun u v => g.segmenter.isBoundary (g.node u) (g.node v) false = false

/-- The loop ends in the last element, or in front of a boundary. -/
theorem firstInnerSegment_spec : ∀ {c : List Entry} {nodes : List NodeId} {elm : Entry},
    g.firstInnerSegment c = some (nodes, elm) →
    (∃ c₀, c = c₀ ++ [elm] ∧ nodes = c₀.map Entry.node ∧ g.NoBoundary (c.map Entry.node)) ∨
    ∃ c₀ next c₁, c = c₀ ++ elm :: next :: c₁ ∧ nodes = (c₀ ++ [elm]).map Entry.node ∧
      g.NoBoundary nodes ∧ g.segmenter.isBoundary (g.node elm.node) (g.node next.node) false = true
  | [], _, _, h => by cases h
  | [e], _, _, h => by
    cases h
    exact .inl ⟨[], rfl, rfl, List.isChain_singleton _⟩
  | e :: next :: rest, nodes, elm, h => by
    rw [firstInnerSegment] at h
    split at h
    · cases h
    · split at h
      · next hboundary =>
        cases h
        exact .inr ⟨[], next, rest, rfl, rfl, List.isChain_singleton _, hboundary⟩
      · next hno =>
        have hno := Bool.eq_false_iff.mpr hno
        obtain ⟨⟨ns, last⟩, hns, heq⟩ := Option.map_eq_some_iff.mp h
        cases heq
        rcases firstInnerSegment_spec hns with ⟨c₀, hc, hnodes, hchain⟩ |
          ⟨c₀, next', c₁, hc, hnodes, hchain, hboundary⟩
        · refine .inl ⟨e :: c₀, by rw [hc, List.cons_append], by rw [hnodes, List.map_cons], ?_⟩
          exact List.isChain_cons_cons.mpr ⟨hno, hchain⟩
        · refine .inr ⟨e :: c₀, next', c₁, by rw [hc, List.cons_append],
            by rw [hnodes, List.cons_append, List.map_cons], ?_, hboundary⟩
          have hhead : ns.head? = some next.node := by
            rw [hnodes]
            cases c₀ with
            | nil =>
              obtain ⟨rfl, -⟩ := List.cons.inj hc
              rfl
            | cons x c₀ =>
              obtain ⟨rfl, -⟩ := List.cons.inj hc
              rfl
          exact List.isChain_cons.mpr ⟨fun y hy => by
            rw [hhead] at hy
            cases hy
            exact hno, hchain⟩

end NBestGenerator

end Mozkey.Converter
