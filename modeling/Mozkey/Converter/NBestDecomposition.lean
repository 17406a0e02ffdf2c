import Mozkey.Converter.NBestCandidates

/-!
# Candidates are paths

Every candidate that `Next` makes is a path from the begin node to the end node, with the costs
that the comment in `Next` gives, whether it is made of an element or of the best path. Only the
penalties for weak connections are left out of the best path, and only in the mode for first inner
segments a candidate may end before the end node.

* `FromElement.decomposes` — a candidate of an element
* `OnBestPath.makeCandidateFromBestPath_eq` — the candidate of the best path
* `OnBestPath.accumulated_eq` — an element along the best path costs the same
* `next_decomposed` — **all candidates of all runs**
* `not_always_asExpected` — in which ways a candidate may differ
-/

namespace Mozkey.Converter

open Infra Base Infra.ShortestPath

namespace NBestGenerator

variable {g : NBestGenerator} {connector : TransitionCost} {keys : List Bytes} {m : Made}
  {u v : NodeId} {mid nodes : List NodeId}

/-! ## The candidate of an element -/

theorem costs_makeCandidate (costs : Costs) (nodes : List NodeId) (element : Option QueueElement) :
    (Made.mk (g.makeCandidate costs nodes) nodes element).costs = costs := rfl

theorem exists_concat {a b l : List NodeId} (h : a ++ b = l ++ [v]) (hb : b ≠ []) :
    ∃ rest, b = rest ++ [v] ∧ l = a ++ rest := by
  obtain ⟨rest, w, rfl⟩ := (List.eq_nil_or_concat' b).resolve_left hb
  rw [← List.append_assoc] at h
  obtain ⟨hl, hw⟩ := List.append_inj' h rfl
  exact ⟨rest, by rw [(List.cons.inj hw).1], hl.symm⟩

/-- **A candidate of an element** has all of its nodes, or those of its first inner segment. -/
theorem FromElement.decomposes {e : QueueElement} (hg : g.Spans keys) (h : g.FromElement e m) :
    m.element = some e ∧ ∃ u rest v, e.path = u :: (m.nodes ++ rest) ++ [v] ∧
      g.EdgeToEdge u (m.nodes ++ rest) v ∧
      (rest = [] ∧ m.costs = g.documented g.getTransitionCost u m.nodes v +
          g.weakPenalties e.path ∨
        g.options.onlyFirstInnerSegment = true ∧ g.NoBoundary m.nodes ∧
          m.costs = g.documentedUpTo g.getTransitionCost u m.nodes +
            g.weakPenalties (u :: m.nodes)) := by
  obtain ⟨hbuilt, hgoal, hmade⟩ := h
  have hback := hbuilt.backwards hg
  have hhas := hback.has _ List.mem_cons_self
  rw [node, node, hg.sound.endPos_eq hhas, hg.sound.endPos_eq hg.has_begin] at hgoal
  unfold makeCandidateFromElement at hmade
  split at hmade
  · cases hmade
  · next hne =>
    obtain ⟨n, nodes, v, hpath, htiles⟩ := hback.tiles hg hgoal (by simpa using hne)
    have hwhole : e.entry.costs = g.documented g.getTransitionCost e.entry.node (n :: nodes) v +
        g.weakPenalties (e.entry.node :: n :: nodes ++ [v]) := by
      rw [hbuilt.costs_eq, hpath]
      exact htiles.onEdges.accumulated_eq _ htiles.isRightEdge
    have hpath' : e.path = e.entry.node :: n :: nodes ++ [v] := by
      simp [QueueElement.path, hpath]
    split at hmade
    · next hfirst =>
      obtain ⟨⟨ns, elm⟩, hsegment, rfl⟩ := Option.map_eq_some_iff.mp hmade
      refine ⟨rfl, ?_⟩
      rcases firstInnerSegment_spec hsegment with ⟨c₀, hc, rfl, -⟩ |
        ⟨c₀, next, c₁, hc, rfl, hno, -⟩
      · -- The loop has come to the end, where nothing has been added up.
        have helm : elm.costs = {} := (hbuilt.of_append hc).costs_eq
        rw [hc, List.map_append] at hpath
        obtain ⟨hnodes, -⟩ := List.append_inj' hpath rfl
        refine ⟨e.entry.node, [], v, ?_, ?_, .inl ⟨rfl, ?_⟩⟩
        · simp [hpath', hnodes]
        · simpa [hnodes] using htiles.edgeToEdge
        · rw [costs_makeCandidate, helm, Costs.sub_zero, hwhole, hpath', hnodes]
      · have helm := (hbuilt.of_append hc).costs_eq
        have hsplit := hpath
        rw [hc, List.append_cons, List.map_append] at hsplit
        obtain ⟨rest, hrest, hnodes⟩ := exists_concat hsplit (by simp)
        refine ⟨e.entry.node, rest, v, ?_, ?_, .inr ⟨hfirst, hno, ?_⟩⟩
        · rw [hpath', hnodes]
        · rw [← hnodes]
          exact htiles.edgeToEdge
        · have hsum : e.entry.costs =
              g.accumulated (e.entry.node :: (c₀ ++ [elm]).map Entry.node) + elm.costs := by
            have hsum := accumulated_append (g := g) (e.entry.node :: c₀.map Entry.node)
              ((next :: c₁).map Entry.node) elm.node
            simpa [hbuilt.costs_eq, helm, hc] using hsum
          obtain ⟨n', ns, hns⟩ := List.exists_cons_of_ne_nil
            (show (c₀ ++ [elm]).map Entry.node ≠ [] by simp)
          rw [costs_makeCandidate, hsum, Costs.add_sub_cancel, hns]
          rw [hns] at hnodes
          cases hnodes
          exact htiles.onEdges.of_append.accumulated_upTo _
    · cases hmade
      have hnodes : e.next.dropLast.map Entry.node = n :: nodes := by
        rw [List.map_dropLast, hpath, List.dropLast_concat]
      refine ⟨rfl, e.entry.node, [], v, ?_, ?_, .inl ⟨rfl, ?_⟩⟩
      · simp [hpath', hnodes]
      · simpa [hnodes] using htiles.edgeToEdge
      · rw [costs_makeCandidate, hwhole, hpath', hnodes]

/-! ## The candidate of the best path -/

/-- What the links and the costs are between the begin and the end node on the best path. -/
structure OnBestPath (g : NBestGenerator) (connector : TransitionCost) (keys : List Bytes)
    (mid : List NodeId) : Prop where
  sound : g.lattice.Sound keys
  follows : (g.beginNode :: mid ++ [g.endNode]).IsChain (g.lattice.Follows keys)
  cost : (g.beginNode :: mid ++ [g.endNode]).IsChain fun u v =>
    g.cost v = g.cost u + g.lattice.weight connector g.connector u v
  prev : (g.beginNode :: mid ++ [g.endNode]).IsChain fun u v => g.search.labels.prev v = some u
  next : (g.beginNode :: mid ++ [g.endNode]).IsChain fun u v => g.search.next u = some v
  has : ∀ v ∈ g.beginNode :: mid ++ [g.endNode], g.lattice.Has v
  nodup : (g.beginNode :: mid ++ [g.endNode]).Nodup
  length_le : mid.length ≤ g.lattice.inserted.length
  ne_nil : mid ≠ []

theorem onBestPath (hl : g.lattice.Sound keys) {p pre post : List NodeId}
    (hp : g.lattice.BestPath connector g.connector keys g.search p)
    (hsplit : p = pre ++ g.beginNode :: mid ++ g.endNode :: post) (hne : mid ≠ []) :
    g.OnBestPath connector keys mid := by
  obtain ⟨hnodup, hlen⟩ := Lattice.path_length hl hp.path
  have hinside : g.beginNode :: mid ++ [g.endNode] <:+: p := ⟨pre, post, by simp [hsplit]⟩
  have hsuffix : ∀ {R : NodeId → NodeId → Prop}, p.IsChain R →
      (g.beginNode :: mid ++ [g.endNode]).IsChain R := by
    intro R h
    have hmid : p = pre ++ ((g.beginNode :: mid ++ [g.endNode]) ++ post) := by simp [hsplit]
    rw [hmid] at h
    exact (List.isChain_append.mp (List.isChain_append.mp h).2.1).1
  refine ⟨hl, hsuffix hp.path.chain, hsuffix hp.cost, hsuffix hp.prev, hsuffix hp.next,
    fun v hv => ?_, hnodup.sublist hinside.sublist, ?_, hne⟩
  · have hhas := hp.path.chain.backwards_induction g.lattice.Has p
      (fun u v hu _ => (Lattice.mem_endNodes.mp hu.adjacent).1) fun hne => by
        have hlast := hp.path.last
        rw [List.getLast?_eq_some_getLast hne] at hlast
        rw [Option.some.inj hlast]
        trivial
    exact hhas v (hinside.subset hv)
  · have := hinside.length_le
    simp at this
    omega

theorem followNext_eq {next : NodeId → Option NodeId} {e : NodeId} : ∀ {mid : List NodeId}
    {b : NodeId} {fuel : Nat}, (b :: mid ++ [e]).IsChain (fun u v => next u = some v) →
    e ∉ mid → mid.length < fuel → followNext next e fuel (next b) = some mid
  | [], b, fuel, h, _, hfuel => by
    obtain ⟨n, rfl⟩ : ∃ n, fuel = n + 1 := ⟨fuel - 1, by simp at hfuel; omega⟩
    have hb : next b = some e := by simpa using h
    simp [hb, followNext]
  | m :: mid, b, fuel, h, he, hfuel => by
    obtain ⟨n, rfl⟩ : ∃ n, fuel = n + 1 := ⟨fuel - 1, by simp at hfuel; omega⟩
    obtain ⟨hb, hrest⟩ := List.isChain_cons_cons.mp h
    have hem : m ≠ e := fun heq => he (heq ▸ List.mem_cons_self)
    have ih := followNext_eq hrest (fun h => he (List.mem_cons_of_mem m h))
      (Nat.lt_of_succ_lt_succ hfuel)
    simp [hb, followNext, hem, ih]

theorem cutBetween_eq_append {α : Type} (p : α → α → Bool) : ∀ l : List α,
    ∃ rest, l = cutBetween p l ++ rest
  | [] => ⟨[], rfl⟩
  | [_] => ⟨[], rfl⟩
  | a :: b :: l => by
    rw [cutBetween]
    split
    · exact ⟨b :: l, rfl⟩
    · obtain ⟨rest, hrest⟩ := cutBetween_eq_append p (b :: l)
      exact ⟨rest, congrArg (a :: ·) hrest⟩

theorem cutBetween_ne_nil {α : Type} {p : α → α → Bool} : ∀ {l : List α}, l ≠ [] →
    cutBetween p l ≠ []
  | [], h => absurd rfl h
  | [_], _ => List.cons_ne_nil _ _
  | _ :: _ :: _, _ => by
    rw [cutBetween]
    split <;> exact List.cons_ne_nil _ _

theorem forall_mem_of_isChain_cons {α : Type} {R : α → α → Prop} {P : α → Prop}
    (hR : ∀ a b, R a b → P b) : ∀ {a : α} {l : List α}, (a :: l).IsChain R → ∀ b ∈ l, P b
  | _, [], _ => by simp
  | a, b :: l, h => by
    obtain ⟨hab, hrest⟩ := List.isChain_cons_cons.mp h
    exact List.forall_mem_cons.mpr ⟨hR a b hab, forall_mem_of_isChain_cons hR hrest⟩

theorem forall_mem_of_isChain_concat {α : Type} {R : α → α → Prop} {P : α → Prop}
    (hR : ∀ a b, R a b → P a) : ∀ {l : List α} {b : α}, (l ++ [b]).IsChain R → ∀ a ∈ l, P a
  | [], _, _ => by simp
  | [a], b, h => by simpa using hR a b (by simpa using h)
  | a :: a' :: l, b, h => by
    obtain ⟨haa', hrest⟩ := List.isChain_cons_cons.mp h
    exact List.forall_mem_cons.mpr ⟨hR a a' haa', forall_mem_of_isChain_concat hR hrest⟩

namespace OnBestPath

/-- The transition costs that Viterbi has asked for. -/
abbrev viterbiCost (g : NBestGenerator) (connector : TransitionCost) : NodeId → NodeId → Int :=
  g.lattice.transition connector g.connector

theorem bestNodes_eq (h : g.OnBestPath connector keys mid) : g.bestNodes = some mid := by
  have hlen := h.length_le
  refine followNext_eq h.next (fun he => ?_) (by omega)
  have hnodup := (List.nodup_append.mp h.nodup).2.2 g.endNode (List.mem_cons_of_mem _ he) g.endNode
  exact hnodup (List.mem_singleton.mpr rfl) rfl

/-- Along a part of the path the cost grows by the transition and the word costs. -/
theorem cost_eq {p : List NodeId} (hchain : (u :: p).IsChain fun u v =>
      g.cost v = g.cost u + g.lattice.weight connector g.connector u v)
    (hlast : (u :: p).getLast? = some v) :
    g.cost v = g.cost u + pathCost (viterbiCost g connector) (u :: p) + g.wcosts p := by
  have hweight : pathCost (g.lattice.weight connector g.connector) (u :: p) =
      pathCost (viterbiCost g connector) (u :: p) + g.wcosts p :=
    (pathCost_add _ _ _).trans (congrArg (_ + ·) (pathCost_right _ u p))
  rw [eq_add_pathCost hchain hlast, hweight, Int.add_assoc]

theorem adjacent (h : g.OnBestPath connector keys mid) :
    (g.beginNode :: mid ++ [g.endNode]).IsChain fun u v => g.lattice.stop u = g.lattice.start v :=
  h.follows.imp fun _ _ huv => (Lattice.mem_endNodes.mp huv.adjacent).2.2

theorem wide (h : g.OnBestPath connector keys mid) :
    ∀ x ∈ mid, g.lattice.start x < g.lattice.stop x := by
  intro x hx
  have hxb : x ≠ .bos := forall_mem_of_isChain_cons (fun _ _ huv => Lattice.Follows.ne_bos huv)
    h.follows x (List.mem_append_left _ hx)
  have hxe : x ≠ .eos := forall_mem_of_isChain_concat
    (fun u v (huv : g.lattice.Follows keys u v) => (Lattice.mem_endNodes.mp huv.adjacent).2.1)
    h.follows x (List.mem_cons_of_mem _ hx)
  exact h.sound.start_lt_stop (h.has x (List.mem_cons_of_mem _ (List.mem_append_left _ hx))) hxb hxe

theorem spans (h : g.OnBestPath connector keys mid) : g.Spans keys := by
  obtain ⟨n, nodes, rfl⟩ := List.exists_cons_of_ne_nil h.ne_nil
  obtain ⟨hadj, hrest⟩ : g.lattice.stop g.beginNode = g.lattice.start n ∧
      (n :: nodes ++ [g.endNode]).IsChain fun u v => g.lattice.stop u = g.lattice.start v :=
    List.isChain_cons_cons.mp h.adjacent
  refine ⟨h.sound, h.has _ List.mem_cons_self, h.has _ (by simp), ?_⟩
  rw [hadj]
  exact start_lt hrest h.wide n List.mem_cons_self

theorem tiles {n : NodeId} (h : g.OnBestPath connector keys (n :: nodes)) :
    g.Tiles g.beginNode n nodes g.endNode :=
  h.spans.tiles h.has h.adjacent rfl rfl h.wide

/-- The first and the last of the nodes in between. -/
theorem ends {n : NodeId} (h : g.OnBestPath connector keys (n :: nodes)) :
    g.search.next g.beginNode = some n ∧
      ∃ last, (n :: nodes).getLast? = some last ∧
        g.search.labels.prev g.endNode = some last := by
  have hlast := List.getLast?_eq_some_getLast (List.cons_ne_nil n nodes)
  refine ⟨(List.isChain_cons_cons.mp h.next).1, _, hlast, ?_⟩
  have hlast' : (g.beginNode :: n :: nodes).getLast? = some ((n :: nodes).getLast (by simp)) := by
    rw [List.getLast?_cons_cons, hlast]
  exact (List.isChain_append.mp h.prev).2.2 _ hlast' _ rfl

/-- The top candidate costs what the comment in `Next` says, without penalties. -/
theorem makeCandidateFromBestPath_eq (h : g.OnBestPath connector keys mid) :
    ∃ topNodes made, g.makeCandidateFromBestPath = some (topNodes, made) ∧
      ∀ m, made = some m → m = ⟨g.makeCandidate
        (g.documented (viterbiCost g connector) g.beginNode mid g.endNode) mid, mid, none⟩ := by
  obtain ⟨n, nodes, rfl⟩ := List.exists_cons_of_ne_nil h.ne_nil
  obtain ⟨hfirst, last, hlast, hprev⟩ := h.ends
  have hmid : (n :: nodes ++ [g.endNode]).IsChain fun u v =>
      g.cost v = g.cost u + g.lattice.weight connector g.connector u v :=
    (List.isChain_cons_cons.mp h.cost).2
  have hend : (g.beginNode :: (n :: nodes ++ [g.endNode])).getLast? = some g.endNode :=
    List.getLast?_concat (l := g.beginNode :: n :: nodes)
  have hall : g.cost g.endNode = g.cost g.beginNode +
      pathCost (viterbiCost g connector) (g.beginNode :: n :: nodes ++ [g.endNode]) +
        g.wcosts (n :: nodes ++ [g.endNode]) := cost_eq h.cost hend
  have hinner := cost_eq (List.isChain_append.mp hmid).1 hlast
  unfold makeCandidateFromBestPath
  rw [h.bestNodes_eq, hfirst, hprev]
  simp only [Option.bind_eq_bind, Option.bind_some]
  refine ⟨_, _, rfl, fun m hm => ?_⟩
  split at hm
  · cases hm
  · next hlen =>
    have hcut : cutBetween (fun u v => isBetweenAlphabetKeys (g.node u) (g.node v)) (n :: nodes) =
        n :: nodes := by
      obtain ⟨rest, hrest⟩ := cutBetween_eq_append
        (fun u v => isBetweenAlphabetKeys (g.node u) (g.node v)) (n :: nodes)
      have hrest' := congrArg List.length hrest
      rw [List.length_append] at hrest'
      obtain rfl : rest = [] := List.length_eq_zero_iff.mp (by omega)
      rw [List.append_nil] at hrest
      exact hrest.symm
    rw [hcut] at hm
    cases hm
    have hwcosts : g.wcosts (n :: nodes ++ [g.endNode]) =
        g.wcosts (n :: nodes) + (g.node g.endNode).wcost := by
      rw [wcosts, List.map_append, List.sum_append, ← wcosts]
      simp
    have htail : ((n :: nodes).tail.map fun v => (g.node v).wcost).sum = g.wcosts nodes := rfl
    rw [htail]
    congr 2
    refine Costs.ext ?_ ?_ ?_
    · rw [hwcosts] at hall
      simp only [documented]
      omega
    · simp only [documented]
      omega
    · have hn : g.wcosts (n :: nodes) = (g.node n).wcost + g.wcosts nodes := rfl
      simp only [documented]
      omega

/-- The first inner segment of the best path, which has the costs up to its end. -/
theorem makePrefixCandidateFromBestPath_eq (h : g.OnBestPath connector keys mid) :
    ∃ nodes rest, mid = nodes ++ rest ∧
      g.makePrefixCandidateFromBestPath = some (nodes, ⟨g.makeCandidate
        ({ cost := g.cost g.beginNode } +
          g.documentedUpTo (viterbiCost g connector) g.beginNode nodes) nodes, nodes, none⟩) := by
  obtain ⟨rest, hrest⟩ := cutBetween_eq_append
    (fun u v => g.segmenter.isBoundary (g.node u) (g.node v) false) mid
  obtain ⟨n, topNodes, htop⟩ := List.exists_cons_of_ne_nil (cutBetween_ne_nil
    (p := fun u v => g.segmenter.isBoundary (g.node u) (g.node v) false) h.ne_nil)
  unfold makePrefixCandidateFromBestPath
  rw [h.bestNodes_eq]
  simp only [Option.bind_eq_bind, Option.bind_some]
  rw [htop] at hrest ⊢
  subst hrest
  have hfirst := (show g.OnBestPath connector keys (n :: (topNodes ++ rest)) from h).ends.1
  have hlast := List.getLast?_eq_some_getLast (List.cons_ne_nil n topNodes)
  have hall : (g.beginNode :: n :: topNodes).IsChain fun u v =>
      g.cost v = g.cost u + g.lattice.weight connector g.connector u v := by
    have hcost := h.cost
    have hsplit : g.beginNode :: (n :: topNodes ++ rest) ++ [g.endNode] =
        (g.beginNode :: n :: topNodes) ++ (rest ++ [g.endNode]) := by simp
    rw [hsplit] at hcost
    exact (List.isChain_append.mp hcost).1
  have hupTo := cost_eq hall (by rw [List.getLast?_cons_cons, hlast])
  have hinner := cost_eq (List.isChain_cons_cons.mp hall).2 hlast
  have htail : ((n :: topNodes).tail.map fun v => (g.node v).wcost).sum = g.wcosts topNodes := rfl
  have hn : g.wcosts (n :: topNodes) = (g.node n).wcost + g.wcosts topNodes := rfl
  refine ⟨n :: topNodes, rest, rfl, ?_⟩
  rw [hfirst, hlast, htail]
  simp only [Option.bind_some]
  congr 4
  refine Costs.ext ?_ ?_ ?_
  · simp only [Costs.add_cost, documentedUpTo]
    omega
  · simp only [Costs.add_structureCost, documentedUpTo]
    omega
  · simp only [Costs.add_wcost, documentedUpTo]
    omega

end OnBestPath

/-! ## The two ways to the same costs -/

/-- Behind the BOS node and in front of the EOS node `conn` asks for the same as `connector`. -/
structure NoBonusAtEnds (g : NBestGenerator) (connector : TransitionCost) : Prop where
  bos : ∀ lid, connector g.lattice.bosNode.rid lid = g.connector g.lattice.bosNode.rid lid
  eos : ∀ rid, connector rid g.lattice.eosNode.lid = g.connector rid g.lattice.eosNode.lid

theorem NoBonusAtEnds.getTransitionCost_eq (h : g.NoBonusAtEnds connector)
    (huv : g.lattice.Follows keys u v) :
    g.lattice.transition connector g.connector u v = g.getTransitionCost u v := by
  have hfree : (g.node v).constrainedPrev.any (· ≠ u) = false := by
    cases hc : (g.node v).constrainedPrev with
    | none => rfl
    | some c => simp [huv.constrained c hc]
  rw [getTransitionCost, hfree, Lattice.transition]
  split
  · next hends =>
    rcases hends with rfl | rfl
    · exact h.bos _
    · exact h.eos _
  · rfl

/-- Only where no boundary is asked for at the edges there are weak connections. -/
theorem weakPenalties_eq_zero (h : g.options.boundaryMode ≠ .onlyMid) (p : List NodeId) :
    g.weakPenalties p = {} := by
  have hweak : ∀ u v, g.isWeak u v = 0 := by
    intro u v
    rw [isWeak, if_neg]
    unfold boundaryCheck Segmenter.boundaryCheck
    split
    · simp
    · split
      · simp
      · cases hmode : g.options.boundaryMode with
        | strict =>
          simp only [Segmenter.checkStrict]
          split <;> simp
        | onlyMid => exact absurd hmode h
        | onlyEdge =>
          simp only [Segmenter.checkOnlyEdge]
          split <;> simp
  have hzero : pathCost g.isWeak p = 0 := by
    have hw : g.isWeak = fun u v => 0 * g.isWeak u v := by
      funext u v
      simp [hweak]
    rw [hw, pathCost_mul, Int.zero_mul]
  rw [weakPenalties, hzero]
  rfl

/-- **The best path** costs as an element along it, but for the penalties. -/
theorem OnBestPath.accumulated_eq (h : g.OnBestPath connector keys mid)
    (hbonus : g.NoBonusAtEnds connector) :
    g.accumulated (g.beginNode :: mid ++ [g.endNode]) =
      g.documented (OnBestPath.viterbiCost g connector) g.beginNode mid g.endNode +
        g.weakPenalties (g.beginNode :: mid ++ [g.endNode]) := by
  obtain ⟨n, nodes, rfl⟩ := List.exists_cons_of_ne_nil h.ne_nil
  have hsame : (g.beginNode :: n :: nodes ++ [g.endNode]).IsChain fun u v =>
      OnBestPath.viterbiCost g connector u v = g.getTransitionCost u v :=
    h.follows.imp fun _ _ huv => hbonus.getTransitionCost_eq huv
  have hinner : (n :: nodes).IsChain fun u v =>
      OnBestPath.viterbiCost g connector u v = g.getTransitionCost u v :=
    (List.isChain_append.mp (List.isChain_cons_cons.mp hsame).2).1
  rw [h.tiles.onEdges.accumulated_eq _ h.tiles.isRightEdge, documented, documented,
    pathCost_congr hsame, pathCost_congr hinner]

/-! ## All candidates -/

/-- What a candidate is made of and what it costs. -/
inductive Decomposed (g : NBestGenerator) (connector : TransitionCost) (mid : List NodeId)
    (m : Made) : Prop
  /-- All nodes of an element between its edges. -/
  | element (e : QueueElement) (u v : NodeId) (helement : m.element = some e)
      (hpath : e.path = u :: m.nodes ++ [v]) (hspan : g.EdgeToEdge u m.nodes v)
      (hcosts : m.costs = g.documented g.getTransitionCost u m.nodes v + g.weakPenalties e.path)
  /-- The first inner segment of an element. -/
  | firstSegment (e : QueueElement) (u v : NodeId) (rest : List NodeId)
      (hmode : g.options.onlyFirstInnerSegment = true) (helement : m.element = some e)
      (hpath : e.path = u :: (m.nodes ++ rest) ++ [v]) (hspan : g.EdgeToEdge u (m.nodes ++ rest) v)
      (hno : g.NoBoundary m.nodes)
      (hcosts : m.costs = g.documentedUpTo g.getTransitionCost u m.nodes +
        g.weakPenalties (u :: m.nodes))
  /-- All nodes of the best path, without penalties. -/
  | bestPath (hmode : g.options.onlyFirstInnerSegment = false) (helement : m.element = none)
      (hnodes : m.nodes = mid) (hspan : g.EdgeToEdge g.beginNode mid g.endNode)
      (hcosts : m.costs = g.documented (g.lattice.transition connector g.connector) g.beginNode
        mid g.endNode)
      (haccumulated : g.NoBonusAtEnds connector →
        g.accumulated (g.beginNode :: mid ++ [g.endNode]) =
            m.costs + g.weakPenalties (g.beginNode :: mid ++ [g.endNode]) ∧
          (g.options.boundaryMode ≠ .onlyMid →
            g.accumulated (g.beginNode :: mid ++ [g.endNode]) = m.costs))
  /-- The first inner segment of the best path, with the cost that its last node has. -/
  | firstSegmentOfBestPath (rest : List NodeId) (hmode : g.options.onlyFirstInnerSegment = true)
      (helement : m.element = none) (hnodes : mid = m.nodes ++ rest)
      (hcosts : m.costs = { cost := g.cost g.beginNode } +
        g.documentedUpTo (g.lattice.transition connector g.connector) g.beginNode m.nodes)

theorem FromElement.decomposed {e : QueueElement} (hg : g.Spans keys) (h : g.FromElement e m) :
    g.Decomposed connector mid m := by
  obtain ⟨helement, u, rest, v, hpath, hspan, ⟨rfl, hcosts⟩ | ⟨hmode, hno, hcosts⟩⟩ :=
    h.decomposes hg
  · rw [List.append_nil] at hpath hspan
    exact .element e u v helement hpath hspan hcosts
  · exact .firstSegment e u v rest hmode helement hpath hspan hno hcosts

theorem FromBestPath.decomposed (hg : g.OnBestPath connector keys mid) (h : g.FromBestPath m) :
    g.Decomposed connector mid m := by
  obtain ⟨top, attributes, htop, rfl⟩ := h
  rw [topMade] at htop
  split at htop
  · next hmode =>
    obtain ⟨nodes, rest, hnodes, heq⟩ := hg.makePrefixCandidateFromBestPath_eq
    rw [heq] at htop
    cases htop
    exact .firstSegmentOfBestPath rest hmode rfl hnodes rfl
  · next hmode =>
    obtain ⟨topNodes, made, heq, hmade⟩ := hg.makeCandidateFromBestPath_eq
    rw [heq] at htop
    obtain rfl := hmade top htop
    obtain ⟨n, nodes, rfl⟩ := List.exists_cons_of_ne_nil hg.ne_nil
    refine .bestPath (Bool.eq_false_iff.mpr hmode) rfl rfl hg.tiles.edgeToEdge rfl fun hbonus => ?_
    have haccumulated := hg.accumulated_eq hbonus
    refine ⟨haccumulated, fun hmode => ?_⟩
    rw [haccumulated, weakPenalties_eq_zero hmode, Costs.add_zero]
    rfl

/-- The key and the value are those of the nodes. -/
structure KeyAndValue (g : NBestGenerator) (m : Made) : Prop where
  key : m.candidate.key = m.nodes.flatMap fun v => (g.node v).key
  value : m.candidate.value = m.nodes.flatMap fun v => (g.node v).value

theorem FromElement.keyAndValue {e : QueueElement} (h : g.FromElement e m) : g.KeyAndValue m := by
  have hmade := h.made
  unfold makeCandidateFromElement at hmade
  split at hmade
  · cases hmade
  · split at hmade
    · obtain ⟨_, _, rfl⟩ := Option.map_eq_some_iff.mp hmade
      exact ⟨rfl, rfl⟩
    · cases hmade
      exact ⟨rfl, rfl⟩

theorem FromBestPath.keyAndValue (hg : g.OnBestPath connector keys mid)
    (h : g.FromBestPath m) : g.KeyAndValue m := by
  obtain ⟨top, attributes, htop, rfl⟩ := h
  rw [topMade] at htop
  split at htop
  · obtain ⟨nodes, rest, hnodes, heq⟩ := hg.makePrefixCandidateFromBestPath_eq
    rw [heq] at htop
    cases htop
    exact ⟨rfl, rfl⟩
  · obtain ⟨topNodes, made, heq, hmade⟩ := hg.makeCandidateFromBestPath_eq
    rw [heq] at htop
    obtain rfl := hmade top htop
    exact ⟨rfl, rfl⟩

/-- The generator works on what Viterbi has left. -/
structure AfterViterbi (g : NBestGenerator) (connector : TransitionCost) (keys : List Bytes) :
    Prop where
  sound : g.lattice.Sound keys
  ne_nil : keys ≠ []
  search : g.lattice.viterbi connector g.connector keys = some g.search
  success : g.search.success = true

/-- **Candidates are paths with their costs**, whatever the filter and the heap do. -/
theorem next_decomposed (h : g.AfterViterbi connector keys) :
    ∃ p, g.lattice.BestPath connector g.connector keys g.search p ∧
      ∀ pre mid post, p = pre ++ g.beginNode :: mid ++ g.endNode :: post → mid ≠ [] →
      ∀ (σ : Type) (agenda : Agenda) (filter : CandidateFilter σ) (s : NBestState σ),
        g.Reached agenda filter s → ∃ r, g.next agenda filter s = some r ∧
          ∀ m ∈ r.made, g.KeyAndValue m ∧ g.Decomposed connector mid m := by
  obtain ⟨t, ht, hbest⟩ := Lattice.viterbi_bestPath connector g.connector h.sound h.ne_nil
  obtain rfl := Option.some.inj (h.search.symm.trans ht)
  obtain ⟨p, hp⟩ := hbest h.success
  refine ⟨p, hp, fun pre mid post hsplit hne σ agenda filter s hs => ?_⟩
  have hg := onBestPath h.sound hp hsplit hne
  obtain ⟨topNodes, made, heq, -⟩ := hg.makeCandidateFromBestPath_eq
  obtain ⟨nodes, rest, -, heq'⟩ := hg.makePrefixCandidateFromBestPath_eq
  obtain ⟨r, hr⟩ := exists_next agenda filter heq heq' s
  refine ⟨r, hr, fun m hm => ?_⟩
  rcases (callOk_next hs.allBuilt hr).made m hm with ⟨e, he⟩ | hm
  · exact ⟨he.keyAndValue, he.decomposed hg.spans⟩
  · exact ⟨hm.keyAndValue hg, hm.decomposed hg⟩

/-! ## A search -/

def noSearch : Lattice.Traversed := ⟨false, noLabels, fun _ => none⟩

/-- A generator from the BOS node on, for a node for each segment. -/
def twoNodes (connector : TransitionCost) (isBoundary : Bool) (endNode : NodeId)
    (options : NBestOptions) : NBestGenerator where
  lattice := Lattice.twoNodes
  search := (Lattice.twoNodes.viterbi connector Lattice.noCost [utf8 "a", utf8 "b"]).getD noSearch
  segmenter := ⟨fun _ _ => isBoundary⟩
  connector := Lattice.noCost
  posMatcher := {}
  beginNode := .bos
  endNode
  options
  isSuggestion := false

def rejectAll : CandidateFilter Unit := ⟨(), fun _ _ _ _ => (.badCandidate, ())⟩

/-- What the first call makes, if the filter rejects it all. -/
def firstMade (g : NBestGenerator) : Option (List Made) :=
  (g.next Heap.firstLeast rejectAll (g.reset Heap.firstLeast rejectAll)).map NextResult.made

/-- The costs and the nodes, and whether it is of an element. -/
def summary (made : List Made) : List (Costs × List NodeId × Bool) :=
  made.map fun m => (m.costs, m.nodes, m.element.isSome)

theorem afterViterbi_twoNodes (connector : TransitionCost) (isBoundary : Bool) (endNode : NodeId)
    (options : NBestOptions)
    (hsuccess : (twoNodes connector isBoundary endNode options).search.success = true) :
    (twoNodes connector isBoundary endNode options).AfterViterbi connector
      [utf8 "a", utf8 "b"] := by
  obtain ⟨t, ht, -⟩ := Lattice.viterbi_bestPath connector Lattice.noCost Lattice.sound_twoNodes
    (by decide)
  refine ⟨Lattice.sound_twoNodes, by decide, ?_, hsuccess⟩
  show Lattice.twoNodes.viterbi connector Lattice.noCost [utf8 "a", utf8 "b"] =
    some ((Lattice.twoNodes.viterbi connector Lattice.noCost [utf8 "a", utf8 "b"]).getD noSearch)
  rw [ht]
  rfl

/-- Both nodes are on the path. -/
theorem bestPath_twoNodes {p : List NodeId}
    (h : Lattice.twoNodes.BestPath Lattice.noCost Lattice.noCost [utf8 "a", utf8 "b"]
      (twoNodes Lattice.noCost true (.node 1) {}).search p) :
    p = [.bos, .node 0, .node 1, .eos] := by
  obtain ⟨hnodup, hlen⟩ := Lattice.path_length Lattice.sound_twoNodes h.path
  obtain ⟨q, y, rfl⟩ := (List.eq_nil_or_concat' p).resolve_left fun hp => by
    have hfirst := h.path.first
    simp [hp] at hfirst
  obtain rfl : y = .eos := by simpa using h.path.last
  cases q with
  | nil => exact absurd h.path.first (by decide)
  | cons x mid =>
    obtain rfl : x = .bos := by simpa using h.path.first
    have heos : .eos ∉ mid := fun hmem =>
      (List.nodup_append.mp hnodup).2.2 .eos (List.mem_cons_of_mem _ hmem) .eos (by simp) rfl
    have hle : mid.length < 3 := by
      have hinserted : Lattice.twoNodes.inserted.length = 2 := by decide
      simp at hlen
      omega
    have hfollow := followNext_eq h.next heos hle
    have hnodes : followNext (twoNodes Lattice.noCost true (.node 1) {}).search.next .eos 3
        ((twoNodes Lattice.noCost true (.node 1) {}).search.next .bos) =
        some [.node 0, .node 1] := by decide
    rw [Option.some.inj (hfollow.symm.trans hnodes)]
    rfl

theorem next_decomposed_twoNodes :
    ∃ made, (twoNodes Lattice.noCost true (.node 1) {}).firstMade = some made ∧
      summary made = [(⟨-1, 0, -1⟩, [.node 0], false), (⟨-1, 0, -1⟩, [.node 0], true)] ∧
      ∀ m ∈ made, (twoNodes Lattice.noCost true (.node 1) {}).KeyAndValue m ∧
        (twoNodes Lattice.noCost true (.node 1) {}).Decomposed Lattice.noCost [.node 0] m := by
  obtain ⟨p, hp, hmade⟩ := next_decomposed
    (afterViterbi_twoNodes Lattice.noCost true (.node 1) {} (by decide))
  obtain ⟨r, hr, hall⟩ := hmade [] [.node 0] [.eos] (bestPath_twoNodes hp) (by simp) Unit
    Heap.firstLeast rejectAll _ .reset
  have hfirst : (twoNodes Lattice.noCost true (.node 1) {}).firstMade = some r.made := by
    rw [firstMade, hr]
    rfl
  refine ⟨r.made, hfirst, ?_, hall⟩
  have hsummary : (twoNodes Lattice.noCost true (.node 1) {}).firstMade.map summary =
      some [(⟨-1, 0, -1⟩, [.node 0], false), (⟨-1, 0, -1⟩, [.node 0], true)] := by decide
  rw [hfirst] at hsummary
  exact Option.some.inj hsummary

/-! ## What costs something else -/

/-- What might be expected of every candidate: its nodes go from edge to edge, and the best path
costs as an element along it. -/
structure AsExpected (g : NBestGenerator) (m : Made) : Prop where
  covers : g.lattice.Covers (g.lattice.stop g.beginNode) (g.lattice.start g.endNode) m.nodes
  element : ∀ e, m.element = some e → ∃ u v, e.path = u :: m.nodes ++ [v] ∧
    m.costs = g.documented g.getTransitionCost u m.nodes v + g.weakPenalties e.path
  bestPath : m.element = none → m.costs = g.accumulated (g.beginNode :: m.nodes ++ [g.endNode])

/-- A candidate that is not as expected, between two nodes of the best path. -/
def Unexpected (g : NBestGenerator) (connector : TransitionCost) (keys : List Bytes) : Prop :=
  g.AfterViterbi connector keys ∧
    [.bos, .node 0, .node 1, .eos].IsChain (fun u v => g.search.next u = some v) ∧
    ∃ made, g.firstMade = some made ∧ ∃ m ∈ made, ¬ g.AsExpected m

theorem unexpected_twoNodes {isBoundary : Bool} {endNode : NodeId} {options : NBestOptions}
    (c : Costs) (nodes : List NodeId) (rest : List (Costs × List NodeId × Bool))
    (hsuccess : (twoNodes connector isBoundary endNode options).search.success = true)
    (hchain : [.bos, .node 0, .node 1, .eos].IsChain fun u v =>
      (twoNodes connector isBoundary endNode options).search.next u = some v)
    (hmade : (twoNodes connector isBoundary endNode options).firstMade.map summary =
      some ((c, nodes, false) :: rest))
    (hno : ¬ (nodes.getLast?.map Lattice.twoNodes.stop =
        some (Lattice.twoNodes.start endNode) ∧
      c = (twoNodes connector isBoundary endNode options).accumulated
        (.bos :: nodes ++ [endNode]))) :
    (twoNodes connector isBoundary endNode options).Unexpected connector
      [utf8 "a", utf8 "b"] := by
  refine ⟨afterViterbi_twoNodes _ _ _ _ hsuccess, hchain, ?_⟩
  obtain ⟨made, hfirst, hsummary⟩ := Option.map_eq_some_iff.mp hmade
  obtain ⟨m, made, rfl, hm, -⟩ := List.map_eq_cons_iff.mp hsummary
  obtain ⟨hcosts, hnodes⟩ := Prod.mk.inj hm
  obtain ⟨rfl, helement⟩ := Prod.mk.inj hnodes
  refine ⟨_, hfirst, m, List.mem_cons_self, fun h => hno ⟨h.covers.last, ?_⟩⟩
  rw [← hcosts]
  exact h.bestPath (by simpa using helement)

/-- What keeps candidates from being as expected: a mode in which only the first inner segment is
taken, the penalty for a weak connection, and a bonus behind the BOS node. -/
theorem not_always_asExpected :
    (twoNodes Lattice.noCost true .eos { onlyFirstInnerSegment := true }).Unexpected Lattice.noCost
        [utf8 "a", utf8 "b"] ∧
      (twoNodes Lattice.noCost false (.node 1) { boundaryMode := .onlyMid }).Unexpected
        Lattice.noCost [utf8 "a", utf8 "b"] ∧
      (twoNodes (fun _ _ => 5) true (.node 1) {}).Unexpected (fun _ _ => 5)
        [utf8 "a", utf8 "b"] := by
  refine ⟨?_, ?_, ?_⟩
  · exact unexpected_twoNodes ⟨-1, 0, -1⟩ [.node 0] [] (by decide) (by decide) (by decide)
      (by decide)
  · exact unexpected_twoNodes ⟨-1, 0, -1⟩ [.node 0] [(⟨3452, 1726, 1725⟩, [.node 0], true)]
      (by decide) (by decide) (by decide) (by decide)
  · exact unexpected_twoNodes ⟨4, 0, -1⟩ [.node 0] [(⟨-1, 0, -1⟩, [.node 0], true)]
      (by decide) (by decide) (by decide) (by decide)

end NBestGenerator

end Mozkey.Converter
