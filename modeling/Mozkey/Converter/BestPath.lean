import Mozkey.Converter.CheapestPath

/-!
# The path that Viterbi leaves

However large the costs are, every label that has been given is that of the node in front of it
and the cost of the step between them. A path that leads back to the BOS node therefore costs what
the labels at its ends differ by.

* `Labelled.viterbiLabels` — the labels
* `viterbi_bestPath` — **the path**
-/

namespace Mozkey.Converter

open Infra Base Infra.ShortestPath

namespace Lattice

/-- Nodes that begin up to `pos` may have been labelled, each behind the node that its label
names. -/
structure Labelled (l : Lattice) (connector conn : TransitionCost) (keys : List Bytes) (pos : Nat)
    (L : Labels NodeId) : Prop where
  bos : L.prev .bos = none
  start_le : ∀ v u, L.prev v = some u → l.start v ≤ pos
  follows : ∀ v u, L.prev v = some u → l.Follows keys u v
  cost : ∀ v u, L.prev v = some u → L.cost v = L.cost u + l.weight connector conn u v

variable {l : Lattice} {connector conn : TransitionCost} {keys : List Bytes} {u v : NodeId}
  {L : Labels NodeId} {pos : Nat}

theorem labelled_noLabels : l.Labelled connector conn keys pos noLabels :=
  ⟨rfl, fun _ _ h => (by cases h), fun _ _ h => (by cases h), fun _ _ h => (by cases h)⟩

namespace Labelled

theorem mono {pos' : Nat} (h : l.Labelled connector conn keys pos L) (hle : pos ≤ pos') :
    l.Labelled connector conn keys pos' L :=
  ⟨h.bos, fun v u hu => Nat.le_trans (h.start_le v u hu) hle, h.follows, h.cost⟩

/-- No label refers to a node that begins at `pos` or behind it. -/
theorem prev_ne (hl : l.Sound keys) (h : l.Labelled connector conn keys pos L)
    (hv : v ∈ l.beginNodes pos) {x : NodeId} (hx : L.prev x = some u) : u ≠ v := by
  rintro rfl
  obtain ⟨hhas, hub, hstart⟩ := mem_beginNodes.mp hv
  obtain ⟨-, hue, hstop⟩ := mem_endNodes.mp (h.follows x u hx).adjacent
  have := hl.start_lt_stop hhas hub hue
  have := h.start_le x u hx
  omega

theorem setLabel (hl : l.Sound keys) (h : l.Labelled connector conn keys pos L)
    (hv : v ∈ l.beginNodes pos) {prev : Option NodeId} {cost : Int}
    (hfollows : ∀ u, prev = some u → l.Follows keys u v)
    (hcost : ∀ u, prev = some u → cost = L.cost u + l.weight connector conn u v) :
    l.Labelled connector conn keys pos (setLabel L v prev cost) := by
  obtain ⟨-, hvb, hstart⟩ := mem_beginNodes.mp hv
  have hother : ∀ {x u}, x ≠ v → (Lattice.setLabel L v prev cost).prev x = some u →
      L.prev x = some u := fun hx hu => (setLabel_other hx).1 ▸ hu
  refine ⟨(setLabel_other (Ne.symm hvb)).1.trans h.bos, fun x u hx => ?_, fun x u hx => ?_,
    fun x u hx => ?_⟩
  · by_cases hxv : x = v
    · exact hxv ▸ Nat.le_of_eq hstart
    · exact h.start_le x u (hother hxv hx)
  · by_cases hxv : x = v
    · subst hxv
      exact hfollows u (by simpa using hx)
    · exact h.follows x u (hother hxv hx)
  · by_cases hxv : x = v
    · subst hxv
      have hu : prev = some u := by simpa using hx
      have hne : u ≠ x := by
        rintro rfl
        exact absurd (hl.rank_lt (hfollows u hu)) (Nat.lt_irrefl _)
      rw [setLabel_cost, (setLabel_other hne).2, hcost u hu]
    · have hx := hother hxv hx
      rw [(setLabel_other hxv).2, (setLabel_other (h.prev_ne hl hv hx)).2, h.cost x u hx]

theorem setPrev_none (h : l.Labelled connector conn keys pos L) (v : NodeId) :
    l.Labelled connector conn keys pos (setPrev L v none) := by
  have hother : ∀ {x u}, (setPrev L v none).prev x = some u → L.prev x = some u := by
    intro x u hu
    by_cases hxv : x = v
    · subst hxv
      simp [setPrev_prev] at hu
    · exact (setPrev_other hxv).1 ▸ hu
  refine ⟨?_, fun x u hx => h.start_le x u (hother hx), fun x u hx => h.follows x u (hother hx),
    fun x u hx => h.cost x u (hother hx)⟩
  by_cases hv : .bos = v
  · subst hv
    exact setPrev_prev
  · exact (setPrev_other hv).1.trans h.bos

/-- The best of the nodes that end at `pos`. -/
theorem bestLeft (hl : l.Sound keys) (h : l.Labelled connector conn keys pos L)
    (hv : v ∈ l.beginNodes pos) {conn' : TransitionCost}
    (hfree : (l.node v).constrainedPrev = none)
    (hinside : ∀ b, Boundary keys b → pos < b → l.stop v ≤ b)
    (hconn : ∀ u ∈ l.endNodes pos,
      conn' (l.node u).rid (l.node v).lid = l.transition connector conn u v) :
    l.Labelled connector conn keys pos (Lattice.setLabel L v
      (l.bestLeft conn' L v (l.endNodes pos)).1
      ((l.bestLeft conn' L v (l.endNodes pos)).2 + (l.node v).wcost)) := by
  obtain ⟨-, -, hstart⟩ := mem_beginNodes.mp hv
  have hbest := best_spec kVeryBigCost (fun u => (L.prev u).isSome)
    (fun u => L.cost u + conn' (l.node u).rid (l.node v).lid) (l.endNodes pos)
  refine h.setLabel hl hv (fun u hu => ?_) fun u hu => ?_
  · obtain ⟨hmem, -⟩ := hbest.some u hu
    exact ⟨hstart ▸ hv, hstart ▸ hmem, hstart ▸ hinside, fun c hc => by
      rw [hfree] at hc
      cases hc⟩
  · obtain ⟨hmem, -, hcost, -⟩ := hbest.some u hu
    rw [Lattice.bestLeft, hcost, hconn u hmem, weight, Int.add_assoc]

theorem viterbiNode (hl : l.Sound keys) (h : l.Labelled connector conn keys pos L)
    (hv : v ∈ l.beginNodes pos) (hpos : 0 < pos) (hlt : pos < l.key.length) {rightBoundary : Nat}
    (hinside : l.stop v ≤ rightBoundary → ∀ b, Boundary keys b → pos < b → l.stop v ≤ b) :
    l.Labelled connector conn keys pos (l.viterbiNode conn pos rightBoundary L v) := by
  obtain ⟨hhas, -, hstart⟩ := mem_beginNodes.mp hv
  unfold Lattice.viterbiNode
  dsimp only
  rw [hl.endPos_eq hhas]
  split
  · exact h.setPrev_none v
  · next hin =>
    have hinside := hinside (Nat.le_of_not_lt hin)
    cases hc : (l.node v).constrainedPrev with
    | none =>
      exact h.bestLeft hl hv hc hinside fun u hu => (transition_inner hu hv hpos hlt).symm
    | some c =>
      have hmem : c ∈ l.endNodes pos := hstart ▸ hl.constrained v c (hstart ▸ hv) hc
      dsimp only
      split
      · exact h.setPrev_none v
      · refine h.setLabel hl hv (fun u hu => ?_) fun u hu => ?_
        · cases hu
          exact ⟨hstart ▸ hv, hstart ▸ hmem, hstart ▸ hinside, fun d hd =>
            Option.some.inj (hc.symm.trans hd)⟩
        · cases hu
          rw [weight, transition_inner hmem hv hpos hlt]
          omega

theorem viterbiBosNode (hl : l.Sound keys) (h : l.Labelled connector conn keys 0 L)
    (hv : v ∈ l.beginNodes 0) {rightBoundary : Nat}
    (hinside : l.stop v ≤ rightBoundary → ∀ b, Boundary keys b → 0 < b → l.stop v ≤ b) :
    l.Labelled connector conn keys 0 (l.viterbiBosNode connector rightBoundary L v) := by
  obtain ⟨hhas, -, hstart⟩ := mem_beginNodes.mp hv
  unfold Lattice.viterbiBosNode
  dsimp only
  rw [hl.endPos_eq hhas]
  split
  · exact h
  · next hin =>
    refine h.setLabel hl hv (fun u hu => ?_) fun u hu => ?_
    · cases hu
      refine ⟨hstart ▸ hv, hstart ▸ mem_endNodes.mpr ⟨trivial, by simp, rfl⟩,
        hstart ▸ hinside (Nat.le_of_not_lt hin), fun c hc => ?_⟩
      exact (hl.eq_bos (hstart ▸ hl.constrained v c (hstart ▸ hv) hc)).symm
    · cases hu
      rw [weight, transition, if_pos (.inl rfl), node, Int.add_assoc]

/-! ## The loops -/

theorem viterbiEos (hl : l.Sound keys)
    (h : l.Labelled connector conn keys l.key.length L) :
    l.Labelled connector conn keys l.key.length (l.viterbiEos connector L) :=
  h.bestLeft (v := .eos) hl (mem_beginNodes.mpr ⟨trivial, by simp, rfl⟩) rfl
    (fun _ hb hlt => absurd (boundary_le hl hb) (by omega)) fun _ _ => (if_pos (.inr rfl)).symm

theorem viterbiLabels (hl : l.Sound keys) (hkeys : keys ≠ []) :
    l.Labelled connector conn keys l.key.length (l.viterbiLabels connector conn keys) := by
  obtain ⟨first, rest, rfl⟩ := List.exists_cons_of_ne_nil hkeys
  have hfirst : 0 < first.length := by
    have := hl.first
    exact List.length_pos_iff.mpr fun h => this (by simp [h])
  have hbos : l.Labelled connector conn (first :: rest) 0
      (l.viterbiBos connector first.length noLabels) :=
    List.foldlRecOn _ _ labelled_noLabels fun L hL v hv => hL.viterbiBosNode hl hv fun hin =>
      (inside_iff [] _ rfl (Nat.le_refl 0) (by simpa using hfirst)).mpr (by simpa using hin)
  have hinner : l.KeptInside conn (first :: rest)
      (fun pos L => l.Labelled connector conn (first :: rest) pos L) :=
    fun pos _ L hpos hlt hinside h => mono (List.foldlRecOn _ _ h fun L hL v hv =>
      hL.viterbiNode hl hv hpos hlt (hinside _).mpr) (Nat.le_succ pos)
  obtain ⟨L, hL, hall⟩ := hinner.labels hl rfl hfirst (hbos.mono (Nat.zero_le 1))
  exact hL ▸ hall.viterbiEos hl

/-! ## Leading back -/

/-- From every node the labels lead back, to a node without a label. -/
theorem exists_chain (hl : l.Sound keys) (h : l.Labelled connector conn keys pos L)
    (v : NodeId) : ∃ p : List NodeId, p.getLast? = some v ∧
      p.IsChain (fun u v => L.prev v = some u) ∧ ∀ x ∈ p.head?, L.prev x = none := by
  induction hn : l.rank v using Nat.strong_induction_on generalizing v with
  | _ n ih =>
    cases hv : L.prev v with
    | none => exact ⟨[v], rfl, by simp, by simpa using hv⟩
    | some u =>
      obtain ⟨p, hlast, hchain, hhead⟩ := ih _ (hn ▸ hl.rank_lt (h.follows v u hv)) u rfl
      have hne : p ≠ [] := by
        rintro rfl
        cases hlast
      refine ⟨p ++ [v], by simp, ?_, by rwa [List.head?_append_of_ne_nil _ hne]⟩
      rw [List.isChain_append]
      exact ⟨hchain, by simp, by simpa [hlast] using hv⟩

end Labelled

/-- The best path: the links go from the BOS node to the EOS node and back, and the cost of each
node is that of the node in front of it and of the step between them. -/
structure BestPath (l : Lattice) (connector conn : TransitionCost) (keys : List Bytes)
    (t : Traversed) (p : List NodeId) : Prop where
  path : IsPath (l.Follows keys) .bos .eos p
  cost : p.IsChain fun u v => t.labels.cost v = t.labels.cost u + l.weight connector conn u v
  prev : p.IsChain fun u v => t.labels.prev v = some u
  next : p.IsChain fun u v => t.next u = some v

/-- **Viterbi leaves a path behind** if it succeeds. -/
theorem viterbi_bestPath (connector conn : TransitionCost) (hl : l.Sound keys) (hkeys : keys ≠ []) :
    ∃ t, l.viterbi connector conn keys = some t ∧
      (t.success = true → ∃ p, l.BestPath connector conn keys t p) := by
  have h : l.Labelled connector conn keys _ _ := .viterbiLabels hl hkeys
  rw [viterbi]
  generalize l.viterbiLabels connector conn keys = L at h ⊢
  obtain ⟨p, hlast, hchain, hhead⟩ := h.exists_chain hl .eos
  have hfollows : p.IsChain (l.Follows keys) := hchain.imp fun u v hu => h.follows v u hu
  have hcost : p.IsChain fun u v => L.cost v = L.cost u + l.weight connector conn u v :=
    hchain.imp fun u v hu => h.cost v u hu
  obtain ⟨hnodup, hlen⟩ := chain_length hl hfollows <| hfollows.backwards_induction l.Has p
    (fun u v hu _ => (mem_endNodes.mp hu.adjacent).1) fun hne => by
      rw [List.getLast?_eq_some_getLast hne] at hlast
      rw [Option.some.inj hlast]
      trivial
  obtain ⟨q, v, rfl⟩ : ∃ q v, p = q ++ [v] := by
    rcases List.eq_nil_or_concat' p with rfl | h
    · cases hlast
    · exact h
  obtain rfl : v = .eos := by simpa using hlast
  obtain ⟨next, hlink, hnext, -⟩ := linkBack_path q (l.inserted.length + 2) (fun _ => none) .eos
    none hchain hhead hnodup (by simp at hlen; omega)
  refine ⟨⟨q.head? = some .bos, L, next⟩, ?_, fun hs => ?_⟩
  · rw [traverse, hlink]
    simp
  · have hfirst : q.head? = some .bos := by simpa using hs
    refine ⟨q ++ [.eos], ⟨⟨hfollows, ?_, by simp⟩, hcost, hchain, hnext⟩⟩
    rw [List.head?_append, hfirst]
    rfl

end Lattice

end Mozkey.Converter
