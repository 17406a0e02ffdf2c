import Mathlib.Data.List.Perm.Subperm
import Mozkey.Converter.Lattice

/-!
# The path that Viterbi finds

* `Follows` — which node may stand behind which
* `Known` labels, position by position
-/

namespace Mozkey.Converter

open Infra Base Infra.ShortestPath

/-- The right boundaries of the segments. -/
def Boundary (keys : List Bytes) (b : Nat) : Prop := ∃ i, b = (keys.take i).flatten.length

namespace Lattice

/-- `v` may stand behind `u`: it begins where `u` ends, ends in the segment that it begins in, and
has no other node to stand behind. -/
structure Follows (l : Lattice) (keys : List Bytes) (u v : NodeId) : Prop where
  mem : v ∈ l.beginNodes (l.start v)
  adjacent : u ∈ l.endNodes (l.start v)
  inside : ∀ b, Boundary keys b → l.start v < b → l.stop v ≤ b
  constrained : ∀ c, (l.node v).constrainedPrev = some c → u = c

def transition (l : Lattice) (connector conn : TransitionCost) (u v : NodeId) : Int :=
  if u = .bos ∨ v = .eos then connector (l.node u).rid (l.node v).lid
  else conn (l.node u).rid (l.node v).lid

def weight (l : Lattice) (connector conn : TransitionCost) (u v : NodeId) : Int :=
  l.transition connector conn u v + (l.node v).wcost

/-- What the lattice and the segments are expected to be. -/
structure Sound (l : Lattice) (keys : List Bytes) : Prop where
  /-- The lattice is for these segments. -/
  key : keys.flatten = l.key
  first : keys.head? ≠ some []
  /-- Positions are kept as `uint16_t`. -/
  short : l.key.length < 2 ^ 16
  /-- No node is empty. -/
  nonempty : ∀ e ∈ l.inserted, e.1 < l.key.length ∧ e.2.key ≠ []
  /-- A node that is to stand behind a node begins where it ends. -/
  constrained : ∀ v c, v ∈ l.beginNodes (l.start v) → (l.node v).constrainedPrev = some c →
    c ∈ l.endNodes (l.start v)

/-- No sum of costs on a path is too big. -/
def Small (l : Lattice) (connector conn : TransitionCost) (keys : List Bytes) : Prop :=
  ∀ u v a, Reaches (l.Follows keys) (l.weight connector conn) .bos u a → l.Follows keys u v →
    a + l.transition connector conn u v < kVeryBigCost

variable {l : Lattice} {connector conn : TransitionCost} {keys : List Bytes} {u v : NodeId}
  {L : Labels NodeId}

/-! ## The order of the nodes -/

def rank (l : Lattice) : NodeId → Nat
  | .bos => 0
  | v => l.start v + 1

theorem rank_of_ne (hv : v ≠ .bos) : l.rank v = l.start v + 1 := by
  cases v with
  | bos => exact absurd rfl hv
  | eos => rfl
  | node i => rfl

theorem Sound.start_lt_stop (h : l.Sound keys) (hv : l.Has v) (hne : v ≠ .bos) (hne' : v ≠ .eos) :
    l.start v < l.stop v := by
  cases v with
  | bos => exact absurd rfl hne
  | eos => exact absurd rfl hne'
  | node i =>
    have hi : l.inserted[i]? = some l.inserted[i] := List.getElem?_eq_getElem hv
    obtain ⟨hlt, hkey⟩ := h.nonempty _ (List.getElem_mem hv)
    simp only [start, stop, hi, Node.stop]
    have := List.length_pos_iff.mpr hkey
    omega

theorem Follows.ne_bos (h : l.Follows keys u v) : v ≠ .bos := (mem_beginNodes.mp h.mem).2.1

theorem Sound.rank_lt (hl : l.Sound keys) (h : l.Follows keys u v) : l.rank u < l.rank v := by
  rw [rank_of_ne h.ne_bos]
  obtain ⟨hu, hue, hstop⟩ := mem_endNodes.mp h.adjacent
  by_cases hub : u = .bos
  · subst hub
    exact Nat.succ_pos _
  · have := hl.start_lt_stop hu hub hue
    rw [rank_of_ne hub]
    omega

theorem not_follows_bos (u : NodeId) : ¬ l.Follows keys u .bos := fun h => h.ne_bos rfl

/-- The truncated end of a node. -/
theorem Sound.endPos_eq (h : l.Sound keys) (hv : l.Has v) : (l.node v).endPos = l.stop v := by
  have hshort := h.short
  cases v with
  | bos => rfl
  | eos => exact Nat.mod_eq_of_lt hshort
  | node i =>
    have hi : l.inserted[i]? = some l.inserted[i] := List.getElem?_eq_getElem hv
    simp only [node, stop, hi]
    rw [(l.placed _ (List.getElem_mem hv)).2, Nat.mod_eq_of_lt]
    exact Nat.lt_of_le_of_lt (Nat.min_le_right _ _) hshort

theorem Sound.beginPos_eq (h : l.Sound keys) (hv : l.Has v) :
    (l.node v).beginPos = l.start v := by
  have hshort := h.short
  cases v with
  | bos => rfl
  | eos => exact Nat.mod_eq_of_lt hshort
  | node i =>
    have hi : l.inserted[i]? = some l.inserted[i] := List.getElem?_eq_getElem hv
    simp only [node, start, hi]
    simpa [(l.placed _ (List.getElem_mem hv)).1] using Nat.lt_of_le_of_lt (l.inside _
      (List.getElem_mem hv)) hshort

variable {pos rightBoundary : Nat} {key : Bytes} {prev : Option NodeId}

theorem ne_bos_of_mem_endNodes (hu : u ∈ l.endNodes pos) (hpos : 0 < pos) :
    u ≠ .bos := by
  rintro rfl
  exact absurd (mem_endNodes.mp hu).2.2 (Nat.ne_of_lt hpos)

/-- Away from the start and the end, `conn` is asked. -/
theorem transition_inner (hu : u ∈ l.endNodes pos) (hv : v ∈ l.beginNodes pos) (hpos : 0 < pos)
    (hlt : pos < l.key.length) :
    l.transition connector conn u v = conn (l.node u).rid (l.node v).lid := by
  have hve : v ≠ .eos := by
    rintro rfl
    exact absurd (mem_beginNodes.mp hv).2.2 (Nat.ne_of_gt hlt)
  rw [transition, if_neg (by simp [ne_bos_of_mem_endNodes hu hpos, hve])]

/-! ## One segment -/

/-- The right boundary of the segment of a position. -/
theorem inside_iff (pre : List Bytes) {post : List Bytes} {start : Nat} (stop : Nat)
    (hkeys : keys = pre ++ key :: post) (hle : pre.flatten.length ≤ start)
    (hlt : start < pre.flatten.length + key.length) :
    (∀ b, Boundary keys b → start < b → stop ≤ b) ↔ stop ≤ pre.flatten.length + key.length := by
  subst hkeys
  constructor
  · intro h
    refine h _ ⟨pre.length + 1, ?_⟩ hlt
    simp [List.take_append, List.take_of_length_le]
  · rintro h b ⟨i, rfl⟩ hb
    rcases Nat.lt_or_ge pre.length i with hi | hi
    · obtain ⟨j, rfl⟩ : ∃ j, i = pre.length + 1 + j := ⟨i - (pre.length + 1), by omega⟩
      have htake : (pre ++ key :: post).take (pre.length + 1 + j) = pre ++ key :: post.take j := by
        rw [Nat.add_assoc, List.take_length_add_append, Nat.add_comm 1, List.take_succ_cons]
      rw [htake, List.flatten_append, List.flatten_cons, List.length_append, List.length_append]
      omega
    · rw [List.take_append_of_le_length hi] at hb
      have hsplit : (pre.take i).flatten ++ (pre.drop i).flatten = pre.flatten := by
        simp [← List.flatten_append]
      have := congrArg List.length hsplit
      rw [List.length_append] at this
      omega

/-! ## The loops over the positions -/

/-- What the step at each inner position keeps. -/
def KeptInside (l : Lattice) (conn : TransitionCost) (keys : List Bytes)
    (P : Nat → Labels NodeId → Prop) : Prop :=
  ∀ pos rightBoundary L, 0 < pos → pos < l.key.length →
    (∀ stop, (∀ b, Boundary keys b → pos < b → stop ≤ b) ↔ stop ≤ rightBoundary) →
    P pos L → P (pos + 1) (l.viterbiInternal conn rightBoundary L pos)

section Loops

variable {P : Nat → Labels NodeId → Prop}

theorem KeptInside.positions (h : l.KeptInside conn keys P) (hl : l.Sound keys) (pre : List Bytes)
    {post : List Bytes} {key : Bytes} (hkeys : keys = pre ++ key :: post) :
    ∀ (count : Nat) {pos : Nat}, 0 < pos → pre.flatten.length ≤ pos →
    pos + count = pre.flatten.length + key.length → ∀ {L : Labels NodeId}, P pos L →
    P (pos + count) ((List.range' pos count).foldl
      (l.viterbiInternal conn (pre.flatten.length + key.length)) L)
  | 0, _, _, _, _, _, hP => hP
  | count + 1, pos, hpos, hle, hend, L, hP => by
    have hlen : pre.flatten.length + key.length ≤ l.key.length := by
      rw [← hl.key, hkeys, List.flatten_append, List.flatten_cons, List.length_append,
        List.length_append]
      omega
    have hrest := h.positions hl pre hkeys count (by omega) (by omega) (by omega)
      (h pos _ L hpos (by omega) (fun stop => inside_iff pre stop hkeys hle (by omega)) hP)
    rw [List.range'_succ, List.foldl_cons]
    rwa [Nat.add_right_comm] at hrest

theorem KeptInside.segments (h : l.KeptInside conn keys P) (hl : l.Sound keys) :
    ∀ (rest pre : List Bytes) {L : Labels NodeId}, keys = pre ++ rest → 0 < pre.flatten.length →
    P pre.flatten.length L → P l.key.length (l.viterbiSegments conn pre.flatten.length rest L)
  | [], pre, L, hkeys, _, hP => by
    have : pre.flatten.length = l.key.length := by rw [← hl.key, hkeys, List.append_nil]
    exact this ▸ hP
  | key :: rest, pre, L, hkeys, hpos, hP => by
    have hseg := h.positions hl pre hkeys key.length hpos (Nat.le_refl _) rfl hP
    have hlen : pre.flatten.length + key.length = (pre ++ [key]).flatten.length := by simp
    rw [Lattice.viterbiSegments]
    rw [hlen] at hseg ⊢
    exact h.segments hl rest (pre ++ [key]) (by simp [hkeys]) (by rw [← hlen]; omega) hseg

/-- The loops between the BOS and the EOS node. -/
theorem KeptInside.labels {first : Bytes} {rest : List Bytes} (h : l.KeptInside conn keys P)
    (hl : l.Sound keys) (hk : keys = first :: rest) (hfirst : 0 < first.length)
    (hbos : P 1 (l.viterbiBos connector first.length noLabels)) :
    ∃ L, l.viterbiLabels connector conn keys = l.viterbiEos connector L ∧ P l.key.length L := by
  have hsegment := h.positions hl [] hk (first.length - 1) (Nat.succ_pos 0) (Nat.zero_le 1)
    (by simp; omega) hbos
  have hlen : 1 + (first.length - 1) = first.length := by omega
  simp only [List.flatten_nil, List.length_nil, Nat.zero_add, hlen] at hsegment
  have hflat : [first].flatten = first := by simp
  have hall := h.segments hl rest [first] hk (by rwa [hflat]) (by rwa [hflat])
  rw [hflat] at hall
  subst hk
  exact ⟨_, rfl, hall⟩

end Loops

/-! ## One node -/

@[simp] theorem setLabel_prev {cost : Int} :
    (setLabel L v prev cost).prev v = prev := Function.update_self ..

@[simp] theorem setLabel_cost {cost : Int} :
    (setLabel L v prev cost).cost v = cost := Function.update_self ..

@[simp] theorem setPrev_prev : (setPrev L v prev).prev v = prev :=
  Function.update_self ..

theorem setLabel_other {w x : NodeId} {cost : Int} (h : x ≠ w) :
    (setLabel L w prev cost).prev x = L.prev x ∧ (setLabel L w prev cost).cost x = L.cost x :=
  ⟨Function.update_of_ne h .., Function.update_of_ne h ..⟩

theorem setPrev_other {w x : NodeId} (h : x ≠ w) :
    (setPrev L w prev).prev x = L.prev x ∧ (setPrev L w prev).cost x = L.cost x :=
  ⟨Function.update_of_ne h .., rfl⟩

abbrev IsSolved (l : Lattice) (connector conn : TransitionCost) (keys : List Bytes)
    (L : Labels NodeId) (v : NodeId) : Prop :=
  Solved (l.Follows keys) (l.weight connector conn) .bos L v

abbrev IsKnown (l : Lattice) (connector conn : TransitionCost) (keys : List Bytes)
    (L : Labels NodeId) (v : NodeId) : Prop :=
  Known (l.Follows keys) (l.weight connector conn) .bos L v

abbrev SourceOk (l : Lattice) (keys : List Bytes) (L : Labels NodeId) : Prop :=
  SourceLabel (l.Follows keys) .bos L

/-- A node gets the best of the nodes that end where it begins. -/
theorem solved_bestLeft {conn' : TransitionCost} (hl : l.Sound keys)
    (hsmall : l.Small connector conn keys) (hv : v ∈ l.beginNodes pos) (hpos : 0 < pos)
    (hinside : ∀ b, Boundary keys b → pos < b → l.stop v ≤ b)
    (hfree : (l.node v).constrainedPrev = none)
    (hconn : ∀ u ∈ l.endNodes pos,
      conn' (l.node u).rid (l.node v).lid = l.transition connector conn u v)
    (hs : l.SourceOk keys L) (hpred : ∀ u, l.Follows keys u v → l.IsKnown connector conn keys L u) :
    l.IsSolved connector conn keys (setLabel L v (l.bestLeft conn' L v (l.endNodes pos)).1
      ((l.bestLeft conn' L v (l.endNodes pos)).2 + (l.node v).wcost)) v := by
  obtain ⟨_, hvb, hstart⟩ := mem_beginNodes.mp hv
  have hrank : ∀ u v, l.Follows keys u v → l.rank u < l.rank v := fun _ _ h => hl.rank_lt h
  have hfollows : ∀ u ∈ l.endNodes pos, l.Follows keys u v := fun u hu =>
    ⟨hstart ▸ hv, hstart ▸ hu, hstart ▸ hinside, fun c hc => by rw [hfree] at hc; cases hc⟩
  have hreached : ∀ u, l.Follows keys u v → (Reached .bos L u ↔ (L.prev u).isSome = true) := by
    intro u hu
    have hub : u ≠ .bos := fun h => by
      have := (mem_endNodes.mp (h ▸ hu.adjacent)).2.2
      simp only [stop] at this
      omega
    rw [Reached, Option.isSome_iff_ne_none]
    exact ⟨fun h => h.resolve_left hub, .inr⟩
  have hbest := best_spec kVeryBigCost (fun u => (L.prev u).isSome)
    (fun u => L.cost u + conn' (l.node u).rid (l.node v).lid) (l.endNodes pos)
  cases hb : (l.bestLeft conn' L v (l.endNodes pos)).1 with
  | none =>
    refine .relabel_none hrank hvb (fun x => setLabel_other) hpred setLabel_prev fun u hu hr => ?_
    have hmem : u ∈ l.endNodes pos := hstart ▸ hu.adjacent
    have hle := hbest.le u hmem ((hreached u hu).mp hr)
    rw [hbest.none hb, hconn u hmem] at hle
    have := hsmall u v _ ((hpred u hu).least hs hr).1 hu
    omega
  | some u =>
    obtain ⟨hmem, hur, hcost, _⟩ := hbest.some u hb
    have hu := hfollows u hmem
    refine .relabel_min hrank hvb hs (fun x => setLabel_other) hpred setLabel_prev hu
      ((hreached u hu).mpr hur) ?_ fun u' hu' hr' => ?_
    · rw [setLabel_cost, bestLeft, hcost, hconn u hmem, weight]
      omega
    · have hmem' : u' ∈ l.endNodes pos := hstart ▸ hu'.adjacent
      have hle := hbest.le u' hmem' ((hreached u' hu').mp hr')
      rw [hcost, hconn u hmem, hconn u' hmem'] at hle
      rw [weight, weight]
      omega

theorem viterbiNode_other {x : NodeId} (h : x ≠ v) :
    (l.viterbiNode conn pos rightBoundary L v).prev x = L.prev x ∧
      (l.viterbiNode conn pos rightBoundary L v).cost x = L.cost x := by
  unfold viterbiNode
  dsimp only
  split
  · exact setPrev_other h
  · split
    · split
      · exact setPrev_other h
      · exact setLabel_other h
    · exact setLabel_other h

theorem solved_viterbiNode (hl : l.Sound keys) (hsmall : l.Small connector conn keys)
    (hv : v ∈ l.beginNodes pos) (hpos : 0 < pos) (hlt : pos < l.key.length)
    (hinside : (∀ b, Boundary keys b → pos < b → l.stop v ≤ b) ↔ l.stop v ≤ rightBoundary)
    (hs : l.SourceOk keys L) (hpred : ∀ u, l.Follows keys u v → l.IsKnown connector conn keys L u) :
    l.IsSolved connector conn keys (l.viterbiNode conn pos rightBoundary L v) v := by
  obtain ⟨hhas, hvb, hstart⟩ := mem_beginNodes.mp hv
  have hrank : ∀ u v, l.Follows keys u v → l.rank u < l.rank v := fun _ _ h => hl.rank_lt h
  have hne : ∀ u ∈ l.endNodes pos, u ≠ .bos := fun u hu => ne_bos_of_mem_endNodes hu hpos
  have htransition : ∀ u ∈ l.endNodes pos,
      conn (l.node u).rid (l.node v).lid = l.transition connector conn u v := fun u hu =>
    (transition_inner hu hv hpos hlt).symm
  unfold viterbiNode
  dsimp only
  rw [hl.endPos_eq hhas]
  split
  · next hout =>
    refine .relabel_none hrank hvb (fun x => setPrev_other) hpred setPrev_prev fun u hu _ => ?_
    have := hinside.mp (hstart ▸ hu.inside)
    omega
  · next hin =>
    have hin' := hinside.mpr (by omega)
    cases hc : (l.node v).constrainedPrev with
    | none => exact solved_bestLeft hl hsmall hv hpos hin' hc htransition hs hpred
    | some c =>
      have hcmem : c ∈ l.endNodes pos := hstart ▸ hl.constrained v c (hstart ▸ hv) hc
      have honly : ∀ u, l.Follows keys u v → u = c := fun u hu => hu.constrained c hc
      have hfollows : l.Follows keys c v := ⟨hstart ▸ hv, hstart ▸ hcmem, hstart ▸ hin', fun d hd =>
        Option.some.inj (hc.symm.trans hd)⟩
      dsimp only
      split
      · next hnone =>
        refine .relabel_none hrank hvb (fun x => setPrev_other) hpred setPrev_prev fun u hu hr => ?_
        rw [honly u hu] at hr
        exact hr.elim (hne c hcmem) fun h => h (by simpa using hnone)
      · next hsome =>
        refine .relabel_min hrank hvb hs (fun x => setLabel_other) hpred setLabel_prev hfollows
          (.inr (by simpa using hsome)) ?_ fun u hu _ =>
            Int.le_of_eq (by rw [honly u hu])
        rw [setLabel_cost, weight, ← htransition c hcmem]
        omega

/-! ## Positions -/

/-- Everything that begins before `pos` has its label. -/
structure SolvedBefore (l : Lattice) (connector conn : TransitionCost) (keys : List Bytes)
    (pos : Nat) (L : Labels NodeId) : Prop where
  source : l.SourceOk keys L
  solved : ∀ v ∈ l.beginNodes (l.start v), l.start v < pos → l.IsSolved connector conn keys L v

theorem SolvedBefore.known (hl : l.Sound keys) (h : l.SolvedBefore connector conn keys pos L)
    (hu : l.Follows keys u v) (hv : l.start v ≤ pos) : l.IsKnown connector conn keys L u := by
  obtain ⟨hhas, hue, hstop⟩ := mem_endNodes.mp hu.adjacent
  by_cases hub : u = .bos
  · exact .inl hub
  · have := hl.start_lt_stop hhas hub hue
    exact .inr (h.solved u (mem_beginNodes.mpr ⟨hhas, hub, rfl⟩) (by omega))

/-- A loop over the nodes at a position. -/
theorem SolvedBefore.foldl {f : Labels NodeId → NodeId → Labels NodeId} (hl : l.Sound keys)
    (hother : ∀ L v x, x ≠ v → (f L v).prev x = L.prev x ∧ (f L v).cost x = L.cost x)
    (hf : ∀ L', ∀ v ∈ l.beginNodes pos, l.SourceOk keys L' →
      (∀ u, l.Follows keys u v → l.IsKnown connector conn keys L' u) →
      (∀ x, l.rank x < pos + 1 → L'.prev x = L.prev x ∧ L'.cost x = L.cost x) →
      l.IsSolved connector conn keys (f L' v) v) (h : l.SolvedBefore connector conn keys pos L) :
    l.SolvedBefore connector conn keys (pos + 1) ((l.beginNodes pos).foldl f L) := by
  have hrank : ∀ u v, l.Follows keys u v → l.rank u < l.rank v := fun _ _ h => hl.rank_lt h
  have hat : ∀ v ∈ l.beginNodes pos, v ≠ .bos ∧ l.rank v = pos + 1 := fun v hv => by
    obtain ⟨_, hvb, hstart⟩ := mem_beginNodes.mp hv
    exact ⟨hvb, by rw [rank_of_ne hvb, hstart]⟩
  obtain ⟨hs, hsolved, hsame⟩ := foldl_solved hrank hat hother hf h.source fun v hv u hu =>
    h.known hl hu (Nat.le_of_eq (mem_beginNodes.mp hv).2.2)
  refine ⟨hs, fun v hv hlt => ?_⟩
  by_cases hpos : l.start v = pos
  · exact hsolved v (hpos ▸ hv)
  · have hbefore : ∀ x, l.rank x < pos + 1 → x ∉ l.beginNodes pos := fun x hx hmem => by
      have := (hat x hmem).2
      omega
    have hvr : l.rank v < pos + 1 := by
      rw [rank_of_ne (mem_beginNodes.mp hv).2.1]
      omega
    obtain ⟨hp, hc⟩ := hsame v (hbefore v hvr)
    exact (h.solved v hv (by omega)).congr hp hc fun u hu =>
      hsame u (hbefore u (Nat.lt_trans (hrank u v hu) hvr))

theorem SolvedBefore.viterbiInternal (hl : l.Sound keys) (hsmall : l.Small connector conn keys)
    (hpos : 0 < pos) (hlt : pos < l.key.length)
    (hinside : ∀ stop, (∀ b, Boundary keys b → pos < b → stop ≤ b) ↔ stop ≤ rightBoundary)
    (h : l.SolvedBefore connector conn keys pos L) :
    l.SolvedBefore connector conn keys (pos + 1) (l.viterbiInternal conn rightBoundary L pos) :=
  h.foldl hl (fun _ _ _ => viterbiNode_other) fun _ _ hv hs hpred _ =>
    solved_viterbiNode hl hsmall hv hpos hlt (hinside _) hs hpred

/-! ## The BOS and the EOS node -/

theorem solvedBefore_zero : l.SolvedBefore connector conn keys 0 noLabels :=
  ⟨⟨not_follows_bos, rfl, rfl⟩, fun _ _ h => absurd h (Nat.not_lt_zero _)⟩

/-- Only the BOS node ends at the start. -/
theorem Sound.eq_bos (hl : l.Sound keys) (hu : u ∈ l.endNodes 0) : u = .bos := by
  obtain ⟨hhas, hue, hstop⟩ := mem_endNodes.mp hu
  by_cases hub : u = .bos
  · exact hub
  · have := hl.start_lt_stop hhas hub hue
    omega

theorem foldl_viterbiBosNode (l : Lattice) (connector : TransitionCost) (rightBoundary : Nat)
    (nodes : List NodeId) (hbos : .bos ∉ nodes)
    (x : NodeId) :
    let L := nodes.foldl (l.viterbiBosNode connector rightBoundary) noLabels
    let linked := x ∈ nodes ∧ (l.node x).endPos ≤ rightBoundary
    L.prev x = (if linked then some .bos else none) ∧
      L.cost x =
        if linked then connector l.bosNode.rid (l.node x).lid + (l.node x).wcost else 0 := by
  induction nodes using List.reverseRecOn generalizing x with
  | nil => simp [noLabels]
  | append_singleton nodes v ih =>
    have hbos' : .bos ∉ nodes := fun h => hbos (by simp [h])
    have hcost :
        (nodes.foldl (l.viterbiBosNode connector rightBoundary) noLabels).cost .bos = 0 := by
      rw [(ih hbos' .bos).2, if_neg fun h => hbos' h.1]
    simp only [List.foldl_append, List.foldl_cons, List.foldl_nil, List.mem_append,
      List.mem_singleton]
    generalize hL : nodes.foldl (l.viterbiBosNode connector rightBoundary) noLabels = L at ih hcost
    have ih := ih hbos' x
    dsimp only at ih
    unfold viterbiBosNode
    dsimp only
    split
    · next hout =>
      by_cases hxv : x = v
      · subst hxv
        simpa [Nat.not_le.mpr hout] using ih
      · simpa [hxv] using ih
    · next hin =>
      by_cases hxv : x = v
      · subst hxv
        simp [Nat.le_of_not_lt hin, hcost]
      · rw [(setLabel_other hxv).1, (setLabel_other hxv).2]
        simpa [hxv] using ih

theorem solvedBefore_one (connector conn : TransitionCost) (hl : l.Sound keys) {first : Bytes}
    {rest : List Bytes} (hkeys : keys = first :: rest) :
    l.SolvedBefore connector conn keys 1 (l.viterbiBos connector first.length noLabels) := by
  have hfirst : 0 < first.length := by
    have := hl.first
    rw [hkeys] at this
    exact List.length_pos_iff.mpr fun h => this (by simp [h])
  have hbos : .bos ∉ l.beginNodes 0 := fun h => (mem_beginNodes.mp h).2.1 rfl
  have hlabel := l.foldl_viterbiBosNode connector first.length (l.beginNodes 0) hbos
  rw [viterbiBos]
  generalize (l.beginNodes 0).foldl (l.viterbiBosNode connector first.length) noLabels =
    L at hlabel ⊢
  dsimp only at hlabel
  have hs :
    l.SourceOk keys L := ⟨not_follows_bos, by rw [(hlabel .bos).1, if_neg fun h => hbos h.1],
    by rw [(hlabel .bos).2, if_neg fun h => hbos h.1]⟩
  refine ⟨hs, fun v hv hlt => ?_⟩
  have hstart : l.start v = 0 := by omega
  obtain ⟨hhas, hvb, _⟩ := mem_beginNodes.mp hv
  have honly : ∀ u, l.Follows keys u v → u = .bos := fun u hu => hl.eq_bos (hstart ▸ hu.adjacent)
  have hinside := inside_iff [] (l.stop v) hkeys (Nat.le_refl _) (by simpa using hfirst)
  simp only [List.flatten_nil, List.length_nil, Nat.zero_add] at hinside
  have hknown : ∀ u, l.Follows keys u v → l.IsKnown connector conn keys L u := fun u hu =>
    .inl (honly u hu)
  have hend := hl.endPos_eq hhas
  rw [hstart] at hv
  by_cases hin : l.stop v ≤ first.length
  · have hlinked : v ∈ l.beginNodes 0 ∧ (l.node v).endPos ≤ first.length := ⟨hv, by omega⟩
    obtain ⟨hp, hc⟩ := hlabel v
    rw [if_pos hlinked] at hp hc
    have hfollows : l.Follows keys .bos v := by
      refine ⟨hstart ▸ hv, hstart ▸ mem_endNodes.mpr ⟨trivial, by simp, rfl⟩,
        hstart ▸ hinside.mpr hin, fun c hcon => ?_⟩
      exact (hl.eq_bos (hstart ▸ hl.constrained v c (hstart ▸ hv) hcon)).symm
    refine .of_min hvb hs hknown hp hfollows (.inl rfl) ?_ fun u hu _ =>
      Int.le_of_eq (by rw [honly u hu])
    rw [hc, hs.cost_eq, weight, transition, if_pos (.inl rfl), node]
    omega
  · have hnone : L.prev v = none := by rw [(hlabel v).1, if_neg (by omega)]
    refine .of_none hvb hknown hnone fun u hu _ => hin (hinside.mp (hstart ▸ hu.inside))

theorem Sound.key_pos (hl : l.Sound keys) (hkeys : keys ≠ []) : 0 < l.key.length := by
  cases keys with
  | nil => exact absurd rfl hkeys
  | cons first rest =>
    have hfirst := hl.first
    rw [← hl.key, List.flatten_cons, List.length_append]
    exact Nat.add_pos_left (List.length_pos_iff.mpr fun h => hfirst (by simp [h])) _

theorem boundary_le (hl : l.Sound keys) {b : Nat} (hb : Boundary keys b) : b ≤ l.key.length := by
  obtain ⟨i, rfl⟩ := hb
  rw [← hl.key]
  have hsplit : (keys.take i).flatten ++ (keys.drop i).flatten = keys.flatten := by
    simp [← List.flatten_append]
  rw [← hsplit, List.length_append]
  omega

/-- The labels are right, those in front of the EOS node and its own. -/
structure SolvedAll (l : Lattice) (connector conn : TransitionCost) (keys : List Bytes)
    (L : Labels NodeId) : Prop where
  source : l.SourceOk keys L
  known : ∀ u v, l.Follows keys u v → l.IsKnown connector conn keys L u
  eos : l.IsKnown connector conn keys L .eos

theorem SolvedBefore.viterbiEos (hl : l.Sound keys) (hsmall : l.Small connector conn keys)
    (hpos : 0 < l.key.length) (h : l.SolvedBefore connector conn keys l.key.length L) :
    l.SolvedAll connector conn keys (l.viterbiEos connector L) := by
  have heos : .eos ∈ l.beginNodes l.key.length := mem_beginNodes.mpr ⟨trivial, by simp, rfl⟩
  have hother : ∀ x, x ≠ .eos → (l.viterbiEos connector L).prev x = L.prev x ∧
      (l.viterbiEos connector L).cost x = L.cost x := fun _ => setLabel_other
  refine ⟨h.source.congr (hother .bos (by simp)).1 (hother .bos (by simp)).2, fun u v hu => ?_,
    .inr ?_⟩
  · have hle : l.start v ≤ l.key.length := by
      cases v with
      | bos => exact Nat.zero_le _
      | eos => exact Nat.le_refl _
      | node i =>
        have hi := (mem_beginNodes.mp hu.mem).1
        simpa [start, List.getElem?_eq_getElem hi] using l.inside _ (List.getElem_mem hi)
    refine (h.known hl hu hle).frame (fun _ _ h => hl.rank_lt h) hother ?_
    exact Nat.lt_of_lt_of_le (hl.rank_lt hu)
      (by rw [rank_of_ne hu.ne_bos]; exact Nat.succ_le_succ hle)
  · exact solved_bestLeft hl hsmall heos hpos
      (fun b hb hlt => absurd (boundary_le hl hb) (by omega))
      rfl (fun u _ => (if_pos (.inr rfl)).symm) h.source fun u hu => h.known hl hu (Nat.le_refl _)

/-- What a traversal leaves. -/
structure Linked (l : Lattice) (connector conn : TransitionCost) (keys : List Bytes)
    (t : Traversed) (p : List NodeId) : Prop where
  path : IsPath (l.Follows keys) .bos .eos p
  cost : pathCost (l.weight connector conn) p = t.labels.cost .eos
  prev : p.IsChain fun u v => t.labels.prev v = some u
  next : p.IsChain fun u v => t.next u = some v

/-- A path has no more nodes than the lattice. -/
theorem chain_length (hl : l.Sound keys) {p : List NodeId} (h : p.IsChain (l.Follows keys))
    (hhas : ∀ v ∈ p, l.Has v) : p.Nodup ∧ p.length ≤ l.inserted.length + 2 := by
  have hsorted : p.Pairwise fun u v => l.rank u < l.rank v := by
    have hchain : p.IsChain fun u v => l.rank u < l.rank v := h.imp fun _ _ h => hl.rank_lt h
    have : IsTrans NodeId fun u v => l.rank u < l.rank v := ⟨fun _ _ _ => Nat.lt_trans⟩
    exact List.isChain_iff_pairwise.mp hchain
  have hnodup : p.Nodup := hsorted.imp fun hlt heq => by subst heq; omega
  refine ⟨hnodup, ?_⟩
  have hsub : p ⊆ .bos :: .eos :: (List.range l.inserted.length).map .node := by
    intro v hv
    cases v with
    | bos => simp
    | eos => simp
    | node i =>
      have hi : i < l.inserted.length := hhas _ hv
      simp [hi]
  simpa using (List.subperm_of_subset hnodup hsub).length_le

theorem path_length (hl : l.Sound keys) {p : List NodeId}
    (h : IsPath (l.Follows keys) .bos .eos p) :
    p.Nodup ∧ p.length ≤ l.inserted.length + 2 := by
  refine chain_length hl h.chain (List.IsChain.induction l.Has p h.chain
    (fun u v hu _ => (mem_beginNodes.mp hu.mem).1) fun hne => ?_)
  have hfirst := h.first
  rw [List.head?_eq_some_head hne] at hfirst
  rw [Option.some.inj hfirst]
  trivial

theorem traverse_spec (hl : l.Sound keys) (h : l.SolvedAll connector conn keys L) :
    ∃ t, l.traverse L = some t ∧ t.labels = L ∧ (t.success = true ↔ Reached .bos L .eos) ∧
      (t.success = true → ∃ p, l.Linked connector conn keys t p) := by
  by_cases hr : Reached .bos L .eos
  · obtain ⟨p, hp, hcost, hchain⟩ :=
      exists_path (fun _ _ h => hl.rank_lt h) h.source h.known h.eos hr
    obtain ⟨hnodup, hlen⟩ := path_length hl hp
    rcases List.eq_nil_or_concat' p with rfl | ⟨q, v, rfl⟩
    · cases hp.first
    · obtain rfl : v = .eos := by simpa using hp.last
      have hhead : ∀ x ∈ (q ++ [NodeId.eos]).head?, L.prev x = none := fun x hx => by
        rw [hp.first] at hx
        cases hx
        exact h.source.prev_eq
      have hfirst : q.head? = some .bos := by
        cases q with
        | nil => exact absurd hp.first (by simp)
        | cons x q => exact hp.first
      obtain ⟨next, hlink, hnext, _⟩ := linkBack_path q (l.inserted.length + 2) (fun _ => none)
        .eos none hchain hhead hnodup (by simp at hlen; omega)
      refine ⟨⟨true, L, next⟩, ?_, rfl, by simp [hr], fun _ => ⟨_, hp, hcost, hchain, hnext⟩⟩
      simp [traverse, hlink, hfirst]
  · have hprev : L.prev .eos = none := by
      cases hp : L.prev .eos with
      | none => rfl
      | some u => exact absurd (.inr (by simp [hp])) hr
    refine ⟨⟨false, L, fun _ => none⟩, ?_, rfl, by simp [hr], fun h => by cases h⟩
    simp [traverse, linkBack, hprev]

/-- What is expected of the search: it says whether there is a legal path, and links a cheapest
one. -/
def Finds (l : Lattice) (connector conn : TransitionCost) (keys : List Bytes) : Prop :=
  ∃ t, l.viterbi connector conn keys = some t ∧
    (t.success = true ↔ ∃ p, IsPath (l.Follows keys) .bos .eos p) ∧
    (t.success = true → ∃ p, l.Linked connector conn keys t p ∧
      ∀ q, IsPath (l.Follows keys) .bos .eos q → pathCost (l.weight connector conn) p ≤
        pathCost (l.weight connector conn) q)

theorem viterbiLabels_solved (hl : l.Sound keys) (hsmall : l.Small connector conn keys)
    (hkeys : keys ≠ []) :
      l.SolvedAll connector conn keys (l.viterbiLabels connector conn keys) := by
  obtain ⟨first, rest, hk⟩ := List.exists_cons_of_ne_nil hkeys
  have hfirst : 0 < first.length := by
    have := hl.first
    rw [hk] at this
    exact List.length_pos_iff.mpr fun h => this (by simp [h])
  have hinner : l.KeptInside conn keys (l.SolvedBefore connector conn keys) :=
    fun _ _ _ hpos hlt hinside h => h.viterbiInternal hl hsmall hpos hlt hinside
  obtain ⟨L, hL, hall⟩ := hinner.labels hl hk hfirst (solvedBefore_one connector conn hl hk)
  exact hL ▸ hall.viterbiEos hl hsmall (hl.key_pos hkeys)

/-- **Viterbi finds a cheapest legal path if there is one.** -/
theorem viterbi_finds (hl : l.Sound keys) (hkeys : keys ≠ [])
    (hsmall : l.Small connector conn keys) : l.Finds connector conn keys := by
  have h := viterbiLabels_solved hl hsmall hkeys
  obtain ⟨t, ht, hlabels, hsuccess, hlinked⟩ := traverse_spec hl h
  have hiff : t.success = true ↔ ∃ p, IsPath (l.Follows keys) .bos .eos p := by
    refine ⟨fun hs => ?_, fun ⟨p, hp⟩ => ?_⟩
    · obtain ⟨p, hp⟩ := hlinked hs
      exact ⟨p, hp.path⟩
    · exact hsuccess.mpr (h.eos.cost_le h.source hp).1
  refine ⟨t, ht, hiff, fun hs => ?_⟩
  obtain ⟨p, hp⟩ := hlinked hs
  refine ⟨p, hp, fun q hq => ?_⟩
  rw [hp.cost, hlabels]
  exact (h.eos.cost_le h.source hq).2

/-! ## What is not found -/

def noCost : TransitionCost := fun _ _ => 0

theorem small_of_le (hcost : ∀ v, (l.node v).wcost ≤ 0) : l.Small noCost noCost keys := by
  have hzero : ∀ u v, l.transition noCost noCost u v = 0 := fun u v => by
    rw [transition]
    split
    · rfl
    · rfl
  intro u v a ha hf
  clear hf
  have hle : a ≤ 0 := by
    induction ha with
    | source => exact Int.le_refl 0
    | @step u v b _ _ ih =>
      have := hcost v
      rw [weight, hzero]
      omega
  rw [hzero]
  show a + 0 < 536870911
  omega

theorem stop_le (l : Lattice) (v : NodeId) : l.stop v ≤ l.key.length := by
  cases v with
  | bos => exact Nat.zero_le _
  | eos => exact Nat.le_refl _
  | node i =>
    simp only [stop]
    cases l.inserted[i]? with
    | none => exact Nat.zero_le _
    | some e => exact Nat.min_le_right _ _

/-- Where only one segment has a key, nodes may end anywhere. -/
theorem follows_of_whole (hkeys : ∀ b, Boundary keys b → b = 0 ∨ b = l.key.length)
    (hmem : v ∈ l.beginNodes (l.start v)) (hadj : u ∈ l.endNodes (l.start v))
    (hfree : (l.node v).constrainedPrev = none) : l.Follows keys u v := by
  refine ⟨hmem, hadj, fun b hb hlt => ?_, fun c hc => ?_⟩
  · rcases hkeys b hb with rfl | rfl
    · exact absurd hlt (Nat.not_lt_zero _)
    · exact l.stop_le v
  · simp [hfree] at hc

theorem boundary_single {b : Nat} (h : Boundary [key] b) :
    b = 0 ∨ b = key.length := by
  obtain ⟨_ | i, rfl⟩ := h
  · exact .inl rfl
  · exact .inr (by simp)

theorem boundary_empty_cons {b : Nat} (h : Boundary [[], key] b) :
    b = 0 ∨ b = key.length := by
  obtain ⟨_ | _ | i, rfl⟩ := h
  · exact .inl rfl
  · exact .inl rfl
  · exact .inr (by simp)

/-- A cheap node without a key, at the end. -/
def emptyNode : Lattice :=
  ((setKey (utf8 "a") 0).insert 0 { key := utf8 "a" } (Nat.zero_le _)).insert 1
    { wcost := -1 } (Nat.le_refl _)

/-- A node that is to stand behind a node that ends before it begins. -/
def gap : Lattice :=
  ((setKey (utf8 "abc") 0).insert 0 { key := utf8 "a" } (Nat.zero_le _)).insert 2
    { key := utf8 "c", constrainedPrev := some (.node 0) } (by decide)

/-- A node for the whole key. -/
def oneNode (key : Bytes) : Lattice := (setKey key 0).insert 0 { key } (Nat.zero_le _)

theorem not_finds_emptyNode : ¬ emptyNode.Finds noCost noCost [utf8 "a"] := by
  rintro ⟨t, ht, hiff, hlinked⟩
  have hcost : (emptyNode.viterbi noCost noCost [utf8 "a"]).map
      (fun t => (t.success, t.labels.cost .eos)) = some (true, 0) := by decide
  rw [ht] at hcost
  obtain ⟨hsuccess, hzero⟩ := Prod.mk.inj (Option.some.inj hcost)
  obtain ⟨p, hp, hmin⟩ := hlinked hsuccess
  have hpath : IsPath (emptyNode.Follows [utf8 "a"]) .bos .eos [.bos, .node 0, .node 1, .eos] := by
    have hfollows {u v : NodeId} := follows_of_whole (l := emptyNode) (u := u) (v := v)
      fun _ => boundary_single
    refine ⟨?_, rfl, rfl⟩
    simp only [List.isChain_cons_cons, List.isChain_singleton, and_true]
    exact ⟨hfollows (by decide) (by decide) rfl, hfollows (by decide) (by decide) rfl,
      hfollows (by decide) (by decide) rfl⟩
  have := hmin _ hpath
  rw [hp.cost, hzero] at this
  exact absurd this (by decide)

theorem not_finds_gap : ¬ gap.Finds noCost noCost [utf8 "abc"] := by
  rintro ⟨t, ht, hiff, -⟩
  have hsuccess : (gap.viterbi noCost noCost [utf8 "abc"]).map Traversed.success = some true := by
    decide
  rw [ht] at hsuccess
  obtain ⟨p, hp⟩ := hiff.mp (Option.some.inj hsuccess)
  -- Only the second node ends at the end, and none where it begins.
  have hreaches := reaches_iff (w := gap.weight noCost noCost).mpr ⟨p, hp, rfl⟩
  obtain ⟨u, _, hu, he, _⟩ := hreaches.inv (by decide)
  have hadj : u ∈ gap.endNodes 3 := he.adjacent
  rw [show gap.endNodes 3 = [.node 1] by decide, List.mem_singleton] at hadj
  subst hadj
  obtain ⟨u, _, _, he, _⟩ := hu.inv (by decide)
  have hadj : u ∈ gap.endNodes 2 := he.adjacent
  simp [show gap.endNodes 2 = [] by decide] at hadj

theorem not_finds_emptySegment : ¬ (oneNode (utf8 "a")).Finds noCost noCost [[], utf8 "a"] := by
  rintro ⟨t, ht, hiff, -⟩
  have hfail : ((oneNode (utf8 "a")).viterbi noCost noCost [[], utf8 "a"]).map
      Traversed.success = some false := by decide
  rw [ht] at hfail
  have hpath : IsPath ((oneNode (utf8 "a")).Follows [[], utf8 "a"]) .bos .eos
      [.bos, .node 0, .eos] := by
    have hfollows {u v : NodeId} := follows_of_whole (l := oneNode (utf8 "a")) (u := u) (v := v)
      fun _ => boundary_empty_cons
    refine ⟨?_, rfl, rfl⟩
    simp only [List.isChain_cons_cons, List.isChain_singleton, and_true]
    exact ⟨hfollows (by decide) (by decide) rfl, hfollows (by decide) (by decide) rfl⟩
  rw [Option.some.inj hfail] at hiff
  exact absurd (hiff.mpr ⟨_, hpath⟩) (by simp)

theorem nodesWhere_oneNode (p : Nat × Node → Bool) : (oneNode key).nodesWhere p =
    if p (0, { key, endPos := min (key.length + 0) key.length % 2 ^ 16 }) then [.node 0]
    else [] := by
  simp only [nodesWhere, oneNode, insert, setKey, List.nil_append, List.zipIdx_cons,
    List.zipIdx_nil, List.filter_cons, List.filter_nil]
  split
  · next h => exact (if_pos h).symm
  · next h => exact (if_neg h).symm

theorem oneNode_nodes (hkey : 0 < key.length) :
    (∀ pos, 0 < pos → pos < key.length → (oneNode key).beginNodes pos = []) ∧
      (oneNode key).beginNodes 0 = [.node 0] ∧
      (oneNode key).endNodes key.length = [.node 0] := by
  have hlen : (oneNode key).key.length = key.length := rfl
  refine ⟨fun pos hpos hlt => ?_, ?_, ?_⟩
  · rw [beginNodes, hlen, if_neg (by omega), nodesWhere_oneNode, if_neg (by simp; omega)]
    rfl
  · rw [beginNodes, hlen, if_neg (by omega), nodesWhere_oneNode, if_pos (by simp)]
    rfl
  · rw [endNodes, hlen, if_neg (by omega), nodesWhere_oneNode, if_pos (by simp [Node.stop])]
    rfl

theorem foldl_viterbiInternal_nil {L : Labels NodeId} {positions : List Nat}
    (h : ∀ pos ∈ positions, l.beginNodes pos = []) :
    positions.foldl (l.viterbiInternal conn rightBoundary) L = L := by
  induction positions with
  | nil => rfl
  | cons pos positions ih =>
    rw [List.foldl_cons, Lattice.viterbiInternal, h pos (by simp)]
    exact ih fun pos hpos => h pos (by simp [hpos])

/-- The end of the node is kept as 1, which is in the first segment. -/
theorem not_finds_long {n : Nat} (hn : (n + 1) % 2 ^ 16 = 0) :
    ¬ (oneNode (List.replicate (n + 2) 97)).Finds noCost noCost
      [utf8 "a", List.replicate (n + 1) 97] := by
  have hlen : (List.replicate (n + 2) (97 : UInt8)).length = n + 2 := List.length_replicate
  generalize hkey : List.replicate (n + 2) (97 : UInt8) = key at hlen ⊢
  obtain ⟨hnone, hbegin, hend⟩ := oneNode_nodes (by omega : 0 < key.length)
  rintro ⟨t, ht, hiff, -⟩
  have hsuccess : t.success = true := by
    have hbos : (oneNode key).viterbiBos noCost 1 noLabels =
        setLabel noLabels (.node 0) (some .bos) 0 := by
      have hend' : ((oneNode key).node (.node 0)).endPos = (key.length + 0) % 2 ^ 16 := by
        show min (key.length + 0) key.length % 2 ^ 16 = _
        simp
      rw [viterbiBos, hbegin, List.foldl_cons, List.foldl_nil, viterbiBosNode]
      rw [hend', if_neg (by omega)]
      rfl
    have hlabels : (oneNode key).viterbiLabels noCost noCost
        [utf8 "a", List.replicate (n + 1) 97] = (oneNode key).viterbiEos noCost
          (setLabel noLabels (.node 0) (some .bos) 0) := by
      have hbetween : ∀ pos ∈ List.range' 1 (n + 1), (oneNode key).beginNodes pos = [] := by
        intro pos hpos
        rw [List.mem_range'_1] at hpos
        exact hnone pos (by omega) (by omega)
      rw [← hbos]
      refine congrArg ((oneNode key).viterbiEos noCost) ?_
      show List.foldl _ _ (List.range' 1 (List.replicate (n + 1) (97 : UInt8)).length) = _
      rw [List.length_replicate]
      exact foldl_viterbiInternal_nil hbetween
    have heos : (oneNode key).viterbiEos noCost (setLabel noLabels (.node 0) (some .bos) 0) =
        setLabel (setLabel noLabels (.node 0) (some .bos) 0) .eos (some (.node 0)) 0 := by
      have hkey : (oneNode key).key.length = key.length := rfl
      rw [viterbiEos, hkey, hend]
      rfl
    have htraverse : ((oneNode key).viterbi noCost noCost
        [utf8 "a", List.replicate (n + 1) 97]).map Traversed.success = some true := by
      rw [viterbi, hlabels, heos]
      rfl
    rw [ht] at htraverse
    exact Option.some.inj htraverse
  obtain ⟨p, hp⟩ := hiff.mp hsuccess
  have hreaches := reaches_iff (w := (oneNode key).weight noCost noCost).mpr ⟨p, hp, rfl⟩
  obtain ⟨u, _, hu, he, _⟩ := hreaches.inv (by decide)
  have hadj : u ∈ (oneNode key).endNodes key.length := he.adjacent
  rw [hend, List.mem_singleton] at hadj
  subst hadj
  obtain ⟨u, _, _, he, _⟩ := hu.inv (by decide)
  have hstop := he.inside 1 ⟨1, rfl⟩ (Nat.succ_pos 0)
  have hstop' : (oneNode key).stop (.node 0) = key.length := by
    show min (key.length + 0) key.length = key.length
    omega
  omega

theorem wcost_le (h : ∀ e ∈ l.inserted, e.2.wcost ≤ 0) (v : NodeId) : (l.node v).wcost ≤ 0 := by
  cases v with
  | bos => exact Int.le_refl 0
  | eos => exact Int.le_refl 0
  | node i =>
    simp only [node]
    cases hi : l.inserted[i]? with
    | none => exact Int.le_refl 0
    | some e => exact h e (List.mem_of_getElem? hi)

/-- What keeps a search from finding a cheapest path: a node without a key, a first segment without
one, a node that is to stand behind a node that ends elsewhere, and a key that is too long. -/
theorem not_always_finds :
    ([utf8 "a"].flatten = emptyNode.key ∧ emptyNode.Small noCost noCost [utf8 "a"] ∧
      ¬ emptyNode.Finds noCost noCost [utf8 "a"]) ∧
    ([[], utf8 "a"].flatten = (oneNode (utf8 "a")).key ∧
      (oneNode (utf8 "a")).Small noCost noCost [[], utf8 "a"] ∧
      ¬ (oneNode (utf8 "a")).Finds noCost noCost [[], utf8 "a"]) ∧
    ([utf8 "abc"].flatten = gap.key ∧ gap.Small noCost noCost [utf8 "abc"] ∧
      ¬ gap.Finds noCost noCost [utf8 "abc"]) ∧
    ∃ n, [utf8 "a", List.replicate (n + 1) 97].flatten =
        (oneNode (List.replicate (n + 2) 97)).key ∧
      (oneNode (List.replicate (n + 2) 97)).Small noCost noCost
        [utf8 "a", List.replicate (n + 1) 97] ∧
      ¬ (oneNode (List.replicate (n + 2) 97)).Finds noCost noCost
        [utf8 "a", List.replicate (n + 1) 97] := by
  obtain ⟨n, hn⟩ : ∃ n, (n + 1) % 2 ^ 16 = 0 := ⟨2 ^ 16 - 1, by decide⟩
  refine ⟨⟨by decide, small_of_le (wcost_le (by decide)), not_finds_emptyNode⟩,
    ⟨by decide, small_of_le (wcost_le (by decide)), not_finds_emptySegment⟩,
    ⟨by decide, small_of_le (wcost_le (by decide)), not_finds_gap⟩,
    n, ?_, small_of_le (wcost_le ?_), not_finds_long hn⟩
  · show utf8 "a" ++ (List.replicate (n + 1) 97 ++ []) = List.replicate (n + 2) 97
    rw [List.append_nil]
    rfl
  · intro e he
    obtain rfl := List.mem_singleton.mp he
    exact Int.le_refl 0

/-! ## A search -/

/-- A node for each segment, of which the second has to stand behind the first. -/
def twoNodes : Lattice :=
  ((setKey (utf8 "ab") 0).insert 0 { key := utf8 "a", wcost := -1 } (Nat.zero_le _)).insert 1
    { key := utf8 "b", wcost := -2, constrainedPrev := some (.node 0) } (by decide)

theorem sound_twoNodes : twoNodes.Sound [utf8 "a", utf8 "b"] := by
  refine ⟨by decide, by decide, by decide, by decide, fun v c hv hc => ?_⟩
  cases v with
  | bos => cases hc
  | eos => cases hc
  | node i =>
    rcases i with _ | _ | i
    · cases hc
    · cases hc
      decide
    · cases hc

theorem viterbi_finds_twoNodes : twoNodes.Finds noCost noCost [utf8 "a", utf8 "b"] :=
  viterbi_finds sound_twoNodes (by decide) (small_of_le (wcost_le (by decide)))

end Lattice

end Mozkey.Converter
