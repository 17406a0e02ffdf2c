import Mozkey.Infra.SortedMap
import Mozkey.Converter.CheapestPath

/-!
# Viterbi for predictions

`ImmutableConverter::PredictionViterbi` of `converter/immutable_converter.cc`, without a bonus for
omitted particles. Only the best of the nodes with the same `rid` is kept on the left, and one
search is made for all of the nodes with the same `lid` on the right.

* `lbest_spec`, `relax_spec` — the best node of all
* `SolvedBefore.predictionStep` — it gives the right label when all nodes on the left are reached
-/

namespace Mozkey.Converter

open Infra Base Infra.ShortestPath Infra.SortedMap

/-- `INT_MAX` -/
def kIntMax : Int := 2147483647

abbrev CostAndNode := Int × Option NodeId

/-- A vector, in the order of the ids. -/
abbrev BestMap := List (Nat × CostAndNode)

namespace Lattice

variable (l : Lattice)

/-- The best node for each `rid`. -/
def lbest (L : Labels NodeId) (left : List NodeId) : BestMap :=
  left.foldl (fun m lnode => upsert (l.node lnode).rid
    (fun
      | none => (L.cost lnode, some lnode)
      | some b => if L.cost lnode < b.1 then (L.cost lnode, some lnode) else b) m) []

/-- The `lid`s of the nodes that end before `calcEndPos`. -/
def rbestKeys (calcEndPos : Nat) (right : List NodeId) : BestMap :=
  right.foldl (fun m rnode =>
    if calcEndPos < (l.node rnode).endPos then m
    else upsert (l.node rnode).lid (fun | none => (kIntMax, none) | some b => b) m) []

/-- The best connection of a `lid`. -/
def relax (conn : TransitionCost) (lbest : BestMap) (lid : Nat) (acc : CostAndNode) :
    CostAndNode :=
  lbest.foldl (fun acc liter =>
    let cost := liter.2.1 + conn liter.1 lid
    if cost < acc.1 then (cost, liter.2.2) else acc) acc

def predictionNode (calcEndPos : Nat) (rbest : BestMap) (L : Labels NodeId) (rnode : NodeId) :
    Labels NodeId :=
  if calcEndPos < (l.node rnode).endPos then L
  else
    match lookup rbest (l.node rnode).lid with
    | some (cost, some lnode) => setLabel L rnode (some lnode) (cost + (l.node rnode).wcost)
    | _ => L

/-- `PredictionViterbiInternalImpl` -/
def predictionStep (conn : TransitionCost) (calcEndPos : Nat) (L : Labels NodeId) (pos : Nat) :
    Labels NodeId :=
  let lbest := l.lbest L (l.endNodes pos)
  if lbest.isEmpty then L
  else
    let rbest := l.rbestKeys calcEndPos (l.beginNodes pos)
    if rbest.isEmpty then L
    else
      let rbest := rbest.map fun riter => (riter.1, relax conn lbest riter.1 riter.2)
      (l.beginNodes pos).foldl (l.predictionNode calcEndPos rbest) L

/-- `PredictionViterbiInternal` -/
def predictionRange (conn : TransitionCost) (calcBeginPos calcEndPos : Nat)
    (L : Labels NodeId) : Labels NodeId :=
  (List.range' calcBeginPos (calcEndPos + 1 - calcBeginPos)).foldl
    (l.predictionStep conn calcEndPos) L

def predictionLabels (conn : TransitionCost) (historyKeys : List Bytes) : Labels NodeId :=
  let historyLength := historyKeys.flatten.length
  l.predictionRange conn historyLength l.key.length
    (l.predictionRange conn 0 historyLength noLabels)

def predictionViterbi (conn : TransitionCost) (historyKeys : List Bytes) : Option Traversed :=
  l.traverse (l.predictionLabels conn historyKeys)

end Lattice

/-! ## Contraction -/

namespace Lattice

variable {l : Lattice} {conn : TransitionCost} {L : Labels NodeId} {left right : List NodeId}

/-- Every node has one that costs no more and has its `rid`. -/
structure LBest (l : Lattice) (L : Labels NodeId) (left : List NodeId) (m : BestMap) : Prop where
  sorted : Sorted m
  le : ∀ u ∈ left, ∃ b, lookup m (l.node u).rid = some b ∧ b.1 ≤ L.cost u
  some : ∀ rid b, lookup m rid = some b →
    ∃ u ∈ left, (l.node u).rid = rid ∧ b = (L.cost u, some u)

theorem lbest_spec (l : Lattice) (L : Labels NodeId) (left : List NodeId) :
    l.LBest L left (l.lbest L left) := by
  induction left using List.reverseRecOn with
  | nil => exact ⟨List.Pairwise.nil, by simp, fun rid b h => by cases h⟩
  | append_singleton left v ih =>
    unfold lbest at ih ⊢
    rw [List.foldl_append, List.foldl_cons, List.foldl_nil]
    generalize List.foldl _ _ left = m at ih ⊢
    refine ⟨ih.sorted.upsert, fun u hu => ?_, fun rid b h => ?_⟩
    · rw [lookup_upsert ih.sorted]
      split
      · next hrid =>
        refine ⟨_, rfl, ?_⟩
        rcases List.mem_append.mp hu with hu | hu
        · obtain ⟨b, hb, hle⟩ := ih.le u hu
          rw [← hrid, hb]
          dsimp only
          split
          · dsimp only
            omega
          · exact hle
        · obtain rfl := List.mem_singleton.mp hu
          cases lookup m (l.node u).rid with
          | none => exact Int.le_refl _
          | some b =>
            dsimp only
            split
            · exact Int.le_refl _
            · omega
      · next hrid =>
        rcases List.mem_append.mp hu with hu | hu
        · exact ih.le u hu
        · exact absurd (congrArg (fun v => (l.node v).rid) (List.mem_singleton.mp hu)) hrid
    · have keep : lookup m rid = some b →
          ∃ u ∈ left ++ [v], (l.node u).rid = rid ∧ b = (L.cost u, some u) := fun h => by
        obtain ⟨u, hu, hrest⟩ := ih.some rid b h
        exact ⟨u, by simp [hu], hrest⟩
      rw [lookup_upsert ih.sorted] at h
      split at h
      · next hrid =>
        subst hrid
        have hnew := Option.some.inj h
        cases hl : lookup m (l.node v).rid with
        | none =>
          rw [hl] at hnew
          exact ⟨v, by simp, rfl, hnew.symm⟩
        | some c =>
          rw [hl] at hnew
          dsimp only at hnew
          split at hnew
          · exact ⟨v, by simp, rfl, hnew.symm⟩
          · exact keep (hnew ▸ hl)
      · exact keep h

theorem relax_eq (conn : TransitionCost) (m : BestMap) (lid : Nat) (acc : CostAndNode) :
    (relax conn m lid acc = acc ∨
      ∃ e ∈ m, relax conn m lid acc = (e.2.1 + conn e.1 lid, e.2.2)) ∧
    ∀ e ∈ m, (relax conn m lid acc).1 ≤ e.2.1 + conn e.1 lid := by
  induction m using List.reverseRecOn with
  | nil => exact ⟨.inl rfl, by simp⟩
  | append_singleton m e ih =>
    unfold relax at ih ⊢
    rw [List.foldl_append, List.foldl_cons, List.foldl_nil]
    generalize List.foldl _ acc m = c at ih ⊢
    obtain ⟨hc, hle⟩ := ih
    dsimp only
    split
    · refine ⟨.inr ⟨e, by simp, rfl⟩, fun x hx => ?_⟩
      rcases List.mem_append.mp hx with hx | hx
      · have := hle x hx
        dsimp only
        omega
      · exact Int.le_of_eq (by rw [List.mem_singleton.mp hx])
    · refine ⟨hc.imp_right fun ⟨x, hx, heq⟩ => ⟨x, by simp [hx], heq⟩, fun x hx => ?_⟩
      rcases List.mem_append.mp hx with hx | hx
      · exact hle x hx
      · rw [List.mem_singleton.mp hx]
        omega

/-- The best connection, over all nodes on the left. -/
theorem relax_spec (l : Lattice) (conn : TransitionCost) (L : Labels NodeId) (left : List NodeId)
    (lid : Nat) :
    let c := relax conn (l.lbest L left) lid (kIntMax, none)
    (c.2 = none → c.1 = kIntMax) ∧
      (∀ u, c.2 = some u → u ∈ left ∧ c.1 = L.cost u + conn (l.node u).rid lid) ∧
      ∀ u ∈ left, c.1 ≤ L.cost u + conn (l.node u).rid lid := by
  have hbest := l.lbest_spec L left
  obtain ⟨hc, hle⟩ := relax_eq conn (l.lbest L left) lid (kIntMax, none)
  have hentry : ∀ e ∈ l.lbest L left, ∃ u ∈ left, (l.node u).rid = e.1 ∧ e.2 = (L.cost u, some u) :=
    fun e he => hbest.some e.1 e.2 ((mem_iff_lookup hbest.sorted).mp he)
  refine ⟨fun hnone => ?_, fun u hu => ?_, fun u hu => ?_⟩
  · rcases hc with hc | ⟨e, he, hc⟩
    · rw [hc]
    · obtain ⟨u, _, _, hentry⟩ := hentry e he
      simp [hc, hentry] at hnone
  · rcases hc with hc | ⟨e, he, hc⟩
    · simp [hc] at hu
    · obtain ⟨u', hu', hrid, hentry⟩ := hentry e he
      rw [hc, hentry] at hu
      cases hu
      exact ⟨hu', by rw [hc, hentry, hrid]⟩
  · obtain ⟨b, hb, hbu⟩ := hbest.le u hu
    have := hle (_, b) ((mem_iff_lookup hbest.sorted).mpr hb)
    dsimp only at this
    omega

theorem lbest_isEmpty (l : Lattice) (L : Labels NodeId) {left : List NodeId} :
    (l.lbest L left).isEmpty = left.isEmpty := by
  have hbest := l.lbest_spec L left
  cases left with
  | nil => rfl
  | cons u left =>
    obtain ⟨b, hb, _⟩ := hbest.le u (by simp)
    have hmem := (mem_iff_lookup hbest.sorted).mpr hb
    cases hm : l.lbest L (u :: left) with
    | nil =>
      simp [hm] at hmem
    | cons e m => rfl

/-- The ids that a search is made for. -/
theorem rbestKeys_spec (l : Lattice) (calcEndPos : Nat) (right : List NodeId) :
    Sorted (l.rbestKeys calcEndPos right) ∧ ∀ lid,
      lookup (l.rbestKeys calcEndPos right) lid =
        if ∃ v ∈ right, (l.node v).endPos ≤ calcEndPos ∧ (l.node v).lid = lid then
          some (kIntMax, none) else none := by
  induction right using List.reverseRecOn with
  | nil => exact ⟨List.Pairwise.nil, by simp [rbestKeys, lookup]⟩
  | append_singleton right v ih =>
    unfold rbestKeys at ih ⊢
    rw [List.foldl_append, List.foldl_cons, List.foldl_nil]
    generalize List.foldl _ _ right = m at ih ⊢
    obtain ⟨hsorted, hlookup⟩ := ih
    split
    · next hout =>
      refine ⟨hsorted, fun lid => ?_⟩
      simp [hlookup, or_and_right, exists_or, Nat.not_le.mpr hout]
    · next hin =>
      refine ⟨hsorted.upsert, fun lid => ?_⟩
      rw [lookup_upsert hsorted]
      split
      · next hlid =>
        rw [if_pos ⟨v, by simp, by omega, hlid.symm⟩, hlookup]
        by_cases hold :
          ∃ u ∈ right, (l.node u).endPos ≤ calcEndPos ∧ (l.node u).lid = (l.node v).lid
        · rw [if_pos hold]
        · rw [if_neg hold]
      · next hlid =>
        simp [hlookup, or_and_right, exists_or, Ne.symm hlid]

/-! ## A position -/

variable {keys : List Bytes} {v : NodeId} {pos calcEndPos : Nat}

/-- What a search over the nodes on the left gives a node. -/
def searchedNode (l : Lattice) (conn : TransitionCost) (calcEndPos : Nat) (m : BestMap)
    (L : Labels NodeId) (v : NodeId) : Labels NodeId :=
  if calcEndPos < (l.node v).endPos then L
  else
    match relax conn m (l.node v).lid (kIntMax, none) with
    | (cost, some u) => setLabel L v (some u) (cost + (l.node v).wcost)
    | _ => L

/-- One search for a `lid` is as good as one for each node. -/
theorem predictionStep_eq (l : Lattice) (conn : TransitionCost) (calcEndPos : Nat)
    (L : Labels NodeId) (pos : Nat) : l.predictionStep conn calcEndPos L pos =
      (l.beginNodes pos).foldl
        (l.searchedNode conn calcEndPos (l.lbest L (l.endNodes pos))) L := by
  have hkeep {f : Labels NodeId → NodeId → Labels NodeId}
      (hf : ∀ L', ∀ v ∈ l.beginNodes pos, L' = f L' v) : L = (l.beginNodes pos).foldl f L :=
    (List.foldl_fixed (l.beginNodes pos)).symm.trans (List.foldl_ext _ _ L hf)
  obtain ⟨_, hlookup⟩ := l.rbestKeys_spec calcEndPos (l.beginNodes pos)
  unfold predictionStep
  dsimp only
  generalize l.lbest L (l.endNodes pos) = m
  split
  · next hm =>
    rw [List.isEmpty_iff.mp hm]
    refine hkeep fun L' v hv => ?_
    unfold searchedNode
    split
    · rfl
    · rfl
  · split
    · next hr =>
      rw [List.isEmpty_iff.mp hr] at hlookup
      refine hkeep fun L' v hv => ?_
      have hout : calcEndPos < (l.node v).endPos := by
        rcases Nat.lt_or_ge calcEndPos (l.node v).endPos with h | h
        · exact h
        · have := hlookup (l.node v).lid
          rw [if_pos ⟨v, hv, h, rfl⟩] at this
          cases this
      exact (if_pos hout).symm
    · refine List.foldl_ext _ _ L fun L' v hv => ?_
      unfold predictionNode searchedNode
      split
      · rfl
      · next hin =>
        rw [lookup_map fun lid => relax conn m lid, hlookup, if_pos ⟨v, hv, by omega, rfl⟩,
          Option.map_some]
        rcases relax conn m (l.node v).lid (kIntMax, none) with ⟨cost, _ | u⟩
        · rfl
        · rfl

theorem searchedNode_other {m : BestMap} {x : NodeId} (h : x ≠ v) :
    (l.searchedNode conn calcEndPos m L v).prev x = L.prev x ∧
      (l.searchedNode conn calcEndPos m L v).cost x = L.cost x := by
  unfold searchedNode
  split
  · exact ⟨rfl, rfl⟩
  · split
    · exact setLabel_other h
    · exact ⟨rfl, rfl⟩

/-- A node gets its label if all nodes on the left are reached, of which there is one. -/
theorem solved_searchedNode {L' : Labels NodeId} (hl : l.Sound keys)
    (hsmall : l.Small conn conn keys) (hv : v ∈ l.beginNodes pos)
    (hend : l.stop v ≤ calcEndPos) (hinside : ∀ b, Boundary keys b → pos < b → l.stop v ≤ b)
    (hfree : (l.node v).constrainedPrev = none) (hleft : l.endNodes pos ≠ [])
    (hreached : ∀ u ∈ l.endNodes pos, Reached .bos L' u)
    (hs : l.SourceOk keys L') (hpred : ∀ u, l.Follows keys u v → l.IsKnown conn conn keys L' u)
    (hsame : ∀ u ∈ l.endNodes pos, L'.cost u = L.cost u) :
    l.IsSolved conn conn keys
      (l.searchedNode conn calcEndPos (l.lbest L (l.endNodes pos)) L' v) v := by
  obtain ⟨hhas, hvb, hstart⟩ := mem_beginNodes.mp hv
  have hrank : ∀ u v, l.Follows keys u v → l.rank u < l.rank v := fun _ _ h => hl.rank_lt h
  have hfollows : ∀ u ∈ l.endNodes pos, l.Follows keys u v := fun u hu =>
    ⟨hstart ▸ hv, hstart ▸ hu, hstart ▸ hinside, fun c hc => by rw [hfree] at hc; cases hc⟩
  have htransition : ∀ u, l.transition conn conn u v = conn (l.node u).rid (l.node v).lid :=
    fun u => by rw [transition, ite_self]
  obtain ⟨hnone, hsome, hle⟩ := relax_spec l conn L (l.endNodes pos) (l.node v).lid
  rw [searchedNode, hl.endPos_eq hhas, if_neg (by omega)]
  generalize relax conn (l.lbest L (l.endNodes pos)) (l.node v).lid (kIntMax, none) =
    c at hnone hsome hle
  obtain ⟨cost, _ | u⟩ := c
  · obtain ⟨u, hu⟩ := List.exists_mem_of_ne_nil _ hleft
    have hcost := hle u hu
    have hlt := hsmall u v _ ((hpred u (hfollows u hu)).least hs (hreached u hu)).1 (hfollows u hu)
    have := hnone rfl
    rw [htransition, hsame u hu] at hlt
    simp only [kIntMax] at this
    simp only [kVeryBigCost] at hlt
    omega
  · obtain ⟨hu, hcost⟩ := hsome u rfl
    refine .relabel_min hrank hvb hs (fun x => setLabel_other) hpred setLabel_prev (hfollows u hu)
      (hreached u hu) ?_ fun u' hu' _ => ?_
    · rw [setLabel_cost, weight, htransition, hsame u hu]
      dsimp only at hcost
      omega
    · have hu'mem : u' ∈ l.endNodes pos := hstart ▸ hu'.adjacent
      have := hle u' hu'mem
      rw [weight, weight, htransition, htransition, hsame u hu, hsame u' hu'mem]
      dsimp only at this hcost
      omega

end Lattice

end Mozkey.Converter
