import Mozkey.Converter.RankingEvidence
import Mathlib.Data.List.Nodup

/-!
# The ranking guards of `MakeLattice`

Nine functions of `converter/immutable_converter.cc`, each of which adds to the word costs of some
nodes of the conversion.
-/

namespace Mozkey.Converter

open Infra Base NodeAttribute

/-- The lattice while a guard runs, and the raises so far. -/
structure Scoring where
  lattice : Lattice
  raised : List (Nat × Int) := []

namespace Scoring

/-- `node->wcost += penalty` -/
def raise (s : Scoring) (v : NodeId) (penalty : Int) : Scoring :=
  match v with
  | .node i => ⟨s.lattice.raise i penalty, s.raised ++ [(i, penalty)]⟩
  | _ => s

/-- `if (penalized.insert(node).second)`: the set has the nodes raised so far. -/
def raiseOnce (s : Scoring) (v : NodeId) (penalty : Int) : Scoring :=
  if v ∈ s.raised.map fun r => NodeId.node r.1 then s else s.raise v penalty

/-- The loop over some nodes that raises each at most once. -/
def forNodes (s : Scoring) (nodes : List NodeId)
    (penalty : Lattice → NodeId → Option Int) : Scoring :=
  nodes.foldl (fun s v =>
    match penalty s.lattice v with
    | some p => s.raise v p
    | none => s) s

end Scoring

/-- The nodes that begin from `pos` on, before the end of the key. -/
def Lattice.nodesFrom (l : Lattice) (pos : Nat) : List NodeId :=
  (List.range' pos (l.key.length - pos)).flatMap l.beginNodes

variable (pm : PosMatcher)

def applyFunctionalKanaGuard (historyKey : Bytes) (l : Lattice) : Scoring :=
  let keySize := l.key.length
  let conversionBeginPos := historyKey.length
  if keySize ≤ conversionBeginPos then ⟨l, []⟩
  else
    let reachable := buildFunctionalReachability pm l conversionBeginPos
    Scoring.forNodes ⟨l, []⟩ (l.nodesFrom conversionBeginPos) fun l v =>
      let node := l.node v
      if isOneKanaOneKanjiNode pm node &&
          (node.beginPos < node.endPos && node.endPos ≤ keySize &&
            hasKnownFunctionalKanaHijackPath pm l reachable node conversionBeginPos) then
        some (getFunctionalKanaGuardPenalty pm l reachable v)
      else none

def kContextualRecompositionPenalty : Int := 1800

def applyContextualRecompositionScorer (historyKey : Bytes) (l : Lattice) : Scoring :=
  let conversionBeginPos := historyKey.length
  if historyKey.isEmpty then ⟨l, []⟩
  else if l.key.length ≤ conversionBeginPos then ⟨l, []⟩
  else if classifyBoundaryContextForRecomposition pm l conversionBeginPos ≠ .closedNominal then
    ⟨l, []⟩
  else
    let reachable := buildFunctionalReachability pm l conversionBeginPos
    Scoring.forNodes ⟨l, []⟩ (l.beginNodes conversionBeginPos) fun l v =>
      let node := l.node v
      if isPrefixConsumingContentNodeForRecomposition pm node conversionBeginPos then
        match findFunctionalPrefixEvidence reachable l conversionBeginPos v with
        | none => none
        | some evidence =>
          -- Numbers stay protected unless the evidence is a copular chain.
          if isNumericContentNodeForRecomposition pm node &&
              !isSupportedWholeFunctionalChainForRecomposition evidence.key then none
          else if isNaraContentNodeForRecomposition node conversionBeginPos then some 2600
          else some kContextualRecompositionPenalty
      else none

def kSahenShitaiHijackPenalty : Int := 1800

def applySahenShitaiGuard (historyKey : Bytes) (l : Lattice) : Scoring :=
  let conversionBeginPos := historyKey.length
  if historyKey.isEmpty then ⟨l, []⟩
  else if l.key.length ≤ conversionBeginPos then ⟨l, []⟩
  else if !startsWithStringView (l.key.drop conversionBeginPos) (utf8 "したい") then ⟨l, []⟩
  else if !hasSahenNounHistoryPredecessor pm l conversionBeginPos then ⟨l, []⟩
  else Scoring.forNodes ⟨l, []⟩ (l.beginNodes conversionBeginPos) fun l v =>
    if isShitaiContentNounHijackNode pm (l.node v) then some kSahenShitaiHijackPenalty else none

def kSahenShitaContentHijackPenalty : Int := 2400

def applySahenShitaContentHijackGuard (historyKey : Bytes) (l : Lattice) : Scoring :=
  let conversionBeginPos := historyKey.length
  if historyKey.isEmpty then ⟨l, []⟩
  else if l.key.length ≤ conversionBeginPos then ⟨l, []⟩
  else if !startsWithStringView (l.key.drop conversionBeginPos) (utf8 "した") then ⟨l, []⟩
  else if !hasSahenNounHistoryPredecessor pm l conversionBeginPos then ⟨l, []⟩
  else if !hasSahenShitaPredicateEvidence l conversionBeginPos then ⟨l, []⟩
  else Scoring.forNodes ⟨l, []⟩ (l.beginNodes conversionBeginPos) fun l v =>
    if isShitaContentHijackNode pm (l.node v) conversionBeginPos then
      some kSahenShitaContentHijackPenalty
    else none

def kAdministrativeRitsuPenalty : Int := 2200

def applyAdministrativeRitsuGuard (historyKey : Bytes) (l : Lattice) : Scoring :=
  let conversionBeginPos := historyKey.length
  if l.key.length ≤ conversionBeginPos then ⟨l, []⟩
  else Scoring.forNodes ⟨l, []⟩ (l.nodesFrom conversionBeginPos) fun l v =>
    -- The position of the loop is where the node begins.
    if hasAdministrativePredecessor l (l.start v) && hasRitsuSuffixCandidate l (l.start v) &&
        isRitsuHijackNode pm (l.node v) then some kAdministrativeRitsuPenalty
    else none

def kPlaceSuffixSplitPenalty : Int := 2600

/-- One node as the left one: a fused node with が, or a node with a particle が behind it. -/
def placeSuffixLeft (s : Scoring) (left : NodeId) : Scoring :=
  let keySize := s.lattice.key.length
  let node := s.lattice.node left
  if isOneKanaOneKanjiGaFusedNode node then
    if node.beginPos < node.endPos && node.endPos < keySize &&
        hasPlaceSuffixEvidence s.lattice node.endPos &&
        hasSameSpanPlaceCandidate pm s.lattice node.beginPos node.endPos then
      s.raiseOnce left kPlaceSuffixSplitPenalty
    else s
  else if isOneKanaOneKanjiNode pm node &&
    (node.beginPos < node.endPos && node.endPos < keySize) then
    (s.lattice.beginNodes node.endPos).foldl (fun s ga =>
      let gaNode := s.lattice.node ga
      if isGaParticleNode pm gaNode && gaNode.beginPos < gaNode.endPos && gaNode.endPos < keySize &&
          hasPlaceSuffixEvidence s.lattice gaNode.endPos &&
          hasSameSpanPlaceCandidate pm s.lattice (s.lattice.node left).beginPos gaNode.endPos then
        s.raiseOnce left kPlaceSuffixSplitPenalty
      else s) s
  else s

def applyPlaceSuffixGuard (historyKey : Bytes) (l : Lattice) : Scoring :=
  let conversionBeginPos := historyKey.length
  if l.key.length ≤ conversionBeginPos then ⟨l, []⟩
  else (l.nodesFrom conversionBeginPos).foldl (placeSuffixLeft pm) ⟨l, []⟩

def kAdverbialNiGuardPenalty : Int := 4500

/-- Before one of these, a demotion is precise enough. -/
def adverbialContexts : List String :=
  ["にはありません", "にはございません", "にはできない", "にはいかない", "にもかかわらず"]

def applyAdverbialNiGuard (historyKey : Bytes) (l : Lattice) : Scoring :=
  let keySize := l.key.length
  let conversionBeginPos := historyKey.length
  if keySize ≤ conversionBeginPos then ⟨l, []⟩
  else Scoring.forNodes ⟨l, []⟩ (l.nodesFrom conversionBeginPos) fun l v =>
    let node := l.node v
    if isContentKanjiNodeForAdverbialGuard pm node && node.beginPos < node.endPos &&
        node.endPos < keySize &&
          startsWithAnyStringView (l.key.drop node.endPos) adverbialContexts &&
        hasSameStartAdverbialNiCandidate pm l v then some kAdverbialNiGuardPenalty
    else none

def kGrammarLikeProperNounPenalty : Int := 6500

def applyGrammarLikeProperNounGuard (historyKey : Bytes) (l : Lattice) : Scoring :=
  let conversionBeginPos := historyKey.length
  if l.key.length ≤ conversionBeginPos then ⟨l, []⟩
  else Scoring.forNodes ⟨l, []⟩ (l.beginNodes conversionBeginPos) fun l v =>
    if isFullSpanGrammarLikeProperNoun pm l.key.length (l.node v) conversionBeginPos then
      some kGrammarLikeProperNounPenalty
    else none

/-- One node as the right one of a split. -/
def shortCompoundRight (connector : TransitionCost) (left : NodeId) (s : Scoring)
    (right : NodeId) : Scoring :=
  let keySize := s.lattice.key.length
  let node := s.lattice.node right
  if isOneKanaOneKanjiNode pm node && (node.beginPos < node.endPos && node.endPos ≤ keySize &&
      node.endPos = keySize &&
      hasCompetitiveShortWholeSpanCandidate pm connector s.lattice left right) then
    let s := s.raiseOnce left (getShortCompoundSplitPenalty pm (s.lattice.node left))
    s.raiseOnce right (getShortCompoundSplitPenalty pm (s.lattice.node right))
  else s

/-- One node as the left one. -/
def shortCompoundLeft (connector : TransitionCost) (s : Scoring) (left : NodeId) : Scoring :=
  let node := s.lattice.node left
  if isOneKanaOneKanjiNode pm node &&
      (node.beginPos < node.endPos && node.endPos ≤ s.lattice.key.length) then
    (s.lattice.beginNodes node.endPos).foldl (shortCompoundRight pm connector left) s
  else s

def applyShortCompoundSplitGuard (connector : TransitionCost) (historyKey : Bytes) (l : Lattice) :
    Scoring :=
  let conversionBeginPos := historyKey.length
  if l.key.length ≤ conversionBeginPos then ⟨l, []⟩
  else if !isTwoHiraganaCharSpan (l.key.drop conversionBeginPos) then ⟨l, []⟩
  else (l.beginNodes conversionBeginPos).foldl (shortCompoundLeft pm connector) ⟨l, []⟩

/-! ## In `MakeLattice` -/

/-- The guards in order. The last one is for conversions with the boundaries of the converter. -/
def rankingGuards (connector : TransitionCost) (isConversion resized : Bool) :
    List (Bytes → Lattice → Scoring) :=
  [applyFunctionalKanaGuard pm, applyContextualRecompositionScorer pm, applySahenShitaiGuard pm,
    applySahenShitaContentHijackGuard pm, applyAdministrativeRitsuGuard pm,
    applyPlaceSuffixGuard pm, applyAdverbialNiGuard pm, applyGrammarLikeProperNounGuard pm] ++
  if isConversion && !resized then [applyShortCompoundSplitGuard pm connector] else []

/-- Guards one after the other: the lattice, and what each of them raised. -/
def applyGuards (historyKey : Bytes) :
    List (Bytes → Lattice → Scoring) → Lattice → Lattice × List (List (Nat × Int))
  | [], l => (l, [])
  | guard :: guards, l =>
    let s := guard historyKey l
    let (l, raised) := applyGuards historyKey guards s.lattice
    (l, s.raised :: raised)

end Mozkey.Converter

/-!
## The loops of the guards

Whatever a guard looks at, it raises by one of two steps, `raise` in a loop over different nodes
and `raiseOnce`. Both keep `Follows`: the lattice is the old one with the raises, no node is
raised twice, and the nodes that are raised are fit for it.
-/

namespace Mozkey.Converter

open Infra Base

/-! ## The nodes of a loop -/

namespace Lattice

variable {l l' : Lattice} {v : NodeId} {pos b : Nat}

theorem nodup_nodesWhere (l : Lattice) (p : Nat × Node → Bool) : (l.nodesWhere p).Nodup := by
  have hrange : (l.inserted.zipIdx.map Prod.snd).Nodup := by
    simpa using List.nodup_range'
  have hindices : ((l.inserted.zipIdx.filter fun e => p e.1).map Prod.snd).Nodup :=
    (List.filter_sublist.map _).nodup hrange
  rw [nodesWhere, ← Function.comp_def NodeId.node Prod.snd, ← List.map_map]
  exact hindices.map fun i j h => NodeId.node.inj h

theorem nodup_beginNodes (l : Lattice) (pos : Nat) : (l.beginNodes pos).Nodup := by
  rw [beginNodes]
  split
  · refine List.Nodup.append (List.nodup_singleton _) (l.nodup_nodesWhere _) ?_
    intro v hv hv'
    obtain ⟨i, _, rfl, _⟩ := mem_nodesWhere.mp hv'
    simp at hv
  · simpa using l.nodup_nodesWhere _

theorem mem_nodesFrom :
    v ∈ l.nodesFrom b ↔ ∃ pos, b ≤ pos ∧ pos < l.key.length ∧ v ∈ l.beginNodes pos := by
  rw [nodesFrom, List.mem_flatMap]
  refine exists_congr fun pos => ?_
  rw [List.mem_range'_1]
  constructor
  · rintro ⟨⟨hle, hlt⟩, hv⟩
    exact ⟨hle, by omega, hv⟩
  · rintro ⟨hle, hlt, hv⟩
    exact ⟨⟨hle, by omega⟩, hv⟩

theorem nodup_nodesFrom (l : Lattice) (b : Nat) : (l.nodesFrom b).Nodup := by
  rw [nodesFrom, List.nodup_flatMap]
  refine ⟨fun pos _ => l.nodup_beginNodes pos, ?_⟩
  refine List.Pairwise.imp ?_ (List.nodup_range' (s := b) (n := l.key.length - b))
  intro p q hne v hv hv'
  exact hne ((mem_beginNodes.mp hv).2.2.symm.trans (mem_beginNodes.mp hv').2.2)

/-- A word of the dictionary among the nodes that begin somewhere. -/
theorem exists_inserted (hv : v ∈ l.beginNodes pos) (hnor : (l.node v).nodeType = .nor) :
    ∃ i e, v = .node i ∧ l.inserted[i]? = some e ∧ e.1 = pos ∧ l.node v = e.2 := by
  obtain ⟨hhas, hbos, hstart⟩ := mem_beginNodes.mp hv
  cases v with
  | bos => exact absurd rfl hbos
  | eos => cases hnor
  | node i =>
    have hi : l.inserted[i]? = some l.inserted[i] := List.getElem?_eq_getElem hhas
    refine ⟨i, l.inserted[i], rfl, hi, ?_, ?_⟩
    · simpa only [start, hi] using hstart
    · simp only [node, hi]

end Lattice

/-! ## What the steps keep -/

namespace Scoring

variable {s : Scoring} {l : Lattice} {ok : Nat → Prop} {v : NodeId} {p : Int}
  {vs : List NodeId} {penalty : Lattice → NodeId → Option Int}

structure Follows (s : Scoring) (l : Lattice) (ok : Nat → Prop) : Prop where
  lattice : s.lattice = l.raiseAll s.raised
  fit : ∀ r ∈ s.raised, ok r.1 ∧ 0 ≤ r.2
  once : (s.raised.map Prod.fst).Nodup

theorem Follows.sameButCosts (h : s.Follows l ok) : l.SameButCosts s.lattice := by
  rw [h.lattice]
  exact Lattice.sameButCosts_raiseAll _ _

theorem follows_start (l : Lattice) (ok : Nat → Prop) : Follows ⟨l, []⟩ l ok :=
  ⟨rfl, fun r hr => absurd hr List.not_mem_nil, List.nodup_nil⟩

/-- A guard that gives up early. -/
theorem follows_unless {c : Prop} [Decidable c] (h : ¬c → s.Follows l ok) :
    Follows (if c then ⟨l, []⟩ else s) l ok := by
  split
  · exact follows_start l ok
  · next hc => exact h hc

theorem Follows.raise (h : s.Follows l ok) (hok : ∀ i, v = .node i → ok i) (hp : 0 ≤ p)
    (hnew : ∀ r ∈ s.raised, NodeId.node r.1 ≠ v) : (s.raise v p).Follows l ok := by
  cases v with
  | bos => exact h
  | eos => exact h
  | node i =>
    refine ⟨?_, fun r hr => ?_, ?_⟩
    · show s.lattice.raise i p = l.raiseAll (s.raised ++ [(i, p)])
      rw [Lattice.raiseAll_append, ← h.lattice]
      rfl
    · rcases List.mem_append.mp hr with hr | hr
      · exact h.fit r hr
      · rw [List.mem_singleton.mp hr]
        exact ⟨hok i rfl, hp⟩
    · show ((s.raised ++ [(i, p)]).map Prod.fst).Nodup
      rw [List.map_append]
      refine h.once.append (List.nodup_singleton _) fun j hj hj' => ?_
      obtain ⟨r, hr, rfl⟩ := List.mem_map.mp hj
      rw [List.map_singleton, List.mem_singleton] at hj'
      exact hnew r hr (congrArg NodeId.node hj')

theorem Follows.raiseOnce (h : s.Follows l ok) (hok : ∀ i, v = .node i → ok i) (hp : 0 ≤ p) :
    (s.raiseOnce v p).Follows l ok := by
  unfold Scoring.raiseOnce
  split
  · exact h
  · next hnew => exact h.raise hok hp fun r hr heq => hnew (List.mem_map.mpr ⟨r, hr, heq⟩)

/-- **A loop over different nodes.** -/
theorem Follows.forNodes (h : s.Follows l ok) (hnodup : vs.Nodup)
    (hnew : ∀ r ∈ s.raised, NodeId.node r.1 ∉ vs)
    (hpenalty : ∀ l', l.SameButCosts l' → ∀ v ∈ vs, ∀ p, penalty l' v = some p →
      (∀ i, v = .node i → ok i) ∧ 0 ≤ p) : (s.forNodes vs penalty).Follows l ok := by
  induction vs generalizing s with
  | nil => exact h
  | cons v vs ih =>
    obtain ⟨hv, hvs⟩ := List.nodup_cons.mp hnodup
    have hrest : ∀ l', l.SameButCosts l' → ∀ u ∈ vs, ∀ p, penalty l' u = some p →
        (∀ i, u = .node i → ok i) ∧ 0 ≤ p :=
      fun l' hl' u hu => hpenalty l' hl' u (List.mem_cons_of_mem _ hu)
    rw [Scoring.forNodes, List.foldl_cons, ← Scoring.forNodes]
    split
    · next p hp =>
      obtain ⟨hok, hp'⟩ := hpenalty s.lattice h.sameButCosts v List.mem_cons_self p hp
      have hne : ∀ r ∈ s.raised, NodeId.node r.1 ≠ v := fun r hr heq =>
        hnew r hr (heq ▸ List.mem_cons_self)
      refine ih (h.raise hok hp' hne) hvs (fun r hr => ?_) hrest
      cases v with
      | bos => exact fun hmem => hnew r hr (List.mem_cons_of_mem _ hmem)
      | eos => exact fun hmem => hnew r hr (List.mem_cons_of_mem _ hmem)
      | node i =>
        rcases List.mem_append.mp hr with hr | hr
        · exact fun hmem => hnew r hr (List.mem_cons_of_mem _ hmem)
        · rw [List.mem_singleton.mp hr]
          exact hv
    · exact ih h hvs (fun r hr hmem => hnew r hr (List.mem_cons_of_mem _ hmem)) hrest

/-- A loop that takes steps of its own. -/
theorem Follows.foldl {step : Scoring → NodeId → Scoring} (h : s.Follows l ok)
    (hstep : ∀ s v, v ∈ vs → s.Follows l ok → (step s v).Follows l ok) :
    (vs.foldl step s).Follows l ok := by
  induction vs generalizing s with
  | nil => exact h
  | cons v vs ih =>
    exact ih (hstep s v List.mem_cons_self h)
      fun s u hu => hstep s u (List.mem_cons_of_mem _ hu)

/-- **What a loop raises**, when the raises make no difference to it. -/
theorem mem_raised_forNodes (hs : l.SameButCosts s.lattice)
    (hblind : ∀ l', l.SameButCosts l' → ∀ v, penalty l' v = penalty l v) {i : Nat} :
    (i, p) ∈ (s.forNodes vs penalty).raised ↔
      (i, p) ∈ s.raised ∨ NodeId.node i ∈ vs ∧ penalty l (.node i) = some p := by
  induction vs generalizing s with
  | nil => simp [Scoring.forNodes]
  | cons v vs ih =>
    rw [Scoring.forNodes, List.foldl_cons, ← Scoring.forNodes]
    split
    · next q hq =>
      rw [hblind _ hs] at hq
      cases v with
      | bos =>
        show (i, p) ∈ (s.forNodes vs penalty).raised ↔ _
        simp [ih hs]
      | eos =>
        show (i, p) ∈ (s.forNodes vs penalty).raised ↔ _
        simp [ih hs]
      | node j =>
        rw [ih (hs.trans (Lattice.sameButCosts_raise _ _ _)), List.mem_cons]
        simp only [Scoring.raise, List.mem_append, List.mem_singleton, Prod.mk.injEq,
          NodeId.node.injEq]
        constructor
        · rintro ((h | ⟨rfl, rfl⟩) | ⟨h, hp⟩)
          · exact .inl h
          · exact .inr ⟨.inl rfl, hq⟩
          · exact .inr ⟨.inr h, hp⟩
        · rintro (h | ⟨rfl | h, hp⟩)
          · exact .inl (.inl h)
          · exact .inl (.inr ⟨rfl, Option.some.inj (hp.symm.trans hq)⟩)
          · exact .inr ⟨h, hp⟩
    · next hq =>
      rw [hblind _ hs] at hq
      rw [ih hs, List.mem_cons]
      constructor
      · rintro (h | ⟨h, hp⟩)
        · exact .inl h
        · exact .inr ⟨.inr h, hp⟩
      · rintro (h | ⟨rfl | h, hp⟩)
        · exact .inl h
        · simp [hp] at hq
        · exact .inr ⟨h, hp⟩

theorem Follows.imp {ok' : Nat → Prop} (h : s.Follows l ok)
    (hok : ∀ i p, (i, p) ∈ s.raised → ok i → ok' i) : s.Follows l ok' :=
  ⟨h.lattice, fun r hr => ⟨hok r.1 r.2 hr (h.fit r hr).1, (h.fit r hr).2⟩, h.once⟩

theorem mem_raised_unless {c : Prop} [Decidable c] {r : Nat × Int} :
    r ∈ (if c then (⟨l, []⟩ : Scoring) else s).raised ↔ ¬c ∧ r ∈ s.raised := by
  split
  · next hc => simp [hc]
  · next hc => simp [hc]

/-- The loop with one penalty. -/
theorem mem_raised_forNodes_const {c : Int} {f : Lattice → NodeId → Bool}
    (hblind : ∀ l', l.SameButCosts l' → ∀ v, f l' v = f l v) {i : Nat} :
    (i, p) ∈ (Scoring.forNodes ⟨l, []⟩ vs fun l v => if f l v then some c else none).raised ↔
      NodeId.node i ∈ vs ∧ f l (.node i) = true ∧ p = c := by
  rw [mem_raised_forNodes (.refl l) fun l' hl' v => by rw [hblind l' hl' v]]
  simp only [List.not_mem_nil, false_or, Option.ite_none_right_eq_some, Option.some.injEq]
  exact and_congr_right fun _ => and_congr_right fun _ => eq_comm

end Scoring

end Mozkey.Converter
