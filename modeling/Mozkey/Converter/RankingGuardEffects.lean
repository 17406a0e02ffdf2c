import Mozkey.Converter.RankingGuards

/-!
# What the ranking guards do to a lattice

* `CarefulGuard` — five guards raise some words of the conversion, none of the user dictionary
* `HitGuard` — the other four raise what they hit, with no look at the attributes
-/

namespace Mozkey.Converter

open Infra Base NodeAttribute

variable {pm : PosMatcher} {connector : TransitionCost} {historyKey : Bytes} {l l' : Lattice}
  {v : NodeId} {b pos i : Nat}

/-! ## The nodes that may be raised -/

/-- A node of the dictionaries that begins in the conversion part. -/
def ConversionWord (l : Lattice) (b i : Nat) : Prop :=
  ∃ e, l.inserted[i]? = some e ∧ e.2.nodeType = .nor ∧ b ≤ e.1

/-- A node of the user dictionary. -/
def UserWord (l : Lattice) (i : Nat) : Prop :=
  ∃ e, l.inserted[i]? = some e ∧ e.2.has USER_DICTIONARY = true

def Careful (node : Node) : Prop := node.nodeType = .nor ∧ node.has USER_DICTIONARY = false

theorem careful_of_isOneKanaOneKanjiNode {node : Node} (h : isOneKanaOneKanjiNode pm node = true) :
    Careful node := by
  simp only [isOneKanaOneKanjiNode, Bool.and_eq_true, decide_eq_true_eq, Bool.not_eq_true'] at h
  exact h.1

theorem careful_of_isPrefixConsuming {node : Node}
    (h : isPrefixConsumingContentNodeForRecomposition pm node b = true) : Careful node := by
  simp only [isPrefixConsumingContentNodeForRecomposition, Bool.and_eq_true, decide_eq_true_eq,
    Bool.not_eq_true'] at h
  exact h.1

theorem careful_of_isShitaContentHijackNode {node : Node}
    (h : isShitaContentHijackNode pm node b = true) : Careful node := by
  simp only [isShitaContentHijackNode, Bool.and_eq_true, decide_eq_true_eq,
    Bool.not_eq_true'] at h
  exact h.1

theorem careful_of_isOneKanaOneKanjiGaFusedNode {node : Node}
    (h : isOneKanaOneKanjiGaFusedNode node = true) : Careful node := by
  simp only [isOneKanaOneKanjiGaFusedNode, Bool.and_eq_true, decide_eq_true_eq,
    Bool.not_eq_true'] at h
  exact h.1

theorem conversionWord_of_nor (hl : l.SameButCosts l') (hv : v ∈ l.beginNodes pos) (hb : b ≤ pos)
    (hnor : (l'.node v).nodeType = .nor) : ∀ i, v = .node i → ConversionWord l b i := by
  rw [hl.node_eq (f := Node.nodeType) fun _ _ => rfl] at hnor
  obtain ⟨i, e, rfl, he, rfl, hnode⟩ := Lattice.exists_inserted hv hnor
  rintro j hj
  obtain rfl := NodeId.node.inj hj
  exact ⟨e, he, hnode ▸ hnor, hb⟩

theorem fit_of_careful (hl : l.SameButCosts l') (hv : v ∈ l.beginNodes pos) (hb : b ≤ pos)
    (h : Careful (l'.node v)) : ∀ i, v = .node i → ConversionWord l b i ∧ ¬UserWord l i := by
  intro i hi
  refine ⟨conversionWord_of_nor hl hv hb h.1 i hi, ?_⟩
  rintro ⟨e, he, huser⟩
  have hnode := hl.node_eq (f := fun n => n.has USER_DICTIONARY) (fun _ _ => rfl) v
  rw [h.2, hi] at hnode
  simp only [Lattice.node, he] at hnode
  simp [huser] at hnode

/-! ## The careful guards -/

/-- A guard that raises some words of the conversion, and none of the user dictionary. -/
def CarefulGuard (guard : Bytes → Lattice → Scoring) (historyKey : Bytes) (l : Lattice) : Prop :=
  (guard historyKey l).Follows l fun i => ConversionWord l historyKey.length i ∧ ¬UserWord l i

theorem careful_applyFunctionalKanaGuard :
    CarefulGuard (applyFunctionalKanaGuard pm) historyKey l := by
  refine Scoring.follows_unless fun _ => ?_
  refine (Scoring.follows_start l _).forNodes (l.nodup_nodesFrom _)
    (fun r hr => absurd hr List.not_mem_nil) fun l' hl' v hv p hp => ?_
  obtain ⟨pos, hb, _, hmem⟩ := Lattice.mem_nodesFrom.mp hv
  obtain ⟨hcond, hpenalty⟩ := Option.ite_none_right_eq_some.mp hp
  rw [Bool.and_eq_true] at hcond
  refine ⟨fit_of_careful hl' hmem hb (careful_of_isOneKanaOneKanjiNode hcond.1), ?_⟩
  rw [← Option.some.inj hpenalty]
  exact Int.le_max_left ..

theorem careful_applyContextualRecompositionScorer :
    CarefulGuard (applyContextualRecompositionScorer pm) historyKey l := by
  refine Scoring.follows_unless fun _ => Scoring.follows_unless fun _ =>
    Scoring.follows_unless fun _ => ?_
  refine (Scoring.follows_start l _).forNodes (l.nodup_beginNodes _)
    (fun r hr => absurd hr List.not_mem_nil) fun l' hl' v hv p hp => ?_
  obtain ⟨hcond, hp⟩ := Option.ite_none_right_eq_some.mp hp
  refine ⟨fit_of_careful hl' hv (Nat.le_refl _) (careful_of_isPrefixConsuming hcond), ?_⟩
  split at hp
  · cases hp
  · split at hp
    · cases hp
    · split at hp <;> rw [← Option.some.inj hp] <;> decide

theorem careful_applySahenShitaContentHijackGuard :
    CarefulGuard (applySahenShitaContentHijackGuard pm) historyKey l := by
  refine Scoring.follows_unless fun _ => Scoring.follows_unless fun _ =>
    Scoring.follows_unless fun _ => Scoring.follows_unless fun _ =>
    Scoring.follows_unless fun _ => ?_
  refine (Scoring.follows_start l _).forNodes (l.nodup_beginNodes _)
    (fun r hr => absurd hr List.not_mem_nil) fun l' hl' v hv p hp => ?_
  obtain ⟨hcond, hp⟩ := Option.ite_none_right_eq_some.mp hp
  rw [← Option.some.inj hp]
  exact ⟨fit_of_careful hl' hv (Nat.le_refl _) (careful_of_isShitaContentHijackNode hcond),
    by decide⟩

theorem careful_applyPlaceSuffixGuard : CarefulGuard (applyPlaceSuffixGuard pm) historyKey l := by
  refine Scoring.follows_unless fun _ => ?_
  refine (Scoring.follows_start l _).foldl fun s v hv hs => ?_
  obtain ⟨pos, hb, _, hmem⟩ := Lattice.mem_nodesFrom.mp hv
  simp only [placeSuffixLeft]
  split
  · next hfused =>
    have hfit := fit_of_careful hs.sameButCosts hmem hb
      (careful_of_isOneKanaOneKanjiGaFusedNode hfused)
    split
    · exact hs.raiseOnce hfit (by decide)
    · exact hs
  · split
    · next hcond =>
      rw [Bool.and_eq_true] at hcond
      have hfit := fit_of_careful hs.sameButCosts hmem hb
        (careful_of_isOneKanaOneKanjiNode hcond.1)
      refine hs.foldl fun t ga _ ht => ?_
      split
      · exact ht.raiseOnce hfit (by decide)
      · exact ht
    · exact hs

/-- Where a node that is inserted begins, as the node itself has it. -/
theorem beginPos_of_mem (hkey : l.key.length < 2 ^ 16) (hv : v ∈ l.beginNodes pos)
    (hnor : (l.node v).nodeType = .nor) : (l.node v).beginPos = pos := by
  obtain ⟨i, e, rfl, he, rfl, hnode⟩ := Lattice.exists_inserted hv hnor
  have hmem := List.mem_of_getElem? he
  have hinside := l.inside e hmem
  rw [hnode, (l.placed e hmem).1, Nat.mod_eq_of_lt (by omega)]

theorem careful_applyShortCompoundSplitGuard (hkey : l.key.length < 2 ^ 16) :
    CarefulGuard (applyShortCompoundSplitGuard pm connector) historyKey l := by
  refine Scoring.follows_unless fun _ => Scoring.follows_unless fun _ => ?_
  refine (Scoring.follows_start l _).foldl fun s left hleft hs => ?_
  simp only [shortCompoundLeft]
  split
  · next hcond =>
    simp only [Bool.and_eq_true, decide_eq_true_eq] at hcond
    have hcareful := careful_of_isOneKanaOneKanjiNode hcond.1
    have hfit := fit_of_careful hs.sameButCosts hleft (Nat.le_refl _) hcareful
    -- The right node begins behind the left one, so in the conversion part as well.
    have hbegin : historyKey.length ≤ (s.lattice.node left).endPos := by
      have hnor := hcareful.1
      rw [hs.sameButCosts.node_eq (f := Node.nodeType) fun _ _ => rfl] at hnor
      have h₁ := beginPos_of_mem hkey hleft hnor
      have h₂ := hs.sameButCosts.node_eq (f := Node.beginPos) (fun _ _ => rfl) left
      have h₃ := hcond.2.1
      omega
    refine hs.foldl fun t right hright ht => ?_
    rw [hs.sameButCosts.beginNodes] at hright
    simp only [shortCompoundRight]
    split
    · next hcond' =>
      rw [Bool.and_eq_true] at hcond'
      have hfit' := fit_of_careful ht.sameButCosts hright hbegin
        (careful_of_isOneKanaOneKanjiNode hcond'.1)
      exact (ht.raiseOnce hfit (Int.le_max_left ..)).raiseOnce hfit' (Int.le_max_left ..)
    · exact ht
  · exact hs

/-! ## What the other guards look for -/

def sahenShitaiHit (pm : PosMatcher) (historyKey : Bytes) (l : Lattice) (v : NodeId) : Bool :=
  !historyKey.isEmpty && decide (historyKey.length < l.key.length) &&
    startsWithStringView (l.key.drop historyKey.length) (utf8 "したい") &&
    hasSahenNounHistoryPredecessor pm l historyKey.length &&
    decide (v ∈ l.beginNodes historyKey.length) && isShitaiContentNounHijackNode pm (l.node v)

def administrativeRitsuHit (pm : PosMatcher) (historyKey : Bytes) (l : Lattice) (v : NodeId) :
    Bool :=
  decide (historyKey.length < l.key.length) && decide (v ∈ l.nodesFrom historyKey.length) &&
    (hasAdministrativePredecessor l (l.start v) && hasRitsuSuffixCandidate l (l.start v) &&
      isRitsuHijackNode pm (l.node v))

def adverbialNiHit (pm : PosMatcher) (historyKey : Bytes) (l : Lattice) (v : NodeId) : Bool :=
  decide (historyKey.length < l.key.length) && decide (v ∈ l.nodesFrom historyKey.length) &&
    (isContentKanjiNodeForAdverbialGuard pm (l.node v) &&
      decide ((l.node v).beginPos < (l.node v).endPos) &&
      decide ((l.node v).endPos < l.key.length) &&
      startsWithAnyStringView (l.key.drop (l.node v).endPos) adverbialContexts &&
      hasSameStartAdverbialNiCandidate pm l v)

def grammarLikeProperNounHit (pm : PosMatcher) (historyKey : Bytes) (l : Lattice) (v : NodeId) :
    Bool :=
  decide (historyKey.length < l.key.length) && decide (v ∈ l.beginNodes historyKey.length) &&
    isFullSpanGrammarLikeProperNoun pm l.key.length (l.node v) historyKey.length

/-- One of the four guards that do not look at the attributes demotes the node. -/
def uncheckedHit (pm : PosMatcher) (historyKey : Bytes) (l : Lattice) (v : NodeId) : Bool :=
  sahenShitaiHit pm historyKey l v || administrativeRitsuHit pm historyKey l v ||
    adverbialNiHit pm historyKey l v || grammarLikeProperNounHit pm historyKey l v

namespace Lattice.SameButCosts

/-- A search that does not look at the costs. -/
theorem any_eq (h : l.SameButCosts l') {f : NodeId → Node → Bool}
    (hf : ∀ u n w, f u { n with wcost := w } = f u n) (vs : List NodeId) :
    (vs.any fun u => f u (l'.node u)) = vs.any fun u => f u (l.node u) :=
  List.any_congr rfl fun u => h.node_eq (hf u) u

theorem nodesFrom (h : l.SameButCosts l') (b : Nat) : l'.nodesFrom b = l.nodesFrom b := by
  simp [Lattice.nodesFrom, h.key, funext h.beginNodes]

theorem hasSahenNounHistoryPredecessor (h : l.SameButCosts l') (b : Nat) :
    hasSahenNounHistoryPredecessor pm l' b = hasSahenNounHistoryPredecessor pm l b := by
  unfold Converter.hasSahenNounHistoryPredecessor
  rw [h.endNodes]
  exact congrArg _ (h.any_eq (f := fun _ n => n.endPos = b && n.nodeType = .his &&
    either pm.isUnknown n) (fun _ _ _ => rfl) _)

theorem hasAdministrativePredecessor (h : l.SameButCosts l') (b : Nat) :
    hasAdministrativePredecessor l' b = hasAdministrativePredecessor l b := by
  unfold Converter.hasAdministrativePredecessor
  rw [h.endNodes]
  exact congrArg _ (h.any_eq (f := fun _ n => n.endPos = b &&
    (n.nodeType = .his || n.nodeType = .nor) && endsWithAdministrativeUnit n.value)
    (fun _ _ _ => rfl) _)

theorem hasRitsuSuffixCandidate (h : l.SameButCosts l') (b : Nat) :
    hasRitsuSuffixCandidate l' b = hasRitsuSuffixCandidate l b := by
  unfold Converter.hasRitsuSuffixCandidate
  rw [h.beginNodes]
  exact h.any_eq (f := fun _ n => n.key = utf8 "りつ" && n.value = utf8 "立") (fun _ _ _ => rfl) _

theorem hasSameStartAdverbialNiCandidate (h : l.SameButCosts l') (v : NodeId) :
    hasSameStartAdverbialNiCandidate pm l' v = hasSameStartAdverbialNiCandidate pm l v := by
  unfold Converter.hasSameStartAdverbialNiCandidate
  obtain ⟨w, hw⟩ := h.node v
  rw [hw]
  simp only [h.beginNodes]
  exact h.any_eq (f := fun u n => u ≠ v && (l.node v).endPos < n.endPos &&
    n.key = (l.node v).key ++ utf8 "に" && endsWithStringView n.value (utf8 "に") &&
    n.value ≠ (l.node v).value ++ utf8 "に" && !either pm.isUniqueNoun n) (fun _ _ _ => rfl) _

theorem sahenShitaiHit (h : l.SameButCosts l') (v : NodeId) :
    sahenShitaiHit pm historyKey l' v = sahenShitaiHit pm historyKey l v := by
  have hnode := h.node_eq (f := isShitaiContentNounHijackNode pm) (fun _ _ => rfl) v
  simp only [Converter.sahenShitaiHit, h.key, h.beginNodes, h.hasSahenNounHistoryPredecessor, hnode]

theorem administrativeRitsuHit (h : l.SameButCosts l') (v : NodeId) :
    administrativeRitsuHit pm historyKey l' v = administrativeRitsuHit pm historyKey l v := by
  have hnode := h.node_eq (f := isRitsuHijackNode pm) (fun _ _ => rfl) v
  simp only [Converter.administrativeRitsuHit, h.key, h.nodesFrom, h.start,
    h.hasAdministrativePredecessor, h.hasRitsuSuffixCandidate, hnode]

theorem adverbialNiHit (h : l.SameButCosts l') (v : NodeId) :
    adverbialNiHit pm historyKey l' v = adverbialNiHit pm historyKey l v := by
  have hnode := h.node_eq (f := isContentKanjiNodeForAdverbialGuard pm) (fun _ _ => rfl) v
  have hbegin := h.node_eq (f := Node.beginPos) (fun _ _ => rfl) v
  have hend := h.node_eq (f := Node.endPos) (fun _ _ => rfl) v
  simp only [Converter.adverbialNiHit, h.key, h.nodesFrom, h.hasSameStartAdverbialNiCandidate,
    hnode, hbegin, hend]

theorem grammarLikeProperNounHit (h : l.SameButCosts l') (v : NodeId) :
    grammarLikeProperNounHit pm historyKey l' v = grammarLikeProperNounHit pm historyKey l v := by
  have hnode := h.node_eq (f := fun n => isFullSpanGrammarLikeProperNoun pm l.key.length n
    historyKey.length) (fun _ _ => rfl) v
  simp only [Converter.grammarLikeProperNounHit, h.key, h.beginNodes, hnode]

/-- The raises of the other guards make no difference to these. -/
theorem uncheckedHit (h : l.SameButCosts l') (v : NodeId) :
    uncheckedHit pm historyKey l' v = uncheckedHit pm historyKey l v := by
  simp [Converter.uncheckedHit, h.sahenShitaiHit, h.administrativeRitsuHit, h.adverbialNiHit,
    h.grammarLikeProperNounHit]

end Lattice.SameButCosts

/-- A guard that raises the nodes that it hits, at one penalty. -/
structure HitGuard (guard : Bytes → Lattice → Scoring) (hit : NodeId → Bool) (penalty : Int)
    (historyKey : Bytes) (l : Lattice) : Prop where
  follows : (guard historyKey l).Follows l (ConversionWord l historyKey.length)
  raised : ∀ i p, (i, p) ∈ (guard historyKey l).raised ↔ hit (.node i) = true ∧ p = penalty

theorem hit_applySahenShitaiGuard :
    HitGuard (applySahenShitaiGuard pm) (sahenShitaiHit pm historyKey l) kSahenShitaiHijackPenalty
      historyKey l := by
  refine ⟨?_, fun i p => ?_⟩
  · refine Scoring.follows_unless fun _ => Scoring.follows_unless fun _ =>
      Scoring.follows_unless fun _ => Scoring.follows_unless fun _ => ?_
    refine (Scoring.follows_start l _).forNodes (l.nodup_beginNodes _)
      (fun r hr => absurd hr List.not_mem_nil) fun l' hl' v hv p hp => ?_
    obtain ⟨hcond, hp⟩ := Option.ite_none_right_eq_some.mp hp
    simp only [isShitaiContentNounHijackNode, Bool.and_eq_true, decide_eq_true_eq] at hcond
    rw [← Option.some.inj hp]
    exact ⟨conversionWord_of_nor hl' hv (Nat.le_refl _) hcond.1, by decide⟩
  · simp only [applySahenShitaiGuard]
    simp [Scoring.mem_raised_unless, Scoring.mem_raised_forNodes_const (f := fun l v =>
      isShitaiContentNounHijackNode pm (l.node v)) fun l' hl' v => hl'.node_eq (fun _ _ => rfl) v,
      sahenShitaiHit, and_assoc]

theorem hit_applyAdministrativeRitsuGuard :
    HitGuard (applyAdministrativeRitsuGuard pm) (administrativeRitsuHit pm historyKey l)
      kAdministrativeRitsuPenalty historyKey l := by
  refine ⟨?_, fun i p => ?_⟩
  · refine Scoring.follows_unless fun _ => ?_
    refine (Scoring.follows_start l _).forNodes (l.nodup_nodesFrom _)
      (fun r hr => absurd hr List.not_mem_nil) fun l' hl' v hv p hp => ?_
    obtain ⟨pos, hb, _, hmem⟩ := Lattice.mem_nodesFrom.mp hv
    obtain ⟨hcond, hp⟩ := Option.ite_none_right_eq_some.mp hp
    simp only [isRitsuHijackNode, Bool.and_eq_true, decide_eq_true_eq] at hcond
    rw [← Option.some.inj hp]
    exact ⟨conversionWord_of_nor hl' hmem hb hcond.2.1, by decide⟩
  · simp only [applyAdministrativeRitsuGuard]
    rw [Scoring.mem_raised_unless, Scoring.mem_raised_forNodes_const
        (f := fun l v => hasAdministrativePredecessor l (l.start v) &&
          hasRitsuSuffixCandidate l (l.start v) && isRitsuHijackNode pm (l.node v))
        fun l' hl' v => by
          rw [hl'.hasAdministrativePredecessor, hl'.hasRitsuSuffixCandidate, hl'.start,
            hl'.node_eq (f := isRitsuHijackNode pm) fun _ _ => rfl]]
    simp [administrativeRitsuHit, and_assoc]

theorem hit_applyAdverbialNiGuard :
    HitGuard (applyAdverbialNiGuard pm) (adverbialNiHit pm historyKey l) kAdverbialNiGuardPenalty
      historyKey l := by
  refine ⟨?_, fun i p => ?_⟩
  · refine Scoring.follows_unless fun _ => ?_
    refine (Scoring.follows_start l _).forNodes (l.nodup_nodesFrom _)
      (fun r hr => absurd hr List.not_mem_nil) fun l' hl' v hv p hp => ?_
    obtain ⟨pos, hb, _, hmem⟩ := Lattice.mem_nodesFrom.mp hv
    obtain ⟨hcond, hp⟩ := Option.ite_none_right_eq_some.mp hp
    simp only [isContentKanjiNodeForAdverbialGuard, Bool.and_eq_true, decide_eq_true_eq] at hcond
    rw [← Option.some.inj hp]
    exact ⟨conversionWord_of_nor hl' hmem hb hcond.1.1.1.1.1, by decide⟩
  · simp only [applyAdverbialNiGuard]
    rw [Scoring.mem_raised_unless, Scoring.mem_raised_forNodes_const
        (f := fun k v => isContentKanjiNodeForAdverbialGuard pm (k.node v) &&
          (k.node v).beginPos < (k.node v).endPos && (k.node v).endPos < l.key.length &&
          startsWithAnyStringView (k.key.drop (k.node v).endPos) adverbialContexts &&
          hasSameStartAdverbialNiCandidate pm k v)
        fun l' hl' v => by
          simp [hl'.hasSameStartAdverbialNiCandidate, hl'.key, hl'.node_eq (f :=
            isContentKanjiNodeForAdverbialGuard pm) fun _ _ => rfl, hl'.node_eq (f := Node.beginPos)
            fun _ _ => rfl, hl'.node_eq (f := Node.endPos) fun _ _ => rfl]]
    simp [adverbialNiHit, and_assoc]

theorem hit_applyGrammarLikeProperNounGuard :
    HitGuard (applyGrammarLikeProperNounGuard pm) (grammarLikeProperNounHit pm historyKey l)
      kGrammarLikeProperNounPenalty historyKey l := by
  refine ⟨?_, fun i p => ?_⟩
  · refine Scoring.follows_unless fun _ => ?_
    refine (Scoring.follows_start l _).forNodes (l.nodup_beginNodes _)
      (fun r hr => absurd hr List.not_mem_nil) fun l' hl' v hv p hp => ?_
    obtain ⟨hcond, hp⟩ := Option.ite_none_right_eq_some.mp hp
    simp only [isFullSpanGrammarLikeProperNoun, Bool.and_eq_true, decide_eq_true_eq] at hcond
    rw [← Option.some.inj hp]
    exact ⟨conversionWord_of_nor hl' hv (Nat.le_refl _) hcond.1, by decide⟩
  · simp only [applyGrammarLikeProperNounGuard]
    simp [Scoring.mem_raised_unless, Scoring.mem_raised_forNodes_const (f := fun k v =>
      isFullSpanGrammarLikeProperNoun pm k.key.length (k.node v) historyKey.length) fun l' hl' v =>
      by rw [hl'.key, hl'.node_eq (f := fun n => isFullSpanGrammarLikeProperNoun pm l.key.length n
      historyKey.length) fun _ _ => rfl], grammarLikeProperNounHit, and_assoc]

end Mozkey.Converter
