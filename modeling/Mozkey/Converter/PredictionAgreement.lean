import Mozkey.Converter.PredictionViterbi

/-!
# The two searches agree

* `ForPrediction` — the lattices that `MakeLattice` builds for suggestions and predictions
* `prediction_agrees` — both searches find a path or none, and at the same cost
-/

namespace Mozkey.Converter

open Infra Base Infra.ShortestPath Infra.SortedMap

namespace Lattice

/-- A lattice for history segments and one conversion segment. -/
structure ForPrediction (l : Lattice) (history : List Bytes) (conversionKey : Bytes) : Prop where
  key : history.flatten ++ conversionKey = l.key
  historyKeys : ∀ k ∈ history, k ≠ []
  conversionKey_ne : conversionKey ≠ []
  short : l.key.length < 2 ^ 16
  nonempty : ∀ e ∈ l.inserted, e.1 < l.key.length ∧ e.2.key ≠ []
  unconstrained : ∀ e ∈ l.inserted, e.2.constrainedPrev = none
  /-- A node that begins in a history segment is for this segment. -/
  spans : ∀ pre k post, history = pre ++ k :: post → ∀ e ∈ l.inserted,
    pre.flatten.length ≤ e.1 → e.1 < pre.flatten.length + k.length →
      e.1 = pre.flatten.length ∧ e.2.key.length = k.length
  /-- Of which there is one or two. -/
  oneOrTwo : ∀ pre k post, history = pre ++ k :: post →
    (l.inserted.filter fun e => e.1 = pre.flatten.length).length ∈ [1, 2]
  /-- A node of the conversion begins where another ends. -/
  attached : ∀ e ∈ l.inserted, history.flatten.length ≤ e.1 →
    e.1 = 0 ∨ ∃ e' ∈ l.inserted, e'.2.stop l.key.length e'.1 = e.1

variable {l : Lattice} {history : List Bytes} {conversionKey : Bytes} {conn : TransitionCost}
  {u v : NodeId} {L : Labels NodeId}

theorem exists_segment : ∀ {keys : List Bytes} {pos : Nat}, pos < keys.flatten.length →
    ∃ pre k post, keys = pre ++ k :: post ∧ pre.flatten.length ≤ pos ∧
      pos < pre.flatten.length + k.length
  | [], pos, h => by simp at h
  | k :: keys, pos, h => by
    rw [List.flatten_cons, List.length_append] at h
    rcases Nat.lt_or_ge pos k.length with hlt | hge
    · exact ⟨[], k, keys, rfl, by simp, by simpa using hlt⟩
    · obtain ⟨pre, k', post, rfl, hle, hlt⟩ :=
        @exists_segment keys (pos - k.length) (by omega)
      refine ⟨k :: pre, k', post, rfl, ?_, ?_⟩
      · rw [List.flatten_cons, List.length_append]
        omega
      · rw [List.flatten_cons, List.length_append]
        omega

namespace ForPrediction

theorem length_eq (h : l.ForPrediction history conversionKey) :
    l.key.length = history.flatten.length + conversionKey.length := by
  simp [← h.key]

/-- The nodes of the conversion end in it, those of the history in their segment. -/
theorem stop_le (h : l.ForPrediction history conversionKey) {e : Nat × Node}
    (he : e ∈ l.inserted) (b : Nat) (hb : Boundary (history ++ [conversionKey]) b)
    (hlt : e.1 < b) : e.2.stop l.key.length e.1 ≤ b := by
  rcases Nat.lt_or_ge e.1 history.flatten.length with hin | hout
  · obtain ⟨pre, k, post, hsplit, hle, hlt'⟩ := exists_segment hin
    obtain ⟨heq, hlen⟩ := h.spans pre k post hsplit e he hle hlt'
    refine (inside_iff pre _ (by rw [hsplit, List.append_assoc]; rfl) hle hlt').mpr ?_ b hb hlt
    rw [Node.stop, heq, hlen]
    omega
  · have hlt' := (h.nonempty e he).1
    rw [h.length_eq] at hlt'
    refine (inside_iff history _ rfl hout hlt').mpr ?_ b hb hlt
    rw [Node.stop, h.length_eq]
    omega

theorem sound (h : l.ForPrediction history conversionKey) :
    l.Sound (history ++ [conversionKey]) := by
  refine ⟨by rw [← h.key]; simp, ?_, h.short, h.nonempty, fun v c hv hc => ?_⟩
  · cases hh : history with
    | nil => simpa using h.conversionKey_ne
    | cons k history => simpa using h.historyKeys k (by simp [hh])
  · cases v with
    | bos => cases hc
    | eos => cases hc
    | node i =>
      have hi : i < l.inserted.length := (mem_beginNodes.mp hv).1
      simp only [node, List.getElem?_eq_getElem hi] at hc
      simp [h.unconstrained _ (List.getElem_mem hi)] at hc

/-- A node may stand behind each that ends where it begins. -/
theorem follows (h : l.ForPrediction history conversionKey) {i : Nat}
    (hi : i < l.inserted.length) (hu : u ∈ l.endNodes (l.start (.node i))) :
    l.Follows (history ++ [conversionKey]) u (.node i) := by
  have hget := List.getElem?_eq_getElem hi
  have hmem := List.getElem_mem hi
  refine ⟨mem_beginNodes.mpr ⟨hi, by simp, rfl⟩, hu, fun b hb hlt => ?_, fun c hc => ?_⟩
  · simp only [start, stop, hget] at hlt ⊢
    exact h.stop_le hmem b hb hlt
  · simp only [node, hget] at hc
    simp [h.unconstrained _ hmem] at hc

/-- Something ends where a node begins. -/
theorem exists_left (h : l.ForPrediction history conversionKey) {e : Nat × Node}
    (he : e ∈ l.inserted) : e.1 = 0 ∨ ∃ e' ∈ l.inserted, e'.2.stop l.key.length e'.1 = e.1 := by
  rcases Nat.lt_or_ge e.1 history.flatten.length with hin | hout
  · obtain ⟨pre, k, post, hsplit, hle, hlt'⟩ := exists_segment hin
    obtain ⟨heq, _⟩ := h.spans pre k post hsplit e he hle hlt'
    rcases List.eq_nil_or_concat' pre with rfl | ⟨pre', k', rfl⟩
    · exact .inl heq
    · have hsplit' : history = pre' ++ k' :: (k :: post) := by simp [hsplit]
      have hcount := h.oneOrTwo pre' k' _ hsplit'
      have hcount' : 0 < (l.inserted.filter fun e => e.1 = pre'.flatten.length).length := by
        rcases List.mem_cons.mp hcount with h1 | h2
        · rw [h1]
          exact Nat.one_pos
        · rw [List.mem_singleton.mp h2]
          exact Nat.two_pos
      obtain ⟨e', he'⟩ := List.exists_mem_of_length_pos hcount'
      rw [List.mem_filter, decide_eq_true_eq] at he'
      have hk' : 0 < k'.length := List.length_pos_iff.mpr (h.historyKeys k' (by simp [hsplit']))
      obtain ⟨_, hlen⟩ := h.spans pre' k' _ hsplit' e' he'.1 (by omega) (by omega)
      refine .inr ⟨e', he'.1, ?_⟩
      have hend : (pre' ++ [k']).flatten.length = pre'.flatten.length + k'.length := by simp
      have := (h.nonempty e he).1
      rw [Node.stop, he'.2, hlen, heq, hend]
      omega
  · exact h.attached e he hout

/-- Every node can be reached. -/
theorem reaches (h : l.ForPrediction history conversionKey) (conn : TransitionCost) {i : Nat}
    (hi : i < l.inserted.length) : ∃ a, Reaches (l.Follows (history ++ [conversionKey]))
      (l.weight conn conn) .bos (.node i) a := by
  induction hn : l.start (.node i) using Nat.strong_induction_on generalizing i with
  | _ n ih =>
    have hget := List.getElem?_eq_getElem hi
    have hstart : l.start (.node i) = l.inserted[i].1 := by simp only [start, hget]
    rcases h.exists_left (List.getElem_mem hi) with hzero | ⟨e', he', hstop⟩
    · have hbos : .bos ∈ l.endNodes (l.start (.node i)) :=
        mem_endNodes.mpr ⟨trivial, by simp, by rw [hstart, hzero]; rfl⟩
      exact ⟨_, .step .source (h.follows hi hbos)⟩
    · obtain ⟨j, hj, rfl⟩ := List.getElem_of_mem he'
      have hgetj := List.getElem?_eq_getElem hj
      have hleft : .node j ∈ l.endNodes (l.start (.node i)) :=
        mem_endNodes.mpr ⟨hj, by simp, by simp only [stop, hgetj, hstart, hstop]⟩
      have hlt : l.start (.node j) < n := by
        have := h.sound.start_lt_stop (v := .node j) hj (by simp) (by simp)
        rw [(mem_endNodes.mp hleft).2.2] at this
        omega
      obtain ⟨a, ha⟩ := ih _ hlt hj rfl
      exact ⟨_, .step ha (h.follows hi hleft)⟩

end ForPrediction

/-! ## Positions -/

/-- Everything that begins before `pos` has its label, and the EOS node none. -/
structure PredictedBefore (l : Lattice) (conn : TransitionCost) (keys : List Bytes) (pos : Nat)
    (L : Labels NodeId) : Prop where
  solved : l.SolvedBefore conn conn keys pos L
  eos : L.prev .eos = none

theorem predictionStep_other {calcEndPos pos : Nat} (h : v ∉ l.beginNodes pos) :
    (l.predictionStep conn calcEndPos L pos).prev v = L.prev v := by
  rw [predictionStep_eq]
  generalize l.lbest L (l.endNodes pos) = m
  generalize l.beginNodes pos = nodes at h
  induction nodes using List.reverseRecOn with
  | nil => rfl
  | append_singleton nodes w ih =>
    rw [List.mem_append, List.mem_singleton, not_or] at h
    simp [(searchedNode_other h.2).1, ih h.1]

/-- The nodes that end where a reachable node begins are reached. -/
theorem PredictedBefore.reached {pos : Nat} (hl : l.ForPrediction history conversionKey)
    (h : l.SolvedBefore conn conn (history ++ [conversionKey]) pos L)
    (hu : u ∈ l.endNodes pos) : Reached .bos L u := by
  obtain ⟨hhas, hue, hstop⟩ := mem_endNodes.mp hu
  cases u with
  | bos => exact .inl rfl
  | eos => exact absurd rfl hue
  | node i =>
    have hlt := hl.sound.start_lt_stop (v := .node i) hhas (by simp) (by simp)
    obtain ⟨a, ha⟩ := hl.reaches conn hhas
    have hsolved := h.solved (.node i) (mem_beginNodes.mpr ⟨hhas, by simp, rfl⟩) (by omega)
    exact Known.reached (.inr hsolved) ha

theorem SolvedBefore.predictionStep {pos calcEndPos : Nat}
    (hl : l.ForPrediction history conversionKey)
    (hsmall : l.Small conn conn (history ++ [conversionKey]))
    (hleft : l.endNodes pos ≠ []) (hend : ∀ v ∈ l.beginNodes pos, l.stop v ≤ calcEndPos)
    (h : l.SolvedBefore conn conn (history ++ [conversionKey]) pos L) :
    l.SolvedBefore conn conn (history ++ [conversionKey]) (pos + 1)
      (l.predictionStep conn calcEndPos L pos) := by
  rw [predictionStep_eq]
  refine h.foldl hl.sound (fun _ _ _ => searchedNode_other) fun L' v hv hs hpred hsame => ?_
  have hrank : ∀ u ∈ l.endNodes pos, l.rank u < pos + 1 := fun u hu => by
    obtain ⟨hhas, hue, hstop⟩ := mem_endNodes.mp hu
    by_cases hub : u = .bos
    · subst hub
      exact Nat.succ_pos _
    · have := hl.sound.start_lt_stop hhas hub hue
      rw [rank_of_ne hub]
      omega
  obtain ⟨hhas, hvb, hstart⟩ := mem_beginNodes.mp hv
  have hinside : ∀ b, Boundary (history ++ [conversionKey]) b → pos < b → l.stop v ≤ b := by
    cases v with
    | bos => exact absurd rfl hvb
    | eos => exact fun b hb hlt => absurd (boundary_le hl.sound hb) (by
        simp only [start] at hstart
        omega)
    | node i =>
      have hget := List.getElem?_eq_getElem hhas
      intro b hb hlt
      simp only [start, hget] at hstart
      simp only [stop, hget]
      exact hl.stop_le (List.getElem_mem hhas) b hb (by omega)
  have hfree : (l.node v).constrainedPrev = none := by
    cases v with
    | bos => rfl
    | eos => rfl
    | node i =>
      simpa [node, List.getElem?_eq_getElem hhas] using hl.unconstrained _ (List.getElem_mem hhas)
  refine solved_searchedNode hl.sound hsmall hv (hend v hv) hinside hfree hleft (fun u hu => ?_) hs
    hpred fun u hu => (hsame u (hrank u hu)).2
  have hr := PredictedBefore.reached hl h hu
  exact hr.imp_right fun hne => by rwa [(hsame u (hrank u hu)).1]

theorem endNodes_ne (hl : l.ForPrediction history conversionKey) {i : Nat}
    (hi : i < l.inserted.length) : l.endNodes (l.start (.node i)) ≠ [] := by
  obtain ⟨a, ha⟩ := hl.reaches (fun _ _ => 0) hi
  obtain ⟨u, _, _, he, _⟩ := ha.inv (by simp)
  exact List.ne_nil_of_mem he.adjacent

theorem PredictedBefore.step {pos calcEndPos : Nat} (hl : l.ForPrediction history conversionKey)
    (hsmall : l.Small conn conn (history ++ [conversionKey])) (hlt : pos < l.key.length)
    (hend : ∀ v ∈ l.beginNodes pos, l.stop v ≤ calcEndPos)
    (h : l.PredictedBefore conn (history ++ [conversionKey]) pos L) :
    l.PredictedBefore conn (history ++ [conversionKey]) (pos + 1)
      (l.predictionStep conn calcEndPos L pos) := by
  have heos : .eos ∉ l.beginNodes pos := fun hmem => by
    have := (mem_beginNodes.mp hmem).2.2
    simp only [start] at this
    omega
  refine ⟨?_, (predictionStep_other heos).trans h.eos⟩
  cases hnodes : l.beginNodes pos with
  | nil =>
    rw [predictionStep_eq, hnodes]
    refine ⟨h.solved.source, fun v hv hv' => h.solved.solved v hv ?_⟩
    refine Nat.lt_of_le_of_ne (Nat.le_of_lt_succ hv') fun heq => ?_
    simp [heq, hnodes] at hv
  | cons v nodes =>
    refine h.solved.predictionStep hl hsmall ?_ hend
    obtain ⟨hhas, hvb, hstart⟩ := mem_beginNodes.mp (show v ∈ l.beginNodes pos by simp [hnodes])
    cases v with
    | bos => exact absurd rfl hvb
    | eos => exact absurd (show .eos ∈ l.beginNodes pos by simp [hnodes]) heos
    | node i => exact hstart ▸ endNodes_ne hl hhas

theorem PredictedBefore.positions {calcEndPos : Nat} (hl : l.ForPrediction history conversionKey)
    (hsmall : l.Small conn conn (history ++ [conversionKey])) :
    ∀ (count : Nat) {pos : Nat} {L : Labels NodeId}, pos + count ≤ l.key.length →
    (∀ p v, p < pos + count → v ∈ l.beginNodes p → l.stop v ≤ calcEndPos) →
    l.PredictedBefore conn (history ++ [conversionKey]) pos L →
    l.PredictedBefore conn (history ++ [conversionKey]) (pos + count)
      ((List.range' pos count).foldl (l.predictionStep conn calcEndPos) L)
  | 0, _, _, _, _, h => h
  | count + 1, pos, L, hle, hend, h => by
    have hstep := h.step hl hsmall (by omega) fun v hv => hend pos v (by omega) hv
    have hrest := PredictedBefore.positions hl hsmall count (by omega)
      (fun p v hp hv => hend p v (by omega) hv) hstep
    rw [List.range'_succ, List.foldl_cons]
    rwa [Nat.add_right_comm] at hrest

/-! ## The two ranges -/

/-- At the end of the history no node is short enough. -/
theorem predictionStep_history (hl : l.ForPrediction history conversionKey) :
    l.predictionStep conn history.flatten.length L history.flatten.length = L := by
  rw [predictionStep_eq]
  refine (List.foldl_ext _ (fun L _ => L) L fun L' v hv => ?_).trans (List.foldl_fixed _)
  obtain ⟨hhas, hvb, hstart⟩ := mem_beginNodes.mp hv
  have hpos : 0 < conversionKey.length := List.length_pos_iff.mpr hl.conversionKey_ne
  refine if_pos ?_
  rw [hl.sound.endPos_eq hhas]
  cases v with
  | bos => exact absurd rfl hvb
  | eos =>
    show _ < l.key.length
    rw [hl.length_eq]
    omega
  | node i => exact hstart ▸ hl.sound.start_lt_stop hhas (by simp) (by simp)

theorem PredictedBefore.solvedAll (hl : l.ForPrediction history conversionKey)
    (hsmall : l.Small conn conn (history ++ [conversionKey]))
    (h : l.PredictedBefore conn (history ++ [conversionKey]) l.key.length L) :
    l.SolvedAll conn conn (history ++ [conversionKey])
      (l.predictionStep conn l.key.length L l.key.length) := by
  have hstart : ∀ v, l.Has v → l.start v ≤ l.key.length := by
    intro v hv
    cases v with
    | bos => exact Nat.zero_le _
    | eos => exact Nat.le_refl _
    | node i =>
      simpa [start, List.getElem?_eq_getElem hv] using l.inside _ (List.getElem_mem hv)
  by_cases hleft : l.endNodes l.key.length = []
  · -- Nothing ends at the end, and the EOS node keeps no label.
    have hsame : l.predictionStep conn l.key.length L l.key.length = L := by
      rw [predictionStep, if_pos (by rw [lbest_isEmpty, hleft]; rfl)]
    rw [hsame]
    refine ⟨h.solved.source, fun u v hu => ?_, .inr (.of_none (by simp) (fun u hu => ?_) h.eos
      fun u hu _ => ?_)⟩
    · exact h.solved.known hl.sound hu (hstart v (mem_beginNodes.mp hu.mem).1)
    · exact h.solved.known hl.sound hu (Nat.le_refl _)
    · have hadj : u ∈ l.endNodes l.key.length := hu.adjacent
      simp [hleft] at hadj
  · have hall := h.solved.predictionStep hl hsmall hleft fun v _ => l.stop_le v
    refine ⟨hall.source, fun u v hu => ?_, .inr ?_⟩
    · have := hstart v (mem_beginNodes.mp hu.mem).1
      exact hall.known hl.sound hu (by omega)
    · exact hall.solved .eos (mem_beginNodes.mpr ⟨trivial, by simp, rfl⟩) (Nat.lt_succ_self _)

theorem ForPrediction.stop_le_history (hl : l.ForPrediction history conversionKey) {pos : Nat}
    (hv : v ∈ l.beginNodes pos) (hlt : pos < history.flatten.length) :
    l.stop v ≤ history.flatten.length := by
  obtain ⟨hhas, hvb, hstart⟩ := mem_beginNodes.mp hv
  have hlen := hl.length_eq
  cases v with
  | bos => exact absurd rfl hvb
  | eos =>
    simp only [start] at hstart
    omega
  | node i =>
    have hget := List.getElem?_eq_getElem hhas
    simp only [start, hget] at hstart
    simp only [stop, hget]
    exact hl.stop_le (List.getElem_mem hhas) _ ⟨history.length, by simp⟩ (by omega)

theorem predictionLabels_solved (hl : l.ForPrediction history conversionKey)
    (hsmall : l.Small conn conn (history ++ [conversionKey])) :
    l.SolvedAll conn conn (history ++ [conversionKey]) (l.predictionLabels conn history) := by
  have hlen := hl.length_eq
  have hzero : l.PredictedBefore conn (history ++ [conversionKey]) 0 noLabels :=
    ⟨solvedBefore_zero, rfl⟩
  have hhistory := hzero.positions hl hsmall history.flatten.length (by omega)
    fun p v hp hv => hl.stop_le_history hv (by omega)
  rw [Nat.zero_add] at hhistory
  have hconversion := hhistory.positions hl hsmall conversionKey.length (by omega)
    fun p v _ _ => l.stop_le v
  rw [← hlen] at hconversion
  have hfinal := hconversion.solvedAll hl hsmall
  have hcount : l.key.length + 1 - history.flatten.length = conversionKey.length + 1 := by omega
  have hend : history.flatten.length + conversionKey.length = l.key.length := hlen.symm
  unfold predictionLabels predictionRange
  dsimp only
  rw [hcount, Nat.sub_zero, List.range'_1_concat, List.foldl_append, List.foldl_cons,
    List.foldl_nil, Nat.zero_add, predictionStep_history hl, List.range'_1_concat,
    List.foldl_append, List.foldl_cons, List.foldl_nil, hend]
  exact hfinal

/-- **Both searches find a path or none, and at the same cost.** -/
theorem prediction_agrees (hl : l.ForPrediction history conversionKey)
    (hsmall : l.Small conn conn (history ++ [conversionKey])) :
    ∃ t t', l.predictionViterbi conn history = some t ∧
      l.viterbi conn conn (history ++ [conversionKey]) = some t' ∧
      (t.success = true ↔ t'.success = true) ∧
      (t.success = true → t.labels.cost .eos = t'.labels.cost .eos) := by
  have h := predictionLabels_solved hl hsmall
  have h' := viterbiLabels_solved hl.sound hsmall (by simp)
  obtain ⟨t, ht, hlabels, hsuccess, hlinked⟩ := traverse_spec hl.sound h
  obtain ⟨t', ht', hlabels', hsuccess', hlinked'⟩ := traverse_spec hl.sound h'
  have hiff : t.success = true ↔ t'.success = true := by
    refine ⟨fun hs => ?_, fun hs => ?_⟩
    · obtain ⟨p, hp⟩ := hlinked hs
      exact hsuccess'.mpr (h'.eos.cost_le h'.source hp.path).1
    · obtain ⟨p, hp⟩ := hlinked' hs
      exact hsuccess.mpr (h.eos.cost_le h.source hp.path).1
  refine ⟨t, t', ht, ht', hiff, fun hs => ?_⟩
  rw [hlabels, hlabels']
  exact (h.eos.least h.source (hsuccess.mp hs)).unique
    (h'.eos.least h'.source (hsuccess'.mp (hiff.mp hs)))

/-- A history segment with two nodes. -/
def historyNodes : Lattice :=
  (((setKey (utf8 "ab") 0).insert 0 { key := utf8 "a", rid := 1, nodeType := .his }
    (Nat.zero_le 2)).insert 0 { key := utf8 "a", nodeType := .his } (Nat.zero_le _)).insert 1
      { key := utf8 "b", wcost := -1 } (by decide)

theorem forPrediction_historyNodes : historyNodes.ForPrediction [utf8 "a"] (utf8 "b") := by
  have honly : ∀ {pre post : List Bytes} {k : Bytes}, [utf8 "a"] = pre ++ k :: post →
      pre = [] ∧ k = utf8 "a" := by
    intro pre post k h
    rcases pre with _ | ⟨x, pre⟩
    · exact ⟨rfl, (List.cons.inj h).1.symm⟩
    · have := congrArg List.length h
      simp at this
  refine ⟨by decide, by decide, by decide, by decide, by decide, by decide,
    fun pre k post h => ?_, fun pre k post h => ?_, by decide⟩
  · obtain ⟨rfl, rfl⟩ := honly h
    decide
  · obtain ⟨rfl, rfl⟩ := honly h
    decide

theorem prediction_agrees_historyNodes :
    ∃ t t', historyNodes.predictionViterbi noCost [utf8 "a"] = some t ∧
      historyNodes.viterbi noCost noCost [utf8 "a", utf8 "b"] = some t' ∧
      (t.success = true ↔ t'.success = true) ∧
      (t.success = true → t.labels.cost .eos = t'.labels.cost .eos) :=
  prediction_agrees forPrediction_historyNodes (small_of_le (wcost_le (by decide)))

/-! ## Where they do not agree -/

/-- Both searches end, with the same success and the same cost. -/
def Agrees (l : Lattice) (conn : TransitionCost) (history : List Bytes) (conversionKey : Bytes) :
    Prop :=
  ∃ t t', l.predictionViterbi conn history = some t ∧
    l.viterbi conn conn (history ++ [conversionKey]) = some t' ∧
    (t.success = true ↔ t'.success = true) ∧ t.labels.cost .eos = t'.labels.cost .eos

/-- The second node begins where nothing ends. -/
def detached : Lattice :=
  ((setKey (utf8 "ab") 0).insert 0 { key := utf8 "ab", wcost := 10 } (Nat.zero_le 2)).insert 1
    { key := utf8 "b" } (by decide)

/-- The second node is empty. -/
def withEmptyNode : Lattice :=
  (((setKey (utf8 "ab") 0).insert 0 { key := utf8 "a", wcost := 5 } (Nat.zero_le 2)).insert 1 {}
    (by decide)).insert 1 { key := utf8 "b" } (by decide)

def expensive : Lattice :=
  (setKey (utf8 "a") 0).insert 0 { key := utf8 "a", wcost := kVeryBigCost } (Nat.zero_le 1)

/-- Nothing ends at the end. -/
def unfinished : Lattice :=
  (setKey (utf8 "ab") 0).insert 0 { key := utf8 "a" } (Nat.zero_le 2)

def outcome (t : Traversed) : Bool × Int := (t.success, t.labels.cost .eos)

theorem Agrees.outcome_eq {conversionKey : Bytes} (h : l.Agrees conn history conversionKey) :
    ∃ o, (l.predictionViterbi conn history).map outcome = some o ∧
      (l.viterbi conn conn (history ++ [conversionKey])).map outcome = some o := by
  obtain ⟨t, t', ht, ht', hiff, hcost⟩ := h
  refine ⟨outcome t, by rw [ht]; rfl, ?_⟩
  simp [ht', outcome, hcost, Bool.eq_iff_iff.mpr hiff]

/-- None of these lattices has history or constrained nodes. -/
theorem not_always_agrees : ¬ detached.Agrees noCost [] (utf8 "ab") ∧
    ¬ withEmptyNode.Agrees noCost [] (utf8 "ab") ∧ ¬ expensive.Agrees noCost [] (utf8 "a") ∧
    ¬ unfinished.Agrees noCost [] (utf8 "ab") := by
  refine ⟨fun h => ?_, fun h => ?_, fun h => ?_, fun h => ?_⟩
  · obtain ⟨o, ho, ho'⟩ := h.outcome_eq
    rw [show (detached.predictionViterbi noCost []).map outcome = some (false, 0) by decide] at ho
    rw [← ho] at ho'
    exact absurd ho' (by decide)
  · obtain ⟨o, ho, _⟩ := h.outcome_eq
    simp [show (withEmptyNode.predictionViterbi noCost []).map outcome = none by decide] at ho
  · obtain ⟨o, ho, ho'⟩ := h.outcome_eq
    rw [show (expensive.predictionViterbi noCost []).map outcome = some (true, 536870911) by
      decide] at ho
    rw [← ho] at ho'
    exact absurd ho' (by decide)
  · obtain ⟨o, ho, ho'⟩ := h.outcome_eq
    rw [show (unfinished.predictionViterbi noCost []).map outcome = some (false, 0) by decide] at ho
    rw [← ho] at ho'
    exact absurd ho' (by decide)

end Lattice

end Mozkey.Converter
