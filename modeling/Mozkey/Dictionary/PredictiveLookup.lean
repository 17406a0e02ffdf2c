import Mathlib.Data.Set.Card
import Mozkey.Storage.LoudsTrie

/-!
# Predictive lookup

`dictionary/system/key_expansion_table.h`, and the search of
`dictionary/system/system_dictionary.cc` for the keys that start with an encoded key.

One queue has the nodes that match a part of the key and those below the whole key. When there are
enough results, the rest of the queue is only searched for results of the same length.

* `collectPredictiveNodesInBfsOrder_shortest` — the shortest completions are found, all or enough
-/

namespace Mozkey.Dictionary

open Infra Storage.Louds

/-! ## Expansion tables -/

/-- `uint32_t table_[256][256 / 32]` -/
structure KeyExpansionTable where
  table : UInt8 → UInt8 → BitVec 32

namespace KeyExpansionTable

/-- `ExpandedKey::IsHit` of the row of a letter -/
def isHit (table : KeyExpansionTable) (key value : UInt8) : Bool :=
  ((table.table key (value / 32) >>> (value % 32).toNat) &&& 1#32) != 0#32

def setBit (table : KeyExpansionTable) (key value : UInt8) : KeyExpansionTable where
  table k word :=
    if k = key ∧ word = value / 32 then table.table k word ||| (1#32 <<< (value % 32).toNat)
    else table.table k word

/-- The constructor: each letter stands for itself. -/
def new : KeyExpansionTable :=
  (List.range 256).foldl (fun table i => table.setBit (UInt8.ofNat i) (UInt8.ofNat i))
    ⟨fun _ _ => 0⟩

def add (table : KeyExpansionTable) (key : UInt8) (data : Bytes) : KeyExpansionTable :=
  data.foldl (fun table value => table.setBit key value) table

end KeyExpansionTable

/-! ## The search -/

structure PredictiveLookupSearchState where
  node : Node
  keyPos : Nat
  numExpanded : Nat
  deriving DecidableEq

variable (keyTrie : LoudsTrie) (encodedKey : Bytes) (table : KeyExpansionTable) (limit : Nat)

/-- The loop over the children of a node that is above the end of the key. -/
def pushExpanded (state : PredictiveLookupSearchState) (targetChar : UInt8) :
    List Node → Option (List PredictiveLookupSearchState)
  | [] => some []
  | node :: nodes => do
    let c ← keyTrie.getEdgeLabelToParentNode node
    let pushed ← pushExpanded state targetChar nodes
    if table.isHit targetChar c then
      return ⟨node, state.keyPos + 1, state.numExpanded + (c != targetChar).toNat⟩ :: pushed
    else return pushed

/-- Collects all the remaining keys that have the same length as the longest key. -/
def collectRemaining (maxKeyLen : Nat) :
    List PredictiveLookupSearchState → Option (List PredictiveLookupSearchState)
  | [] => some []
  | state :: queue =>
    if maxKeyLen < state.keyPos then some []
    else do
      let terminal ← keyTrie.isTerminalNode state.node
      let collected ← collectRemaining maxKeyLen queue
      return if terminal then state :: collected else collected

def collectLoop : Nat → List PredictiveLookupSearchState → List PredictiveLookupSearchState →
    Option (List PredictiveLookupSearchState)
  | _, [], result => some result
  | 0, _ :: _, _ => none
  | fuel + 1, state :: queue, result =>
    if h : state.keyPos < encodedKey.length then do
      let nodes ← keyTrie.childNodes state.node
      let pushed ← pushExpanded keyTrie table state encodedKey[state.keyPos] nodes
      collectLoop fuel (queue ++ pushed) result
    else do
      let terminal ← keyTrie.isTerminalNode state.node
      let result := if terminal then result ++ [state] else result
      if limit < result.length then
        return result ++ (← collectRemaining keyTrie state.keyPos queue)
      else
        let nodes ← keyTrie.childNodes state.node
        collectLoop fuel
          (queue ++ nodes.map fun node => ⟨node, state.keyPos + 1, state.numExpanded⟩) result

/-- `SystemDictionary::CollectPredictiveNodesInBfsOrder`, when the loop ends after so many steps -/
def collectPredictiveNodesInBfsOrder (fuel : Nat) : Option (List PredictiveLookupSearchState) :=
  collectLoop keyTrie encodedKey table limit fuel [⟨{}, 0, 0⟩] []

/-! ## Matching -/

variable {encodedKey table}

/-- The letters of the key stand for those of the other key, as far as both go. -/
def Matches (table : KeyExpansionTable) (encodedKey key : Bytes) : Prop :=
  ∀ (i : Nat) (a b : UInt8), encodedKey[i]? = some a → key[i]? = some b → table.isHit a b = true

/-- The number of positions with different letters. -/
def mismatches (encodedKey key : Bytes) : Nat :=
  (encodedKey.zip key).countP fun pair => pair.2 != pair.1

theorem matches_snoc {key : Bytes} {b : UInt8} : Matches table encodedKey (key ++ [b]) ↔
    Matches table encodedKey key ∧
      ∀ a, encodedKey[key.length]? = some a → table.isHit a b = true := by
  constructor
  · intro h
    refine ⟨fun i a b' ha hb => h i a b' ha ?_, fun a ha => h key.length a b ha ?_⟩
    · rw [List.getElem?_append_left (List.getElem?_eq_some_iff.mp hb).1, hb]
    · rw [List.getElem?_concat_length]
  · rintro ⟨hkey, hlast⟩ i a b' ha hb
    by_cases hi : i < key.length
    · rw [List.getElem?_append_left hi] at hb
      exact hkey i a b' ha hb
    · have hlt := (List.getElem?_eq_some_iff.mp hb).1
      rw [List.length_append, List.length_singleton] at hlt
      obtain rfl : i = key.length := by omega
      rw [List.getElem?_concat_length, Option.some.injEq] at hb
      exact hb ▸ hlast a ha

theorem mismatches_snoc : ∀ {encodedKey key : Bytes} {b : UInt8},
    mismatches encodedKey (key ++ [b]) = mismatches encodedKey key +
      ((encodedKey[key.length]?).elim 0 fun a => (b != a).toNat)
  | [], key, b => by simp [mismatches]
  | a :: encodedKey, [], b => by
    simp [mismatches, List.countP_cons, Bool.toNat, Bool.cond_eq_ite]
  | a :: encodedKey, c :: key, b => by
    have ih : mismatches encodedKey (key ++ [b]) = _ := mismatches_snoc
    unfold mismatches at ih ⊢
    rw [List.cons_append, List.zip_cons_cons, List.countP_cons, ih, List.zip_cons_cons,
      List.countP_cons, List.length_cons, List.getElem?_cons_succ]
    omega

/-! ## Visits -/

/-- A state by the number of its node in the tree. -/
structure Visit where
  number : Nat
  keyPos : Nat
  numExpanded : Nat

variable {tree : KeyTree UInt8} {keyTrie limit}

def Visit.state (tree : KeyTree UInt8) (visit : Visit) : PredictiveLookupSearchState :=
  ⟨nodeAt tree.toLevelTree visit.number, visit.keyPos, visit.numExpanded⟩

/-- The visit of a child, when its letter is asked for or the whole key is matched. -/
def visitChild (tree : KeyTree UInt8) (encodedKey : Bytes) (table : KeyExpansionTable)
    (visit : Visit) (c : Nat) : Option Visit :=
  match encodedKey[visit.keyPos]? with
  | none => some ⟨c, visit.keyPos + 1, visit.numExpanded⟩
  | some target =>
    let label := tree.labels.getD c 0
    if table.isHit target label then
      some ⟨c, visit.keyPos + 1, visit.numExpanded + (label != target).toNat⟩
    else none

def nextVisits (tree : KeyTree UInt8) (encodedKey : Bytes) (table : KeyExpansionTable)
    (visit : Visit) : List Visit :=
  (tree.children visit.number).filterMap (visitChild tree encodedKey table visit)

def collectsVisit (tree : KeyTree UInt8) (encodedKey : Bytes) (visit : Visit) : Bool :=
  decide (encodedKey.length ≤ visit.keyPos) && tree.terminals.getD visit.number false

theorem keyPos_visitChild {visit child : Visit} {c : Nat}
    (h : visitChild tree encodedKey table visit c = some child) :
    child.number = c ∧ child.keyPos = visit.keyPos + 1 := by
  unfold visitChild at h
  split at h
  · cases h
    exact ⟨rfl, rfl⟩
  · dsimp only at h
    split at h
    · cases h
      exact ⟨rfl, rfl⟩
    · cases h

theorem keyPos_nextVisits (visit : Visit) : ∀ child ∈ nextVisits tree encodedKey table visit,
    child.keyPos = visit.keyPos + 1 := by
  intro child hchild
  obtain ⟨c, -, hc⟩ := List.mem_filterMap.mp hchild
  exact (keyPos_visitChild hc).2

theorem number_nextVisits_sublist (visit : Visit) :
    ((nextVisits tree encodedKey table visit).map Visit.number).Sublist
      (tree.children visit.number) := by
  unfold nextVisits
  induction tree.children visit.number with
  | nil => exact List.Sublist.refl _
  | cons c children ih =>
    rw [List.filterMap_cons]
    split
    · exact ih.cons c
    · next child heq =>
      simpa [(keyPos_visitChild heq).1] using ih.cons_cons c

theorem mem_level_visits {visit : Visit} : ∀ {k : Nat},
    visit ∈ level (nextVisits tree encodedKey table) k [⟨0, 0, 0⟩] ↔
      ∃ key, tree.HasKey visit.number key ∧ key.length = k ∧ Matches table encodedKey key ∧
        visit.keyPos = k ∧ visit.numExpanded = mismatches encodedKey key
  | 0 => by
    rw [level, List.mem_singleton]
    constructor
    · rintro rfl
      refine ⟨[], .root, rfl, ?_, rfl, by simp [mismatches]⟩
      intro i a b _ hb
      cases hb
    · rintro ⟨key, hkey, hlength, -, hpos, hexpanded⟩
      obtain rfl := List.length_eq_zero_iff.mp hlength
      rw [mismatches, List.zip_nil_right, List.countP_nil] at hexpanded
      rw [show visit = ⟨visit.number, visit.keyPos, visit.numExpanded⟩ from rfl,
        KeyTree.hasKey_nil.mp hkey, hpos, hexpanded]
  | k + 1 => by
    rw [level_succ, List.mem_flatMap]
    constructor
    · rintro ⟨parent, hparent, hvisit⟩
      obtain ⟨key, hkey, rfl, hmatches, hpos, hexpanded⟩ := mem_level_visits.mp hparent
      obtain ⟨c, hc, hchild⟩ := List.mem_filterMap.mp hvisit
      obtain ⟨label, hlabel⟩ := KeyTree.getElem?_labels (tree.lt_size_of_mem_children hc)
      refine ⟨key ++ [label], ?_, List.length_append, ?_⟩
      · rw [(keyPos_visitChild hchild).1]
        exact .child hkey hc hlabel
      · rw [matches_snoc, mismatches_snoc, (keyPos_visitChild hchild).2, hpos]
        rw [visitChild, hpos, List.getD_eq_getElem?_getD, hlabel, Option.getD_some] at hchild
        cases htarget : encodedKey[key.length]? with
        | none =>
          rw [htarget] at hchild
          cases hchild
          exact ⟨⟨hmatches, fun a ha => absurd ha (by simp)⟩, rfl, hexpanded⟩
        | some target =>
          rw [htarget] at hchild
          dsimp only at hchild
          split at hchild
          · next hhit =>
            cases hchild
            refine ⟨⟨hmatches, fun a ha => ?_⟩, rfl, by rw [← hexpanded]; rfl⟩
            cases ha
            exact hhit
          · cases hchild
    · rintro ⟨whole, hkey, hlength, hmatches, hpos, hexpanded⟩
      obtain ⟨key, label, rfl⟩ := (List.eq_nil_or_concat' whole).resolve_left (by
        rintro rfl
        cases hlength)
      obtain ⟨i, hparent, hc, hlabel⟩ := KeyTree.hasKey_snoc.mp hkey
      rw [List.length_append, List.length_singleton, Nat.add_right_cancel_iff] at hlength
      subst hlength
      rw [matches_snoc] at hmatches
      rw [mismatches_snoc] at hexpanded
      refine ⟨⟨i, key.length, mismatches encodedKey key⟩,
        mem_level_visits.mpr ⟨key, hparent, rfl, hmatches.1, rfl, rfl⟩,
        List.mem_filterMap.mpr ⟨visit.number, hc, ?_⟩⟩
      rw [visitChild, List.getD_eq_getElem?_getD, hlabel, Option.getD_some]
      cases htarget : encodedKey[key.length]? with
      | none =>
        rw [htarget] at hexpanded
        dsimp only
        rw [← hpos]
        exact congrArg some (congrArg (Visit.mk _ _) hexpanded.symm)
      | some target =>
        rw [htarget] at hexpanded
        dsimp only
        rw [if_pos (hmatches.2 target htarget), ← hpos]
        exact congrArg some (congrArg (Visit.mk _ _) hexpanded.symm)

/-! ## The loop -/

theorem pushExpanded_eq (hrep : Represents keyTrie tree) {visit : Visit} {target : UInt8}
    (htarget : encodedKey[visit.keyPos]? = some target) : ∀ {children : List Nat},
    (∀ c ∈ children, c < tree.size) →
    pushExpanded keyTrie table (visit.state tree) target
        (children.map (nodeAt tree.toLevelTree))
      = some ((children.filterMap (visitChild tree encodedKey table visit)).map (Visit.state tree))
  | [], _ => rfl
  | c :: children, h => by
    obtain ⟨label, hlabel⟩ := KeyTree.getElem?_labels (h c List.mem_cons_self)
    have ih := pushExpanded_eq hrep htarget (List.forall_mem_cons.mp h).2
    have hvisit : visitChild tree encodedKey table visit c = if table.isHit target label then
        some ⟨c, visit.keyPos + 1, visit.numExpanded + (label != target).toNat⟩ else none := by
      simp [visitChild, htarget, List.getD_eq_getElem?_getD, hlabel]
    rw [List.map_cons, pushExpanded, hrep.getEdgeLabel_eq, hlabel, ih, List.filterMap_cons, hvisit]
    by_cases hhit : table.isHit target label = true
    · simp only [Option.bind_eq_bind, Option.bind_some, if_pos hhit]
      rfl
    · simp only [Option.bind_eq_bind, Option.bind_some, if_neg hhit]
      rfl

theorem collectRemaining_eq (hrep : Represents keyTrie tree) {k : Nat}
    (hk : encodedKey.length ≤ k) : ∀ {queue : List Visit},
    (∀ visit ∈ queue, visit.number < tree.size) → (∀ visit ∈ queue, k ≤ visit.keyPos) →
    collectRemaining keyTrie k (queue.map (Visit.state tree))
      = some ((remaining Visit.keyPos (collectsVisit tree encodedKey) k queue).map
          (Visit.state tree))
  | [], _, _ => rfl
  | visit :: queue, hsize, hdepth => by
    have ih := collectRemaining_eq hrep hk (List.forall_mem_cons.mp hsize).2
      (List.forall_mem_cons.mp hdepth).2
    have hdeep := hdepth visit List.mem_cons_self
    have hcollects : collectsVisit tree encodedKey visit = tree.terminals.getD visit.number false :=
      by rw [collectsVisit, decide_eq_true (by omega), Bool.true_and]
    have hterminal : keyTrie.isTerminalNode (visit.state tree).node
        = some (tree.terminals.getD visit.number false) :=
      hrep.isTerminalNode_eq (hsize visit List.mem_cons_self)
    rw [List.map_cons, collectRemaining, remaining, hcollects, hterminal, ih]
    by_cases hlt : k < visit.keyPos
    · simp [hlt, if_pos (show k < (visit.state tree).keyPos from hlt)]
    · rw [if_neg hlt, if_neg (show ¬k < (visit.state tree).keyPos from hlt)]
      cases tree.terminals.getD visit.number false with
      | true => rfl
      | false => rfl

/-- The queue of a search level by level. -/
structure LevelQueue (tree : KeyTree UInt8) (queue : List Visit) : Prop where
  lt_size : ∀ visit ∈ queue, visit.number < tree.size
  sorted : queue.Pairwise fun visit later => visit.keyPos ≤ later.keyPos
  near : ∀ visit ∈ queue, ∀ other ∈ queue, other.keyPos ≤ visit.keyPos + 1

theorem LevelQueue.next {visit : Visit} {queue : List Visit}
    (h : LevelQueue tree (visit :: queue)) :
    LevelQueue tree (queue ++ nextVisits tree encodedKey table visit) := by
  obtain ⟨hfirst, hsorted⟩ := List.pairwise_cons.mp h.sorted
  have hpos : ∀ child ∈ nextVisits tree encodedKey table visit,
    child.keyPos = visit.keyPos + 1 := keyPos_nextVisits visit
  have hqueue : ∀ other ∈ queue, visit.keyPos ≤ other.keyPos ∧ other.keyPos ≤ visit.keyPos + 1 :=
    fun other hother => ⟨hfirst other hother,
      h.near visit List.mem_cons_self other (List.mem_cons_of_mem _ hother)⟩
  have hall : ∀ other ∈ queue ++ nextVisits tree encodedKey table visit,
      visit.keyPos ≤ other.keyPos ∧ other.keyPos ≤ visit.keyPos + 1 := by
    intro other hother
    rcases List.mem_append.mp hother with hother | hother
    · exact hqueue other hother
    · rw [hpos other hother]
      omega
  constructor
  · intro other hother
    rcases List.mem_append.mp hother with hother | hother
    · exact h.lt_size other (List.mem_cons_of_mem _ hother)
    · exact tree.lt_size_of_mem_children ((number_nextVisits_sublist visit).subset
        (List.mem_map_of_mem hother))
  · refine List.pairwise_append.mpr ⟨hsorted, ?_, fun other hother child hchild => ?_⟩
    · exact List.pairwise_of_forall_mem_list fun a ha b hb => by rw [hpos a ha, hpos b hb]
    · rw [hpos child hchild]
      exact (hqueue other hother).2
  · intro a ha b hb
    have hle := (hall a ha).1
    have hge := (hall b hb).2
    omega

theorem collectLoop_eq (hrep : Represents keyTrie tree) :
    ∀ {fuel : Nat} {queue result : List Visit},
    LevelQueue tree queue → result.length ≤ limit →
    collectLoop keyTrie encodedKey table limit fuel (queue.map (Visit.state tree))
        (result.map (Visit.state tree))
      = (search (nextVisits tree encodedKey table) Visit.keyPos
          (collectsVisit tree encodedKey) limit
          fuel queue result).map (List.map (Visit.state tree))
  | fuel, [], result, _, _ => by cases fuel <;> rfl
  | 0, _ :: _, _, _, _ => rfl
  | fuel + 1, visit :: queue, result, hqueue, hlimit => by
    have hsize := hqueue.lt_size visit List.mem_cons_self
    have hchildren : keyTrie.childNodes (visit.state tree).node
        = some ((tree.children visit.number).map (nodeAt tree.toLevelTree)) :=
      hrep.childNodes_eq hsize
    have hnext : LevelQueue tree (queue ++ nextVisits tree encodedKey table visit) := hqueue.next
    rw [List.map_cons, collectLoop, search]
    by_cases hlt : visit.keyPos < encodedKey.length
    · have hpushed : ∀ h : (visit.state tree).keyPos < encodedKey.length,
          pushExpanded keyTrie table (visit.state tree) encodedKey[(visit.state tree).keyPos]
              ((tree.children visit.number).map (nodeAt tree.toLevelTree))
            = some ((nextVisits tree encodedKey table visit).map (Visit.state tree)) :=
        fun h => pushExpanded_eq hrep (List.getElem?_eq_getElem h)
          fun c hc => tree.lt_size_of_mem_children hc
      have hcollects : collectsVisit tree encodedKey visit = false := by
        rw [collectsVisit, decide_eq_false (by omega), Bool.false_and]
      simp [dif_pos (show (visit.state tree).keyPos < encodedKey.length from hlt), hchildren,
        hpushed, ← List.map_append, collectLoop_eq hrep hnext hlimit, hcollects,
        if_neg (Nat.not_lt_of_le hlimit)]
    · have hterminal : keyTrie.isTerminalNode (visit.state tree).node
          = some (tree.terminals.getD visit.number false) := hrep.isTerminalNode_eq hsize
      have hcollects : collectsVisit tree encodedKey visit
          = tree.terminals.getD visit.number false := by
        rw [collectsVisit, decide_eq_true (by omega), Bool.true_and]
      have hresult : (if tree.terminals.getD visit.number false = true
            then result.map (Visit.state tree) ++ [visit.state tree]
            else result.map (Visit.state tree))
          = (if collectsVisit tree encodedKey visit = true then result ++ [visit]
            else result).map (Visit.state tree) := by
        rw [hcollects]
        split
        · simp
        · rfl
      have hremaining := collectRemaining_eq hrep (show encodedKey.length ≤ visit.keyPos by omega)
        (fun other hother => hqueue.lt_size other (List.mem_cons_of_mem _ hother))
        (List.pairwise_cons.mp hqueue.sorted).1
      have hpushed : (tree.children visit.number).filterMap (visitChild tree encodedKey table visit)
          = (tree.children visit.number).map
            fun c => ⟨c, visit.keyPos + 1, visit.numExpanded⟩ := by
        rw [← List.filterMap_eq_map]
        refine List.filterMap_congr fun c _ => ?_
        rw [visitChild, List.getElem?_eq_none (by omega)]
        rfl
      rw [dif_neg (show ¬(visit.state tree).keyPos < encodedKey.length from hlt), hterminal,
        Option.bind_eq_bind, Option.bind_some]
      dsimp only
      rw [hresult, List.length_map]
      generalize (if collectsVisit tree encodedKey visit = true then result ++ [visit]
        else result) = collected
      by_cases hmore : limit < collected.length
      · simp [hmore, show (visit.state tree).keyPos = visit.keyPos from rfl, hremaining, ←
          List.map_append]
      · have hstates : ((tree.children visit.number).map (nodeAt tree.toLevelTree)).map
              (fun node => (⟨node, (visit.state tree).keyPos + 1, (visit.state tree).numExpanded⟩ :
                PredictiveLookupSearchState))
            = (nextVisits tree encodedKey table visit).map (Visit.state tree) := by
          rw [nextVisits, hpushed, List.map_map, List.map_map]
          rfl
        simp [hmore, hchildren, hstates, ← List.map_append, collectLoop_eq hrep hnext
          (Nat.le_of_not_lt hmore)]

/-! ## The result -/

/-- The key of a node that the trie ends at, when it starts with what the encoded key stands for. -/
structure IsCompletion (tree : KeyTree UInt8) (table : KeyExpansionTable) (encodedKey : Bytes)
    (c : Nat) (key : Bytes) : Prop where
  hasKey : tree.HasKey c key
  terminal : tree.terminals[c]? = some true
  length_le : encodedKey.length ≤ key.length
  matchesKey : Matches table encodedKey key

/-- The number of completions that are not longer. -/
noncomputable def completionsUpTo (tree : KeyTree UInt8) (table : KeyExpansionTable)
    (encodedKey : Bytes) (length : Nat) : Nat :=
  {c | ∃ key, IsCompletion tree table encodedKey c key ∧ key.length ≤ length}.ncard

/-- All visits that are collected when there is no limit. -/
def allVisits (tree : KeyTree UInt8) (table : KeyExpansionTable) (encodedKey : Bytes) :
    List Visit :=
  (levels (nextVisits tree encodedKey table) tree.size [⟨0, 0, 0⟩]).filter
    (collectsVisit tree encodedKey)

theorem visits_sublist : ((levels (nextVisits tree encodedKey table) tree.size
    [⟨0, 0, 0⟩]).map Visit.number).Sublist (levels tree.children tree.size [0]) :=
  levels_sublist number_nextVisits_sublist _ (List.Sublist.refl _)

theorem level_visits_size :
    level (nextVisits tree encodedKey table) tree.size [⟨0, 0, 0⟩] = [] := by
  have hsub : ((level (nextVisits tree encodedKey table) tree.size [⟨0, 0, 0⟩]).map
      Visit.number).Sublist (level tree.children tree.size [0]) :=
    level_sublist number_nextVisits_sublist _ (List.Sublist.refl _)
  rw [tree.level_children_size] at hsub
  exact List.map_eq_nil_iff.mp (List.sublist_nil.mp hsub)

theorem nodup_allVisits : ((allVisits tree table encodedKey).map Visit.number).Nodup :=
  (((List.filter_sublist).map _).trans visits_sublist).nodup (tree.nodup_levels _)

theorem mem_allVisits {visit : Visit} : visit ∈ allVisits tree table encodedKey ↔
    ∃ key, IsCompletion tree table encodedKey visit.number key ∧ visit.keyPos = key.length ∧
      visit.numExpanded = mismatches encodedKey key := by
  rw [allVisits, List.mem_filter, mem_levels, collectsVisit, Bool.and_eq_true, decide_eq_true_eq]
  constructor
  · rintro ⟨⟨k, -, hlevel⟩, hlength, hterminal⟩
    obtain ⟨key, hkey, rfl, hmatches, hpos, hexpanded⟩ := mem_level_visits.mp hlevel
    have hget := KeyTree.getElem?_terminals hkey.lt_size
    exact ⟨key, ⟨hkey, by rw [hget, hterminal], hpos ▸ hlength, hmatches⟩, hpos, hexpanded⟩
  · rintro ⟨key, ⟨hkey, hterminal, hlength, hmatches⟩, hpos, hexpanded⟩
    have hlevel : visit ∈ level (nextVisits tree encodedKey table) key.length [⟨0, 0, 0⟩] :=
      mem_level_visits.mpr ⟨key, hkey, rfl, hmatches, hpos, hexpanded⟩
    refine ⟨⟨key.length, ?_, hlevel⟩, by omega, ?_⟩
    · by_contra hdeep
      simp [level_eq_nil_of_le level_visits_size (Nat.le_of_not_lt hdeep)] at hlevel
    · simp [List.getD_eq_getElem?_getD, hterminal]

theorem countP_allVisits (m : Nat) :
    (allVisits tree table encodedKey).countP (fun visit => decide (visit.keyPos ≤ m))
      = completionsUpTo tree table encodedKey m := by
  have hset : {c | ∃ key, IsCompletion tree table encodedKey c key ∧ key.length ≤ m}
      = ↑(((allVisits tree table encodedKey).filter
          fun visit => decide (visit.keyPos ≤ m)).map Visit.number).toFinset := by
    ext c
    rw [Set.mem_ofPred_eq, List.coe_toFinset, Set.mem_ofPred_eq, List.mem_map]
    constructor
    · rintro ⟨key, hcompletion, hle⟩
      refine ⟨⟨c, key.length, mismatches encodedKey key⟩, List.mem_filter.mpr ⟨?_, ?_⟩, rfl⟩
      · exact mem_allVisits.mpr ⟨key, hcompletion, rfl, rfl⟩
      · exact decide_eq_true hle
    · rintro ⟨visit, hvisit, rfl⟩
      obtain ⟨hmem, hle⟩ := List.mem_filter.mp hvisit
      obtain ⟨key, hcompletion, hpos, -⟩ := mem_allVisits.mp hmem
      exact ⟨key, hcompletion, by rw [← hpos]; exact of_decide_eq_true hle⟩
  have hnodup : (((allVisits tree table encodedKey).filter
      fun visit => decide (visit.keyPos ≤ m)).map Visit.number).Nodup :=
    ((List.filter_sublist).map _).nodup nodup_allVisits
  rw [completionsUpTo, hset, Set.ncard_coe_finset, List.toFinset_card_of_nodup hnodup,
    List.length_map, List.countP_eq_length_filter]

theorem collect_eq (hrep : Represents keyTrie tree) {fuel : Nat}
    (hfuel : tree.size ≤ fuel) :
    collectPredictiveNodesInBfsOrder keyTrie encodedKey table limit fuel
      = some ((shallowest Visit.keyPos limit (allVisits tree table encodedKey)).map
          (Visit.state tree)) := by
  have hqueue : LevelQueue tree [⟨0, 0, 0⟩] := by
    refine ⟨?_, List.pairwise_singleton _ _, ?_⟩
    · intro visit hvisit
      rw [List.mem_singleton.mp hvisit]
      exact tree.size_pos
    · intro visit hvisit other hother
      rw [List.mem_singleton.mp hvisit, List.mem_singleton.mp hother]
      exact Nat.le_add_right _ _
  have hlength :
      (levels (nextVisits tree encodedKey table) tree.size [⟨0, 0, 0⟩]).length ≤ fuel := by
    have hsub : ((levels (nextVisits tree encodedKey table) tree.size
      [⟨0, 0, 0⟩]).map Visit.number).Sublist (levels tree.children tree.size [0]) := visits_sublist
    have hle := hsub.length_le
    have hall := tree.length_levels_le tree.size
    simp at hle
    omega
  have hloop : collectLoop keyTrie encodedKey table limit fuel
      ([⟨0, 0, 0⟩].map (Visit.state tree)) ([].map (Visit.state tree)) = _ :=
    collectLoop_eq hrep hqueue (Nat.zero_le limit)
  have hsearch : search (nextVisits tree encodedKey table) Visit.keyPos
      (collectsVisit tree encodedKey) limit fuel [⟨0, 0, 0⟩] []
        = some (shallowest Visit.keyPos limit ([] ++ allVisits tree table encodedKey)) :=
    search_eq (k := 0) keyPos_nextVisits (fun visit hvisit => by rw [List.mem_singleton.mp hvisit])
      (fun visit hvisit => absurd hvisit List.not_mem_nil) (Nat.zero_le limit) level_visits_size
      hlength
  rw [hsearch, List.nil_append, Option.map_some] at hloop
  exact hloop

/-- **The shortest completions are found, without duplicates and in the order of their lengths.** -/
theorem collectPredictiveNodesInBfsOrder_shortest (image : TrieImage tree)
    (lb0CacheSize lb1CacheSize select0CacheSize select1CacheSize termvecCacheSize : Nat) :
    ∃ keyTrie, LoudsTrie.openTrie image.bytes lb0CacheSize lb1CacheSize select0CacheSize
        select1CacheSize termvecCacheSize = some keyTrie ∧
      ∀ (encodedKey : Bytes) (table : KeyExpansionTable) (limit fuel : Nat), tree.size ≤ fuel →
        ∃ result, collectPredictiveNodesInBfsOrder keyTrie encodedKey table limit fuel
            = some result ∧
          (result.map (·.node)).Nodup ∧
          result.Pairwise (fun state later => state.keyPos ≤ later.keyPos) ∧
          ∀ state, state ∈ result ↔ ∃ c key, IsCompletion tree table encodedKey c key ∧
            (key.length : ℕ∞) ≤ depthBound (completionsUpTo tree table encodedKey) limit ∧
            state = ⟨nodeAt tree.toLevelTree c, key.length, mismatches encodedKey key⟩ := by
  obtain ⟨keyTrie, hopen, hrep⟩ := exists_openTrie image lb0CacheSize lb1CacheSize select0CacheSize
    select1CacheSize termvecCacheSize
  refine ⟨keyTrie, hopen, fun encodedKey table limit fuel hfuel =>
    ⟨_, collect_eq hrep hfuel, ?_, ?_, ?_⟩⟩
  · have hnumbers : ((shallowest Visit.keyPos limit (allVisits tree table encodedKey)).map
        Visit.number).Nodup := ((List.filter_sublist).map _).nodup nodup_allVisits
    refine List.Nodup.of_map Node.nodeId ?_
    rw [List.map_map, List.map_map]
    have hids : (Node.nodeId ∘ fun state : PredictiveLookupSearchState => state.node) ∘
        Visit.state tree = (· + 1) ∘ Visit.number := by
      funext visit
      exact nodeId_nodeAt _ _
    rw [hids, ← List.map_map]
    exact hnumbers.map (Nat.succ_injective)
  · refine List.Pairwise.map _ (fun _ _ h => h) (List.Pairwise.sublist
      (List.filter_sublist.trans List.filter_sublist)
      (pairwise_levels keyPos_nextVisits (k := 0) fun visit hvisit => ?_))
    rw [List.mem_singleton.mp hvisit]
  · intro state
    rw [List.mem_map]
    constructor
    · rintro ⟨visit, hvisit, rfl⟩
      obtain ⟨hmem, hbound⟩ := mem_shallowest.mp hvisit
      obtain ⟨key, hcompletion, hpos, hexpanded⟩ := mem_allVisits.mp hmem
      simp only [countP_allVisits] at hbound
      refine ⟨visit.number, key, hcompletion, by rwa [← hpos], ?_⟩
      rw [Visit.state, hpos, hexpanded]
    · rintro ⟨c, key, hcompletion, hbound, rfl⟩
      refine ⟨⟨c, key.length, mismatches encodedKey key⟩, mem_shallowest.mpr ⟨?_, ?_⟩, rfl⟩
      · exact mem_allVisits.mpr ⟨key, hcompletion, rfl, rfl⟩
      · simpa only [countP_allVisits] using hbound

/-! ## A trie of three words -/

def threeWords : KeyTree UInt8 where
  degrees := [2, 1, 0, 0]
  sum_degrees := rfl
  labels := [0, 0x61, 0x62, 0x62]
  terminals := [false, true, true, true]
  length_labels := rfl
  length_terminals := rfl

def threeWordsImage : TrieImage threeWords where
  louds := [0x2D, 0, 0, 0]
  terminals := [0x0E, 0, 0, 0]
  unary_isPrefix := by decide
  terminals_isPrefix := by decide
  louds_aligned := by decide
  terminals_aligned := by decide
  louds_fits := by decide
  terminals_fits := by decide
  labels_fits := by decide

theorem collectPredictiveNodesInBfsOrder_shortest_threeWords : ∃ keyTrie result,
    LoudsTrie.openTrie threeWordsImage.bytes 1 1 2 2 1 = some keyTrie ∧
      collectPredictiveNodesInBfsOrder keyTrie [0x61] (KeyExpansionTable.new.add 0x61 [0x62]) 1 4
        = some result ∧
      ∀ state, state ∈ result ↔ ∃ c key,
        IsCompletion threeWords (KeyExpansionTable.new.add 0x61 [0x62]) [0x61] c key ∧
        (key.length : ℕ∞) ≤ depthBound
          (completionsUpTo threeWords (KeyExpansionTable.new.add 0x61 [0x62]) [0x61]) 1 ∧
        state = ⟨nodeAt threeWords.toLevelTree c, key.length, mismatches [0x61] key⟩ := by
  obtain ⟨keyTrie, hopen, hcollect⟩ :=
    collectPredictiveNodesInBfsOrder_shortest threeWordsImage 1 1 2 2 1
  obtain ⟨result, hresult, -, -, hmem⟩ :=
    hcollect [0x61] (KeyExpansionTable.new.add 0x61 [0x62]) 1 4 (by decide)
  exact ⟨keyTrie, result, hopen, hresult, hmem⟩

end Mozkey.Dictionary
