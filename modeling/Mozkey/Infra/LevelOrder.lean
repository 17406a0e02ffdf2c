import Mathlib.Data.ENat.Lattice
import Mathlib.Data.List.Nodup
import Mozkey.Infra.Bits

/-!
# Level order

The levels of a walk from some states, a search that stops at the level where it has enough, and
the trees whose nodes are numbered level by level. Such a tree is given by the numbers of children,
and can be written in unary.

* `search_eq` — what a search with a queue collects
* `LevelTree.levels_children` — the levels of the tree are the numbers in order
* `LevelTree.isSelect_unary`, `LevelTree.getElem?_unary` — where the children of a node are written
-/

namespace Infra

/-! ## Levels -/

section Levels

variable {σ τ : Type} {next : σ → List σ} {next' : τ → List τ}

/-- The level so many steps below. -/
def level (next : σ → List σ) : Nat → List σ → List σ
  | 0, states => states
  | k + 1, states => level next k (states.flatMap next)

/-- So many levels, one after another. -/
def levels (next : σ → List σ) : Nat → List σ → List σ
  | 0, _ => []
  | k + 1, states => states ++ levels next k (states.flatMap next)

theorem level_succ (next : σ → List σ) : ∀ (k : Nat) (states : List σ),
    level next (k + 1) states = (level next k states).flatMap next
  | 0, _ => rfl
  | k + 1, states => level_succ next k (states.flatMap next)

theorem mem_levels {s : σ} : ∀ {k : Nat} {states : List σ},
    s ∈ levels next k states ↔ ∃ i < k, s ∈ level next i states
  | 0, _ => by simp [levels]
  | k + 1, states => by
    rw [levels, List.mem_append, mem_levels]
    constructor
    · rintro (h | ⟨i, hi, h⟩)
      · exact ⟨0, Nat.succ_pos k, h⟩
      · exact ⟨i + 1, Nat.succ_lt_succ hi, h⟩
    · rintro ⟨_ | i, hi, h⟩
      · exact Or.inl h
      · exact Or.inr ⟨i, Nat.lt_of_succ_lt_succ hi, h⟩

/-- A level that is empty is not left. -/
theorem level_eq_nil_of_le {states : List σ} {k : Nat} (h : level next k states = []) :
    ∀ {i : Nat}, k ≤ i → level next i states = []
  | i, hi => by
    induction i, hi using Nat.le_induction with
    | base => exact h
    | succ i _ ih => rw [level_succ, ih, List.flatMap_nil]

/-- A walk that is a part of another one, step by step, has parts of its levels. -/
theorem level_sublist {f : σ → τ} (hnext : ∀ s, ((next s).map f).Sublist (next' (f s))) :
    ∀ (k : Nat) {states : List σ} {states' : List τ}, (states.map f).Sublist states' →
      ((level next k states).map f).Sublist (level next' k states')
  | 0, _, _, h => h
  | k + 1, _, _, h => level_sublist hnext k (sublist_flatMap hnext h)
where
  sublist_flatMap (hnext : ∀ s, ((next s).map f).Sublist (next' (f s))) :
      ∀ {states : List σ} {states' : List τ}, (states.map f).Sublist states' →
        ((states.flatMap next).map f).Sublist (states'.flatMap next')
    | [], _, _ => List.nil_sublist _
    | s :: states, _, h => by
      obtain ⟨before, rest, rfl, hmem, hrest⟩ := List.cons_sublist_iff.mp h
      rw [List.flatMap_cons, List.map_append, List.flatMap_append]
      refine List.Sublist.append ?_ (sublist_flatMap hnext hrest)
      obtain ⟨front, back, rfl⟩ := List.append_of_mem hmem
      rw [List.flatMap_append, List.flatMap_cons]
      exact (hnext s).trans ((List.sublist_append_left _ _).trans (List.sublist_append_right _ _))

theorem levels_sublist {f : σ → τ} (hnext : ∀ s, ((next s).map f).Sublist (next' (f s))) :
    ∀ (k : Nat) {states : List σ} {states' : List τ}, (states.map f).Sublist states' →
      ((levels next k states).map f).Sublist (levels next' k states')
  | 0, _, _, _ => List.nil_sublist _
  | k + 1, _, _, h => by
    rw [levels, levels, List.map_append]
    exact h.append (levels_sublist hnext k (level_sublist hnext 1 h))

end Levels

/-! ## The shallowest -/

section Search

variable {σ : Type} {next : σ → List σ} {depth : σ → Nat} {collects : σ → Bool} {limit : Nat}

/-- The elements that have no more than so many others above them. -/
def shallowest (depth : σ → Nat) (limit : Nat) (all : List σ) : List σ :=
  all.filter fun s => decide (all.countP (fun t => decide (depth t < depth s)) ≤ limit)

/-- The rest of the level that a queue starts with. -/
def remaining (depth : σ → Nat) (collects : σ → Bool) (bound : Nat) : List σ → List σ
  | [] => []
  | s :: queue =>
    if bound < depth s then []
    else if collects s then s :: remaining depth collects bound queue
    else remaining depth collects bound queue

/-- Collects from a queue until there are more than so many, and then the rest of the level. -/
def search (next : σ → List σ) (depth : σ → Nat) (collects : σ → Bool) (limit : Nat) :
    Nat → List σ → List σ → Option (List σ)
  | _, [], result => some result
  | 0, _ :: _, _ => none
  | fuel + 1, s :: queue, result =>
    let result := if collects s then result ++ [s] else result
    if limit < result.length then some (result ++ remaining depth collects (depth s) queue)
    else search next depth collects limit fuel (queue ++ next s) result

theorem shallowest_of_length_le {all : List σ} (h : all.length ≤ limit) :
    shallowest depth limit all = all :=
  List.filter_eq_self.mpr fun _ _ => decide_eq_true (Nat.le_trans List.countP_le_length h)

/-- What is above a level is kept, and what is below it is not, when the level has the element
that is one too many. -/
theorem shallowest_append {front back : List σ} {k : Nat} (hfront : ∀ s ∈ front, depth s ≤ k)
    (hback : ∀ s ∈ back, k < depth s)
      (habove : front.countP (fun t => decide (depth t < k)) ≤ limit)
    (hmore : limit < front.length) : shallowest depth limit (front ++ back) = front := by
  have hkept : ∀ s ∈ front, decide ((front ++ back).countP (fun t => decide (depth t < depth s))
      ≤ limit) = true := by
    intro s hs
    have hle := hfront s hs
    have hmono : front.countP (fun t => decide (depth t < depth s))
        ≤ front.countP (fun t => decide (depth t < k)) :=
      List.countP_mono_left fun t _ ht =>
        decide_eq_true (Nat.lt_of_lt_of_le (of_decide_eq_true ht) hle)
    have hnone : back.countP (fun t => decide (depth t < depth s)) = 0 := by
      refine List.countP_eq_zero.mpr fun t ht => ?_
      have hlt := hback t ht
      rw [decide_eq_true_eq]
      omega
    simp [hnone, decide_eq_true_eq]
    omega
  have hdropped : ∀ s ∈ back, ¬decide ((front ++ back).countP (fun t => decide (depth t < depth s))
      ≤ limit) = true := by
    intro s hs
    have hlt := hback s hs
    have hall : front.countP (fun t => decide (depth t < depth s)) = front.length :=
      List.countP_eq_length.mpr fun t ht =>
        decide_eq_true (Nat.lt_of_le_of_lt (hfront t ht) hlt)
    simp [hall, decide_eq_true_eq]
    omega
  rw [shallowest, List.filter_append, List.filter_eq_self.mpr hkept,
    List.filter_eq_nil_iff.mpr hdropped, List.append_nil]

theorem remaining_append {k : Nat} : ∀ {front back : List σ}, (∀ s ∈ front, depth s = k) →
    (∀ s ∈ back, k < depth s) → remaining depth collects k (front ++ back) = front.filter collects
  | [], [], _, _ => rfl
  | [], s :: back, _, hback => if_pos (hback s List.mem_cons_self)
  | s :: front, back, hfront, hback => by
    have ih : remaining depth collects k (front ++ back) = front.filter collects :=
      remaining_append (List.forall_mem_cons.mp hfront).2 hback
    rw [List.cons_append, remaining, hfront s List.mem_cons_self, if_neg (Nat.lt_irrefl k), ih,
      List.filter_cons]

theorem depth_level (hnext : ∀ s, ∀ t ∈ next s, depth t = depth s + 1) {k : Nat} :
    ∀ {i : Nat} {states : List σ}, (∀ s ∈ states, depth s = k) →
      ∀ s ∈ level next i states, depth s = k + i
  | 0, _, h, s, hs => h s hs
  | i + 1, states, h, s, hs => by
    rw [level_succ] at hs
    obtain ⟨t, ht, hs⟩ := List.mem_flatMap.mp hs
    rw [hnext t s hs, depth_level hnext h t ht]
    omega

theorem le_depth_levels (hnext : ∀ s, ∀ t ∈ next s, depth t = depth s + 1) {i k : Nat}
    {states : List σ} (h : ∀ s ∈ states, depth s = k) :
      ∀ s ∈ levels next i states, k ≤ depth s := by
  intro s hs
  obtain ⟨j, -, hs⟩ := mem_levels.mp hs
  rw [depth_level hnext h s hs]
  exact Nat.le_add_right k j

/-- The queue has the rest of a level, and what is below the part that is done. -/
theorem search_level (hnext : ∀ s, ∀ t ∈ next s, depth t = depth s + 1) {height k : Nat}
    (hbelow : ∀ {states result : List σ} {fuel : Nat}, (∀ s ∈ states, depth s = k + 1) →
      (∀ s ∈ result, depth s ≤ k) → result.length ≤ limit → level next height states = [] →
      (levels next height states).length ≤ fuel →
      search next depth collects limit fuel states result
        = some (shallowest depth limit (result ++ (levels next height states).filter collects))) :
    ∀ {rest below result : List σ} {fuel : Nat}, (∀ s ∈ rest, depth s = k) →
      (∀ s ∈ below, depth s = k + 1) → (∀ s ∈ result, depth s ≤ k) → result.length ≤ limit →
      level next height (below ++ rest.flatMap next) = [] →
      rest.length + (levels next height (below ++ rest.flatMap next)).length ≤ fuel →
      search next depth collects limit fuel (rest ++ below) result
        = some (shallowest depth limit (result ++
          (rest ++ levels next height (below ++ rest.flatMap next)).filter collects))
  | [], below, result, fuel, _, hunder, hresult, hlimit, hend, hfuel => by
    rw [List.flatMap_nil, List.append_nil] at hend hfuel ⊢
    rw [List.length_nil, Nat.zero_add] at hfuel
    exact hbelow hunder hresult hlimit hend hfuel
  | s :: rest, below, result, 0, _, _, _, _, _, hfuel => by
    rw [List.length_cons] at hfuel
    omega
  | s :: rest, below, result, fuel + 1, hrest, hunder, hresult, hlimit, hend, hfuel => by
    have hs := hrest s List.mem_cons_self
    have hrest' : ∀ t ∈ rest, depth t = k := (List.forall_mem_cons.mp hrest).2
    have hunder' : ∀ t ∈ below ++ next s, depth t = k + 1 := by
      intro t ht
      rcases List.mem_append.mp ht with ht | ht
      · exact hunder t ht
      · rw [hnext s t ht, hs]
    have hflat : below ++ (s :: rest).flatMap next = below ++ next s ++ rest.flatMap next := by
      simp
    rw [hflat] at hend hfuel ⊢
    rw [List.length_cons] at hfuel
    rw [List.cons_append, List.cons_append, search]
    by_cases hcollects : collects s = true
    · rw [if_pos hcollects, List.filter_cons_of_pos hcollects]
      have hresult' : ∀ t ∈ result ++ [s], depth t ≤ k := by
        intro t ht
        rcases List.mem_append.mp ht with ht | ht
        · exact hresult t ht
        · rw [List.mem_singleton.mp ht, hs]
      split
      · next hmore =>
        -- one too many: the rest of the queue is cut at the next level
        have hlater : ∀ t ∈ (levels next height (below ++ next s ++ rest.flatMap next)).filter
            collects, k < depth t := by
          intro t ht
          refine le_depth_levels hnext ?_ t (List.mem_filter.mp ht).1
          intro u hu
          rcases List.mem_append.mp hu with hu | hu
          · exact hunder' u hu
          · obtain ⟨v, hv, hu⟩ := List.mem_flatMap.mp hu
            rw [hnext v u hu, hrest' v hv]
        have hfront : ∀ t ∈ result ++ [s] ++ rest.filter collects, depth t ≤ k := by
          intro t ht
          rcases List.mem_append.mp ht with ht | ht
          · exact hresult' t ht
          · exact Nat.le_of_eq (hrest' t (List.mem_filter.mp ht).1)
        have habove : (result ++ [s] ++ rest.filter collects).countP
            (fun t => decide (depth t < k)) ≤ limit := by
          have hnone :
              ([s] ++ rest.filter collects).countP (fun t => decide (depth t < k)) = 0 := by
            refine List.countP_eq_zero.mpr fun t ht => ?_
            rw [decide_eq_true_eq]
            rcases List.mem_append.mp ht with ht | ht
            · simp [List.mem_singleton.mp ht, hs]
            · simpa [hrest' t (List.mem_filter.mp ht).1] using Nat.lt_irrefl k
          rw [List.append_assoc, List.countP_append, hnone]
          exact Nat.le_trans List.countP_le_length hlimit
        have hsplit : result ++ s :: (rest ++
            levels next height (below ++ next s ++ rest.flatMap next)).filter collects
              = result ++ [s] ++ rest.filter collects ++
                (levels next height (below ++ next s ++ rest.flatMap next)).filter collects := by
          simp
        rw [remaining_append (by rwa [hs]) (fun t ht => by rw [hs, hunder t ht]; omega), hsplit,
          shallowest_append hfront hlater habove (by
            rw [List.length_append]
            omega)]
      · next hfew =>
        rw [List.append_assoc, search_level hnext hbelow hrest' hunder' hresult' (by omega) hend
          (by omega), List.append_assoc, List.singleton_append]
    · rw [if_neg hcollects, List.filter_cons_of_neg hcollects, if_neg (by omega), List.append_assoc,
        search_level hnext hbelow hrest' hunder' hresult hlimit hend (by omega)]

/-- **The search keeps the shallowest of the elements that are collected.** -/
theorem search_eq (hnext : ∀ s, ∀ t ∈ next s, depth t = depth s + 1) :
    ∀ {height k : Nat} {states result : List σ} {fuel : Nat}, (∀ s ∈ states, depth s = k) →
      (∀ s ∈ result, depth s < k) → result.length ≤ limit → level next height states = [] →
      (levels next height states).length ≤ fuel →
      search next depth collects limit fuel states result
        = some (shallowest depth limit (result ++ (levels next height states).filter collects))
  | 0, _, states, result, fuel, _, _, hlimit, hend, _ => by
    obtain rfl : states = [] := hend
    simp [search, levels, shallowest_of_length_le hlimit]
  | height + 1, k, states, result, fuel, hstates, hresult, hlimit, hend, hfuel => by
    rw [levels, List.length_append] at hfuel
    have hlevel : search next depth collects limit fuel (states ++ []) result
        = some (shallowest depth limit (result ++
          (states ++ levels next height ([] ++ states.flatMap next)).filter collects)) :=
      search_level hnext
        (fun hunder hresult => search_eq hnext hunder fun s hs => Nat.lt_succ_of_le (hresult s hs))
        hstates (fun s hs => absurd hs List.not_mem_nil) (fun s hs => Nat.le_of_lt (hresult s hs))
        hlimit hend hfuel
    rw [List.append_nil] at hlevel
    exact hlevel

theorem pairwise_levels (hnext : ∀ s, ∀ t ∈ next s, depth t = depth s + 1) :
    ∀ {height k : Nat} {states : List σ}, (∀ s ∈ states, depth s = k) →
      (levels next height states).Pairwise fun s t => depth s ≤ depth t
  | 0, _, _, _ => List.Pairwise.nil
  | height + 1, k, states, h => by
    have hbelow : ∀ s ∈ states.flatMap next, depth s = k + 1 := depth_level hnext (i := 1) h
    refine List.pairwise_append.mpr ⟨?_, pairwise_levels hnext hbelow, ?_⟩
    · exact List.pairwise_of_forall_mem_list fun s hs t ht => by rw [h s hs, h t ht]
    · intro s hs t ht
      have hle := le_depth_levels hnext hbelow t ht
      rw [h s hs]
      omega

/-- The smallest depth that has too many elements above it or on it, if there is one. -/
noncomputable def depthBound (count : Nat → Nat) (limit : Nat) : ℕ∞ :=
  ⨅ (m : Nat) (_ : limit < count m), (m : ℕ∞)

theorem le_depthBound {all : List σ} {n : Nat} :
    (n : ℕ∞) ≤ depthBound (fun m => all.countP fun t => decide (depth t ≤ m)) limit ↔
      all.countP (fun t => decide (depth t < n)) ≤ limit := by
  rw [depthBound, le_iInf₂_iff]
  constructor
  · intro h
    cases n with
    | zero => simp
    | succ n =>
      by_contra hmore
      have hle := h n (by simpa [Nat.lt_succ_iff] using hmore)
      rw [Nat.cast_le] at hle
      omega
  · intro h m hm
    rw [Nat.cast_le]
    by_contra hlt
    have hmono : all.countP (fun t => decide (depth t ≤ m))
        ≤ all.countP (fun t => decide (depth t < n)) :=
      List.countP_mono_left fun t _ ht =>
        decide_eq_true (Nat.lt_of_le_of_lt (of_decide_eq_true ht) (Nat.lt_of_not_le hlt))
    omega

theorem mem_shallowest {all : List σ} {s : σ} : s ∈ shallowest depth limit all ↔ s ∈ all ∧
    (depth s : ℕ∞) ≤ depthBound (fun m => all.countP fun t => decide (depth t ≤ m)) limit := by
  simp [le_depthBound, shallowest, decide_eq_true_eq]

end Search

/-! ## Trees -/

/-- A tree by the numbers of children of its nodes in level order. The nodes that no level reaches
do not matter. -/
structure LevelTree where
  degrees : List Nat
  sum_degrees : degrees.sum + 1 = degrees.length

namespace LevelTree

variable (tree : LevelTree) {i c : Nat}

def size : Nat := tree.degrees.length

/-- The children of a node come after those of the nodes before it. -/
def firstChild (i : Nat) : Nat := (tree.degrees.take i).sum + 1

def children (i : Nat) : List Nat := List.range' (tree.firstChild i) (tree.degrees[i]?.getD 0)

/-- The node whose children a node is among. -/
def parent (c : Nat) : Nat := (List.range tree.size).findIdx fun i => c < tree.firstChild (i + 1)

@[simp] theorem firstChild_zero : tree.firstChild 0 = 1 := by simp [firstChild]

theorem firstChild_succ (i : Nat) :
    tree.firstChild (i + 1) = tree.firstChild i + tree.degrees[i]?.getD 0 := by
  rw [firstChild, firstChild, List.take_add_one, List.sum_append]
  cases tree.degrees[i]? with
  | none => rfl
  | some degree =>
    simp
    omega

theorem firstChild_mono {i j : Nat} (h : i ≤ j) : tree.firstChild i ≤ tree.firstChild j := by
  induction j, h using Nat.le_induction with
  | base => exact Nat.le_refl _
  | succ j _ ih =>
    rw [firstChild_succ]
    exact Nat.le_trans ih (Nat.le_add_right _ _)

theorem firstChild_le_size (i : Nat) : tree.firstChild i ≤ tree.size := by
  have hmono := tree.firstChild_mono (Nat.le_max_left i tree.size)
  have hall : tree.degrees.take (max i tree.size) = tree.degrees :=
    List.take_of_length_le (Nat.le_max_right _ _)
  have hsum : tree.firstChild (max i tree.size) = tree.size := by
    rw [firstChild, hall]
    exact tree.sum_degrees
  omega

theorem size_pos : 0 < tree.size := by
  have hsum := tree.sum_degrees
  rw [size]
  omega

theorem mem_children :
    c ∈ tree.children i ↔ tree.firstChild i ≤ c ∧ c < tree.firstChild (i + 1) := by
  simp [children, firstChild_succ]

theorem lt_size_of_mem_children (h : c ∈ tree.children i) : c < tree.size :=
  Nat.lt_of_lt_of_le (tree.mem_children.mp h).2 (tree.firstChild_le_size _)

theorem parent_eq (hi : i < tree.size) (h : c ∈ tree.children i) : tree.parent c = i := by
  obtain ⟨hle, hlt⟩ := tree.mem_children.mp h
  rw [parent, List.findIdx_eq (by rwa [List.length_range])]
  refine ⟨by simpa using hlt, fun j hj => ?_⟩
  -- the children of an earlier node end before
  have hmono := tree.firstChild_mono (show j + 1 ≤ i from hj)
  simp [decide_eq_false_iff_not]
  omega

/-! ## The levels of a tree -/

theorem flatMap_children (a l : Nat) : (List.range' a l).flatMap tree.children
    = List.range' (tree.firstChild a) (tree.firstChild (a + l) - tree.firstChild a) := by
  induction l with
  | zero => simp
  | succ l ih =>
    have hmono := tree.firstChild_mono (Nat.le_add_right a l)
    rw [List.range'_concat, Nat.one_mul, List.flatMap_append, ih, List.flatMap_singleton, children,
      ← Nat.add_assoc, firstChild_succ]
    rw [show tree.firstChild (a + l) + tree.degrees[a + l]?.getD 0 - tree.firstChild a
      = tree.firstChild (a + l) - tree.firstChild a + tree.degrees[a + l]?.getD 0 by omega,
      ← List.range'_append_1]
    rw [show tree.firstChild a + (tree.firstChild (a + l) - tree.firstChild a)
      = tree.firstChild (a + l) by omega]

/-- A level ends where the next one starts. -/
theorem level_children (k : Nat) : ∃ a l, level tree.children k [0] = List.range' a l ∧
    tree.firstChild a = a + l ∧ (l ≠ 0 → k ≤ a) := by
  induction k with
  | zero => exact ⟨0, 1, rfl, tree.firstChild_zero, fun _ => Nat.le_refl 0⟩
  | succ k ih =>
    obtain ⟨a, l, hlevel, hfirst, hdeep⟩ := ih
    have hmono := tree.firstChild_mono (Nat.le_add_right a l)
    refine ⟨a + l, tree.firstChild (a + l) - tree.firstChild a, ?_, by omega, fun hne => ?_⟩
    · rw [level_succ, hlevel, flatMap_children, hfirst]
    · have hl : l ≠ 0 := by
        rintro rfl
        exact hne (Nat.sub_self _)
      have hle := hdeep hl
      omega

theorem level_children_size : level tree.children tree.size [0] = [] := by
  obtain ⟨a, l, hlevel, hfirst, hdeep⟩ := tree.level_children tree.size
  have hle := tree.firstChild_le_size a
  by_cases hl : l = 0
  · simp [hlevel, hl]
  · have hbig := hdeep hl
    omega

/-- **The levels of a tree are its nodes in order.** -/
theorem levels_children (k : Nat) :
    ∃ m ≤ tree.size, levels tree.children k [0] = List.range' 0 m := by
  have hlevels : ∀ k a l : Nat, tree.firstChild a = a + l →
      ∃ m, a + m ≤ tree.size ∧ levels tree.children k (List.range' a l) = List.range' a m := by
    intro k
    induction k with
    | zero =>
      intro a l hfirst
      have hle := tree.firstChild_le_size a
      exact ⟨0, by omega, rfl⟩
    | succ k ih =>
      intro a l hfirst
      have hmono := tree.firstChild_mono (Nat.le_add_right a l)
      obtain ⟨m, hm, hrest⟩ := ih (a + l) (tree.firstChild (a + l) - tree.firstChild a) (by omega)
      refine ⟨l + m, by omega, ?_⟩
      rw [levels, flatMap_children, hfirst, ← hfirst, ← List.range'_append_1, ← hrest, hfirst]
  obtain ⟨m, hm, heq⟩ := hlevels k 0 1 tree.firstChild_zero
  exact ⟨m, by omega, heq⟩

theorem nodup_levels (k : Nat) : (levels tree.children k [0]).Nodup := by
  obtain ⟨m, -, heq⟩ := tree.levels_children k
  rw [heq]
  exact List.nodup_range'

theorem length_levels_le (k : Nat) : (levels tree.children k [0]).length ≤ tree.size := by
  obtain ⟨m, hm, heq⟩ := tree.levels_children k
  simpa [heq] using hm

/-! ## In unary -/

/-- A 1-bit for each child, and a 0-bit. -/
def unaryDegree (degree : Nat) : List Bool := List.replicate degree true ++ [false]

/-- The numbers of children in unary, after those of a node above the root. -/
def unary : List Bool := true :: false :: tree.degrees.flatMap unaryDegree

theorem length_flatMap_unaryDegree (degrees : List Nat) :
    (degrees.flatMap unaryDegree).length = degrees.sum + degrees.length := by
  induction degrees with
  | nil => rfl
  | cons degree degrees ih =>
    simp [ih, unaryDegree]
    omega

theorem count_flatMap_unaryDegree (degrees : List Nat) :
    (degrees.flatMap unaryDegree).count false = degrees.length := by
  induction degrees with
  | nil => rfl
  | cons degree degrees ih =>
    rw [List.flatMap_cons, List.count_append, ih, unaryDegree, List.count_append,
      List.count_eq_zero_of_not_mem (by simp)]
    simp [Nat.add_comm]

/-- What is before the bits of a node ends with a 0-bit. -/
theorem exists_before_unary (degrees : List Nat) : ∃ front : List Bool,
    true :: false :: degrees.flatMap unaryDegree = front ++ [false] ∧
      front.count false = degrees.length := by
  induction degrees using List.reverseRecOn with
  | nil => exact ⟨[true], rfl, rfl⟩
  | append_singleton degrees degree _ =>
    refine ⟨true :: false :: degrees.flatMap unaryDegree ++ List.replicate degree true, ?_, ?_⟩
    · simp [unaryDegree]
    · rw [List.count_append, List.count_cons_of_ne (by decide), List.count_cons_self,
        count_flatMap_unaryDegree, List.length_append, List.length_singleton]
      simp [List.count_replicate]

theorem unary_eq (hi : i < tree.size) : tree.unary
    = (true :: false :: (tree.degrees.take i).flatMap unaryDegree) ++
      (unaryDegree (tree.degrees[i]?.getD 0) ++
        (tree.degrees.drop (i + 1)).flatMap unaryDegree) := by
  have hget : tree.degrees[i]? = some tree.degrees[i] := List.getElem?_eq_getElem hi
  simp [hget, ← List.flatMap_cons, ← List.drop_eq_getElem_cons hi, ← List.flatMap_append, unary]

theorem length_before_unary (hi : i < tree.size) :
    (true :: false :: (tree.degrees.take i).flatMap unaryDegree).length
      = tree.firstChild i + i + 1 := by
  rw [List.length_cons, List.length_cons, length_flatMap_unaryDegree, List.length_take,
    Nat.min_eq_left (show i ≤ tree.degrees.length from Nat.le_of_lt hi), firstChild]
  omega

variable {tree} {bits : List Bool}

/-- The bits of a node start after the 0-bit of the one before it. -/
theorem isSelect_unary (hbits : tree.unary <+: bits) (hi : i < tree.size) :
    IsSelect false bits (i + 1) (tree.firstChild i + i) := by
  obtain ⟨rest, rfl⟩ := hbits
  obtain ⟨front, hfront, hcount⟩ := exists_before_unary (tree.degrees.take i)
  have hlength := tree.length_before_unary hi
  rw [hfront, List.length_append, List.length_singleton] at hlength
  have hfirst : tree.firstChild i + i = front.length := by omega
  rw [tree.unary_eq hi, hfront, hfirst, List.append_assoc, List.append_assoc]
  refine ⟨?_, ?_⟩
  · simp
  · simp [hcount, Nat.min_eq_left (show i ≤ tree.degrees.length from Nat.le_of_lt hi)]

/-- The children of a node, and the 0-bit after them. -/
theorem getElem?_unary (hbits : tree.unary <+: bits) (hi : i < tree.size) {j : Nat}
    (hj : j ≤ tree.degrees[i]?.getD 0) : bits[tree.firstChild i + i + 1 + j]?
      = some (decide (j < tree.degrees[i]?.getD 0)) := by
  obtain ⟨rest, rfl⟩ := hbits
  rw [tree.unary_eq hi, List.append_assoc,
    List.getElem?_append_right (by rw [tree.length_before_unary hi]; omega),
    tree.length_before_unary hi, Nat.add_sub_cancel_left, unaryDegree, List.append_assoc,
    List.append_assoc]
  by_cases hlt : j < tree.degrees[i]?.getD 0
  · rw [List.getElem?_append_left (by rwa [List.length_replicate]), List.getElem?_replicate,
      if_pos hlt, decide_eq_true hlt]
  · rw [List.getElem?_append_right (by rw [List.length_replicate]; omega), List.length_replicate,
      show j - tree.degrees[i]?.getD 0 = 0 by omega, decide_eq_false hlt]
    rfl

theorem count_true_flatMap_unaryDegree (degrees : List Nat) :
    (degrees.flatMap unaryDegree).count true = degrees.sum := by
  have hlength := length_flatMap_unaryDegree degrees
  have hzeros := count_flatMap_unaryDegree degrees
  have hsum := List.count_true_add_count_false (degrees.flatMap unaryDegree)
  omega

theorem isSelect_unary_root (hbits : tree.unary <+: bits) : IsSelect true bits 1 0 := by
  obtain ⟨rest, rfl⟩ := hbits
  exact ⟨rfl, rfl⟩

/-- The bit of a child among those of its parent. -/
theorem isSelect_unary_child (hbits : tree.unary <+: bits) (hi : i < tree.size)
    (hc : c ∈ tree.children i) : IsSelect true bits (c + 1) (c + i + 1) := by
  obtain ⟨hle, hlt⟩ := tree.mem_children.mp hc
  rw [firstChild_succ] at hlt
  obtain ⟨j, rfl⟩ := Nat.exists_eq_add_of_le hle
  have hj : j < tree.degrees[i]?.getD 0 := by omega
  have hplace : tree.firstChild i + j + i + 1 = tree.firstChild i + i + 1 + j := by omega
  rw [hplace]
  refine ⟨by rw [getElem?_unary hbits hi (Nat.le_of_lt hj), decide_eq_true hj], ?_⟩
  obtain ⟨rest, rfl⟩ := hbits
  rw [tree.unary_eq hi, List.append_assoc, ← tree.length_before_unary hi,
    List.take_length_add_append,
    List.count_append, unaryDegree, List.append_assoc, List.append_assoc,
    List.take_append_of_le_length (by rw [List.length_replicate]; omega), List.take_replicate,
    List.count_replicate_self, List.count_cons_self, List.count_cons_of_ne (by decide),
    count_true_flatMap_unaryDegree, Nat.min_eq_left (Nat.le_of_lt hj), firstChild]

end LevelTree

/-! ## Keys -/

/-- A tree whose nodes have a letter on the way to each, and some of which end a key. -/
structure KeyTree (α : Type) extends LevelTree where
  labels : List α
  terminals : List Bool
  length_labels : labels.length = degrees.length
  length_terminals : terminals.length = degrees.length

namespace KeyTree

variable {α : Type}

/-- The letters on the way to a node. -/
inductive HasKey (tree : KeyTree α) : Nat → List α → Prop
  | root : HasKey tree 0 []
  | child {i c : Nat} {key : List α} {a : α} (h : HasKey tree i key) (hc : c ∈ tree.children i)
      (ha : tree.labels[c]? = some a) : HasKey tree c (key ++ [a])

variable {tree : KeyTree α} {c : Nat} {key : List α}

theorem hasKey_nil : tree.HasKey c [] ↔ c = 0 := by
  constructor
  · intro h
    generalize hkey : ([] : List α) = key at h
    cases h with
    | root => rfl
    | child => simp at hkey
  · rintro rfl
    exact .root

theorem hasKey_snoc {a : α} : tree.HasKey c (key ++ [a]) ↔
    ∃ i, tree.HasKey i key ∧ c ∈ tree.children i ∧ tree.labels[c]? = some a := by
  constructor
  · intro h
    generalize hkey : key ++ [a] = whole at h
    cases h with
    | root => simp at hkey
    | child h hc ha =>
      obtain ⟨rfl, hlast⟩ := List.append_inj' hkey rfl
      cases hlast
      exact ⟨_, h, hc, ha⟩
  · rintro ⟨i, h, hc, ha⟩
    exact .child h hc ha

theorem HasKey.lt_size (h : tree.HasKey c key) : c < tree.size := by
  cases h with
  | root => exact tree.size_pos
  | child _ hc _ => exact tree.lt_size_of_mem_children hc

theorem HasKey.root_or_child (h : tree.HasKey c key) :
    c = 0 ∨ ∃ i < tree.size, c ∈ tree.children i := by
  cases h with
  | root => exact Or.inl rfl
  | child h hc _ => exact Or.inr ⟨_, h.lt_size, hc⟩

theorem getElem?_labels (h : c < tree.size) : ∃ a, tree.labels[c]? = some a :=
  ⟨_, List.getElem?_eq_getElem (Nat.lt_of_lt_of_eq h tree.length_labels.symm)⟩

theorem getElem?_terminals (h : c < tree.size) :
    tree.terminals[c]? = some (tree.terminals.getD c false) := by
  have hlt : c < tree.terminals.length := Nat.lt_of_lt_of_eq h tree.length_terminals.symm
  simp [List.getD_eq_getElem?_getD, List.getElem?_eq_getElem hlt]

end KeyTree

end Infra
