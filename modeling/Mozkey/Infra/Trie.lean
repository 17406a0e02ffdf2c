import Mathlib.Data.List.Basic
import Mathlib.Data.List.Induction

/-!
# Tries

A node holds data or not, and its children by their letters. The functions go down a key.

`lookUpPrefix` follows the key as far as there are nodes, and finds what the last one holds. It
does not come back to a shorter key that has data. How far it can look is bounded by the trie
(`exists_depth`).

* `lookUpPrefix_longestMatch` — what is found in a trie of these entries
-/

namespace Infra

inductive Trie (α β : Type) where
  | node (data : Option β) (children : List (α × Trie α β))

/-- What `lookUpPrefix` finds: the data, how much of the key was followed, and whether a longer
key could find something else. -/
structure TrieMatch (β : Type) where
  data : Option β
  length : Nat
  fixed : Bool

namespace Trie

variable {α β : Type}

def empty : Trie α β := .node none []

def data : Trie α β → Option β
  | .node data _ => data

def children : Trie α β → List (α × Trie α β)
  | .node _ children => children

/-- What is found when the key is followed no further. -/
def here (t : Trie α β) : TrieMatch β := ⟨t.data, 0, t.data.isNone || t.children.isEmpty⟩

variable [BEq α]

def findSubTrie (t : Trie α β) (c : α) : Option (Trie α β) := t.children.lookup c

def addEntry (value : β) : List α → Trie α β → Trie α β
  | [], t => .node (some value) t.children
  | c :: rest, t =>
    let sub := addEntry value rest ((t.findSubTrie c).getD empty)
    .node t.data ((c, sub) :: t.children.filter fun child => child.1 != c)

def lookUp : List α → Trie α β → Option β
  | [], t => t.data
  | c :: rest, t =>
    match t.findSubTrie c with
    | none => none
    | some sub => sub.lookUp rest

def lookUpPrefix : List α → Trie α β → TrieMatch β
  | [], t => t.here
  | c :: rest, t =>
    match t.findSubTrie c with
    | none => t.here
    | some sub =>
      let found := sub.lookUpPrefix rest
      { found with length := found.length + 1 }

/-- Some entry begins with the key, which is not empty. -/
def hasSubTrie : List α → Trie α β → Bool
  | [], _ => false
  | c :: rest, t =>
    match t.findSubTrie c with
    | none => false
    | some sub => rest.isEmpty || sub.hasSubTrie rest

/-! ## Induction -/

omit [BEq α] in
theorem ind {P : Trie α β → Prop}
    (h : ∀ data children, (∀ c t, (c, t) ∈ children → P t) → P (.node data children)) :
    ∀ t, P t
  | .node data children => h data children fun _ t _ => ind h t
termination_by t => sizeOf t
decreasing_by
  rename_i hmem
  have hlt := List.sizeOf_lt_of_mem hmem
  simp only [Prod.mk.sizeOf_spec] at hlt
  simp only [node.sizeOf_spec]
  omega

/-! ## Prefixes -/

theorem lookUpPrefix_length_le : ∀ (key : List α) (t : Trie α β),
    (t.lookUpPrefix key).length ≤ key.length
  | [], _ => Nat.le_refl 0
  | c :: rest, t => by
    rw [lookUpPrefix]
    split
    · exact Nat.zero_le _
    · next sub _ =>
      have hle := lookUpPrefix_length_le rest sub
      show (sub.lookUpPrefix rest).length + 1 ≤ rest.length + 1
      omega

variable [LawfulBEq α]

omit [LawfulBEq α] in
theorem findSubTrie_node (d : Option β) (cs : List (α × Trie α β)) (c : α) :
    (node d cs).findSubTrie c = cs.lookup c := rfl

theorem mem_of_findSubTrie {d : Option β} {cs : List (α × Trie α β)} {c : α} {sub : Trie α β}
    (h : (node d cs).findSubTrie c = some sub) : (c, sub) ∈ cs := by
  rw [findSubTrie_node] at h
  induction cs with
  | nil => cases h
  | cons child cs ih =>
    obtain ⟨c', sub'⟩ := child
    rw [List.lookup_cons] at h
    split at h
    · next heq =>
      rw [Option.some.injEq] at h
      rw [eq_of_beq heq, h]
      exact List.mem_cons_self
    · exact List.mem_cons_of_mem _ (ih h)

omit [BEq α] [LawfulBEq α] in
/-- The children have a common bound when each of them has one. -/
theorem exists_common_bound (cs : List (α × Trie α β)) {P : Trie α β → Nat → Prop}
    (hmono : ∀ t m n, m ≤ n → P t m → P t n) (h : ∀ c t, (c, t) ∈ cs → ∃ n, P t n) :
    ∃ n, ∀ c t, (c, t) ∈ cs → P t n := by
  induction cs with
  | nil => exact ⟨0, fun c t hmem => by cases hmem⟩
  | cons child cs ih =>
    obtain ⟨m, hm⟩ := h child.1 child.2 List.mem_cons_self
    obtain ⟨n, hn⟩ := ih fun c t hmem => h c t (List.mem_cons_of_mem _ hmem)
    refine ⟨max m n, fun c t hmem => ?_⟩
    rcases List.mem_cons.mp hmem with heq | hmem
    · rw [← heq] at hm
      exact hmono t m _ (Nat.le_max_left m n) hm
    · exact hmono t n _ (Nat.le_max_right m n) (hn c t hmem)

/-- **A trie looks only so far into a key.** -/
theorem exists_depth (t : Trie α β) : ∃ depth, ∀ key key' : List α,
    key.take depth = key'.take depth → t.lookUpPrefix key = t.lookUpPrefix key' := by
  induction t using ind with
  | h d cs ih =>
    obtain ⟨depth, hdepth⟩ := exists_common_bound cs
      (P := fun t n => ∀ key key' : List α, key.take n = key'.take n →
        t.lookUpPrefix key = t.lookUpPrefix key')
      (by
        intro t m n hmn hm key key' heq
        refine hm key key' ?_
        have htake := congrArg (List.take m) heq
        rwa [List.take_take, List.take_take, Nat.min_eq_left hmn] at htake) ih
    refine ⟨depth + 1, fun key key' heq => ?_⟩
    match key, key' with
    | [], [] => rfl
    | [], c :: rest => simp at heq
    | c :: rest, [] => simp at heq
    | c :: rest, c' :: rest' =>
      rw [List.take_succ_cons, List.take_succ_cons, List.cons.injEq] at heq
      obtain ⟨rfl, heq⟩ := heq
      rw [lookUpPrefix, lookUpPrefix]
      cases hsub : (node d cs).findSubTrie c with
      | none => rfl
      | some sub =>
        have hmem := mem_of_findSubTrie hsub
        simp only [hdepth c sub hmem rest rest' heq]

omit [LawfulBEq α] in
/-- A match follows no more of a key than the trie looks at. -/
theorem lookUpPrefix_length_le_depth {t : Trie α β} {depth : Nat}
    (hdepth : ∀ key key' : List α, key.take depth = key'.take depth →
      t.lookUpPrefix key = t.lookUpPrefix key') (key : List α) :
    (t.lookUpPrefix key).length ≤ depth := by
  have htake := hdepth key (key.take depth) (by rw [List.take_take, Nat.min_self])
  have hle := lookUpPrefix_length_le (key.take depth) t
  rw [List.length_take] at hle
  rw [htake]
  omega

/-- What a trie can find has a bound. -/
theorem exists_bound (size : β → Nat) (t : Trie α β) :
    ∃ bound, ∀ key value, (t.lookUpPrefix key).data = some value → size value ≤ bound := by
  induction t using ind with
  | h d cs ih =>
    obtain ⟨bound, hbound⟩ := exists_common_bound cs
      (P := fun t n => ∀ key value, (t.lookUpPrefix key).data = some value → size value ≤ n)
      (fun t m n hmn hm key value h => Nat.le_trans (hm key value h) hmn) ih
    have hhere : ∀ value, (node d cs).here.data = some value →
        size value ≤ max ((d.map size).getD 0) bound := by
      intro value h
      have hd : d = some value := h
      subst hd
      exact Nat.le_max_left _ _
    refine ⟨max ((d.map size).getD 0) bound, fun key value h => ?_⟩
    cases key with
    | nil => exact hhere value h
    | cons c rest =>
      rw [lookUpPrefix] at h
      cases hsub : (node d cs).findSubTrie c with
      | none =>
        rw [hsub] at h
        exact hhere value h
      | some sub =>
        rw [hsub] at h
        exact Nat.le_trans (hbound c sub (mem_of_findSubTrie hsub) rest value h)
          (Nat.le_max_right _ _)

omit [LawfulBEq α] in
/-- The data of a match is the data of the part of the key that was followed. -/
theorem lookUp_take_lookUpPrefix : ∀ (key : List α) (t : Trie α β),
    t.lookUp (key.take (t.lookUpPrefix key).length) = (t.lookUpPrefix key).data
  | [], _ => rfl
  | c :: rest, t => by
    rw [lookUpPrefix]
    cases hsub : t.findSubTrie c with
    | none => rfl
    | some sub =>
      have ih := lookUp_take_lookUpPrefix rest sub
      show t.lookUp ((c :: rest).take ((sub.lookUpPrefix rest).length + 1)) = _
      simpa [lookUp, hsub] using ih

omit [LawfulBEq α] in
/-- No node goes on from where the key was followed to. -/
theorem hasSubTrie_take_lookUpPrefix : ∀ (key : List α) (t : Trie α β),
    (t.lookUpPrefix key).length < key.length →
    t.hasSubTrie (key.take ((t.lookUpPrefix key).length + 1)) = false
  | [], _, h => absurd h (by simp)
  | c :: rest, t, h => by
    rw [lookUpPrefix] at h ⊢
    cases hsub : t.findSubTrie c with
    | none =>
      show t.hasSubTrie ((c :: rest).take (0 + 1)) = false
      simp [hasSubTrie, hsub]
    | some sub =>
      rw [hsub] at h
      have h : (sub.lookUpPrefix rest).length + 1 < rest.length + 1 := h
      have ih := hasSubTrie_take_lookUpPrefix rest sub (by omega)
      show t.hasSubTrie ((c :: rest).take ((sub.lookUpPrefix rest).length + 1 + 1)) = false
      rw [List.take_succ_cons, hasSubTrie, hsub]
      dsimp only
      rw [ih, Bool.or_false]
      cases rest with
      | nil => simp at h
      | cons c' rest => rfl

omit [LawfulBEq α] in
/-- The key is followed to a node that is there, when there is none behind it. -/
theorem lookUpPrefix_length_of_lookUp : ∀ (key : List α) (t : Trie α β) (n : Nat),
    n < key.length → (t.lookUp (key.take n)).isSome → t.hasSubTrie (key.take (n + 1)) = false →
    (t.lookUpPrefix key).length = n
  | [], _, n, h, _, _ => absurd h (by simp)
  | c :: rest, t, 0, _, _, hsub => by
    rw [List.take_succ_cons, List.take_zero, hasSubTrie] at hsub
    rw [lookUpPrefix]
    cases hc : t.findSubTrie c with
    | none => rfl
    | some sub =>
      simp [hc] at hsub
  | c :: rest, t, n + 1, h, hdata, hsub => by
    rw [List.length_cons] at h
    rw [List.take_succ_cons, lookUp] at hdata
    rw [List.take_succ_cons, hasSubTrie] at hsub
    rw [lookUpPrefix]
    cases hc : t.findSubTrie c with
    | none =>
      simp [hc] at hdata
    | some sub =>
      rw [hc] at hdata hsub
      dsimp only at hdata hsub
      rw [Bool.or_eq_false_iff] at hsub
      have ih := lookUpPrefix_length_of_lookUp rest sub n (by omega) hdata hsub.2
      show (sub.lookUpPrefix rest).length + 1 = n + 1
      rw [ih]

/-! ## Adding an entry -/

theorem findSubTrie_addEntry (value : β) (c : α) (rest : List α) (t : Trie α β) (c' : α) :
    (t.addEntry value (c :: rest)).findSubTrie c'
      = if c' == c then some (((t.findSubTrie c).getD empty).addEntry value rest)
        else t.findSubTrie c' := by
  rw [addEntry, findSubTrie_node, List.lookup_cons]
  cases heq : c' == c with
  | true => rfl
  | false =>
    show (t.children.filter fun child => child.1 != c).lookup c' = t.children.lookup c'
    induction t.children with
    | nil => rfl
    | cons child cs ih =>
      obtain ⟨d, sub⟩ := child
      cases hd : d == c with
      | true =>
        rw [List.filter_cons_of_neg (by simp [eq_of_beq hd]), ih, List.lookup_cons, eq_of_beq hd,
          heq]
      | false =>
        rw [List.filter_cons_of_pos (by simp [bne, hd]), List.lookup_cons, List.lookup_cons, ih]

omit [LawfulBEq α] in
@[simp] theorem lookUp_empty (key : List α) : (empty : Trie α β).lookUp key = none := by
  cases key <;> rfl

/-- **An entry replaces the one with its key, and leaves the others.** -/
theorem lookUp_addEntry (value : β) : ∀ (key key' : List α) (t : Trie α β),
    (t.addEntry value key).lookUp key' = if key' == key then some value else t.lookUp key'
  | [], [], _ => rfl
  | [], _ :: _, _ => rfl
  | _ :: _, [], _ => rfl
  | c :: rest, c' :: rest', t => by
    rw [lookUp, lookUp, findSubTrie_addEntry, List.cons_beq_cons]
    cases heq : c' == c with
    | true =>
      rw [if_pos rfl, Bool.true_and]
      dsimp only
      rw [lookUp_addEntry value rest rest', eq_of_beq heq]
      cases t.findSubTrie c with
      | none => rw [Option.getD_none, lookUp_empty]
      | some sub => rw [Option.getD_some]
    | false => rfl

/-! ## Nodes -/

/-- There is a node for the key. -/
def isNode : List α → Trie α β → Bool
  | [], _ => true
  | c :: rest, t =>
    match t.findSubTrie c with
    | none => false
    | some sub => sub.isNode rest

omit [LawfulBEq α] in
theorem isNode_empty (key : List α) : (empty : Trie α β).isNode key = key.isEmpty := by
  cases key <;> rfl

omit [LawfulBEq α] in
theorem isNode_of_append : ∀ {key : List α} (rest : List α) {t : Trie α β},
    t.isNode (key ++ rest) = true → t.isNode key = true
  | [], _, _, _ => rfl
  | c :: key, rest, t, h => by
    rw [List.cons_append, isNode] at h
    rw [isNode]
    cases hsub : t.findSubTrie c with
    | none =>
      simp [hsub] at h
    | some sub =>
      rw [hsub] at h
      exact isNode_of_append rest h

omit [LawfulBEq α] in
theorem hasSubTrie_eq : ∀ (key : List α) (t : Trie α β),
    t.hasSubTrie key = (!key.isEmpty && t.isNode key)
  | [], _ => rfl
  | c :: rest, t => by
    rw [hasSubTrie, isNode]
    cases t.findSubTrie c with
    | none => rfl
    | some sub =>
      dsimp only
      rw [hasSubTrie_eq rest]
      cases rest with
      | nil => rfl
      | cons c' rest => rfl

/-- An entry makes nodes for the beginnings of its key. -/
theorem isNode_addEntry (value : β) : ∀ (key key' : List α) (t : Trie α β),
    (t.addEntry value key).isNode key' = (key'.isPrefixOf key || t.isNode key')
  | _, [], _ => rfl
  | [], _ :: _, _ => rfl
  | c :: rest, c' :: rest', t => by
    rw [isNode, findSubTrie_addEntry, isNode, List.isPrefixOf_cons₂]
    cases heq : c' == c with
    | true =>
      rw [if_pos rfl, Bool.true_and]
      dsimp only
      rw [isNode_addEntry value rest rest', eq_of_beq heq]
      cases t.findSubTrie c with
      | none =>
        rw [Option.getD_none, isNode_empty, Bool.or_false]
        cases rest' with
        | nil => rfl
        | cons c'' rest' => exact Bool.or_false _
      | some sub => rfl
    | false => rfl

/-! ## The longest prefix -/

omit [LawfulBEq α] in
theorem isNode_take_lookUpPrefix : ∀ (key : List α) (t : Trie α β),
    t.isNode (key.take (t.lookUpPrefix key).length) = true
  | [], _ => rfl
  | c :: rest, t => by
    rw [lookUpPrefix]
    cases hsub : t.findSubTrie c with
    | none => rfl
    | some sub =>
      show t.isNode ((c :: rest).take ((sub.lookUpPrefix rest).length + 1)) = true
      simpa [isNode, hsub] using isNode_take_lookUpPrefix rest sub

omit [LawfulBEq α] in
/-- **A key is followed as far as there are nodes.** -/
theorem le_lookUpPrefix_length {key : List α} {t : Trie α β} {m : Nat} (hm : m ≤ key.length)
    (h : t.isNode (key.take m) = true) : m ≤ (t.lookUpPrefix key).length := by
  by_contra hlt
  have hsub := hasSubTrie_take_lookUpPrefix key t (by omega)
  obtain ⟨k, hk⟩ := Nat.exists_eq_add_of_lt (Nat.not_le.mp hlt)
  rw [hk, Nat.add_right_comm, List.take_add] at h
  have hnode := isNode_of_append _ h
  rw [hasSubTrie_eq, hnode, Bool.and_true, Bool.not_eq_false', List.isEmpty_iff,
    List.take_eq_nil_iff] at hsub
  rcases hsub with hsub | hsub
  · omega
  · simp [hsub] at hm
    omega

theorem children_eq_nil_iff {t : Trie α β} : t.children = [] ↔ ∀ c, t.isNode [c] = false := by
  cases hchildren : t.children with
  | nil =>
    refine iff_of_true rfl fun c => ?_
    rw [isNode, findSubTrie, hchildren]
    rfl
  | cons child children =>
    refine iff_of_false (List.cons_ne_nil _ _) fun h => ?_
    have hchild := h child.1
    rw [isNode, findSubTrie, hchildren, List.lookup_cons, beq_self_eq_true] at hchild
    cases hchild

omit [LawfulBEq α] in
theorem data_isNone {t : Trie α β} (h : t.here.data ≠ none) : t.data.isNone = false := by
  rw [Option.isNone_eq_false_iff, Option.isSome_iff_ne_none]
  exact h

theorem here_fixed_iff {t : Trie α β} (h : t.here.data ≠ none) :
    t.here.fixed = true ↔ ∀ c, t.isNode ([] ++ [c]) = false := by
  show (t.data.isNone || t.children.isEmpty) = true ↔ _
  simpa [data_isNone h] using children_eq_nil_iff

/-- **A match is fixed if no longer key goes on from it.** -/
theorem lookUpPrefix_fixed_iff : ∀ {key : List α} {t : Trie α β},
    (t.lookUpPrefix key).data ≠ none → ((t.lookUpPrefix key).fixed = true ↔
      ∀ c, t.isNode (key.take (t.lookUpPrefix key).length ++ [c]) = false)
  | [], t, h => here_fixed_iff h
  | c :: rest, t, h => by
    rw [lookUpPrefix] at h ⊢
    cases hsub : t.findSubTrie c with
    | none =>
      rw [hsub] at h
      exact here_fixed_iff h
    | some sub =>
      rw [hsub] at h
      have ih : (sub.lookUpPrefix rest).fixed = true ↔
          ∀ d, sub.isNode (rest.take (sub.lookUpPrefix rest).length ++ [d]) = false :=
        lookUpPrefix_fixed_iff h
      show (sub.lookUpPrefix rest).fixed = true ↔
        ∀ d, t.isNode ((c :: rest).take ((sub.lookUpPrefix rest).length + 1) ++ [d]) = false
      rw [ih]
      refine forall_congr' fun d => ?_
      simp [isNode, hsub]

omit [BEq α] [LawfulBEq α] in
theorem here_fixed_of_none {t : Trie α β} (h : t.here.data = none) : t.here.fixed = true := by
  have hdata : t.data = none := h
  show (t.data.isNone || t.children.isEmpty) = true
  rw [hdata]
  rfl

omit [LawfulBEq α] in
theorem lookUpPrefix_fixed_of_none : ∀ {key : List α} {t : Trie α β},
    (t.lookUpPrefix key).data = none → (t.lookUpPrefix key).fixed = true
  | [], _, h => here_fixed_of_none h
  | c :: rest, t, h => by
    rw [lookUpPrefix] at h ⊢
    cases hsub : t.findSubTrie c with
    | none =>
      rw [hsub] at h
      exact here_fixed_of_none h
    | some sub =>
      rw [hsub] at h
      have hfixed : (sub.lookUpPrefix rest).fixed = true := lookUpPrefix_fixed_of_none h
      exact hfixed

/-! ## Many entries -/

/-- A trie of these entries. -/
def ofEntries (key : β → List α) (entries : List β) : Trie α β :=
  entries.foldl (fun t entry => t.addEntry entry (key entry)) empty

variable {key : β → List α}

omit [LawfulBEq α] in
theorem ofEntries_snoc (entries : List β) (entry : β) :
    ofEntries key (entries ++ [entry]) = (ofEntries key entries).addEntry entry (key entry) := by
  simp [ofEntries]

/-- **The last entry with a key is found.** -/
theorem lookUp_ofEntries_iff {entries : List β} {k : List α} {entry : β} :
    (ofEntries key entries).lookUp k = some entry ↔
      ∃ before after, entries = before ++ entry :: after ∧ key entry = k ∧
        ∀ e ∈ after, key e ≠ k := by
  induction entries using List.reverseRecOn with
  | nil => simp [ofEntries]
  | append_singleton entries last ih =>
    rw [ofEntries_snoc, lookUp_addEntry]
    by_cases hk : k = key last
    · rw [if_pos (beq_iff_eq.mpr hk)]
      constructor
      · intro h
        rw [← Option.some.inj h]
        exact ⟨entries, [], rfl, hk.symm, by simp⟩
      · rintro ⟨before, after, heq, -, hafter⟩
        rcases List.eq_nil_or_concat after with rfl | ⟨after, last', rfl⟩
        · rw [List.singleton_inj.mp (List.append_inj' heq rfl).2]
        · rw [List.concat_eq_append, ← List.cons_append, ← List.append_assoc] at heq
          obtain ⟨-, hlast⟩ := List.append_inj' heq rfl
          refine absurd hk.symm (hafter last ?_)
          simp [List.singleton_inj.mp hlast]
    · rw [if_neg (fun h => hk (beq_iff_eq.mp h)), ih]
      constructor
      · rintro ⟨before, after, rfl, hkey, hafter⟩
        refine ⟨before, after ++ [last], by simp, hkey, ?_⟩
        intro e he
        rcases List.mem_append.mp he with he | he
        · exact hafter e he
        · rw [List.mem_singleton.mp he]
          exact fun h => hk h.symm
      · rintro ⟨before, after, heq, hkey, hafter⟩
        rcases List.eq_nil_or_concat after with rfl | ⟨after, last', rfl⟩
        · obtain ⟨-, hlast⟩ := List.append_inj' heq rfl
          rw [← List.singleton_inj.mp hlast] at hkey
          exact absurd hkey.symm hk
        · rw [List.concat_eq_append, ← List.cons_append, ← List.append_assoc] at heq
          obtain ⟨hentries, -⟩ := List.append_inj' heq rfl
          exact ⟨before, after, hentries, hkey, fun e he => hafter e (by simp [he])⟩

theorem lookUp_ofEntries_ne_none_iff {entries : List β} {k : List α} :
    (ofEntries key entries).lookUp k ≠ none ↔ ∃ e ∈ entries, key e = k := by
  induction entries using List.reverseRecOn with
  | nil => simp [ofEntries]
  | append_singleton entries last ih =>
    rw [ofEntries_snoc, lookUp_addEntry]
    by_cases hk : k = key last
    · rw [if_pos (beq_iff_eq.mpr hk)]
      exact iff_of_true (Option.some_ne_none _) ⟨last, by simp, hk.symm⟩
    · rw [if_neg (fun h => hk (beq_iff_eq.mp h)), ih]
      constructor
      · rintro ⟨e, he, hkey⟩
        exact ⟨e, List.mem_append_left _ he, hkey⟩
      · rintro ⟨e, he, hkey⟩
        rcases List.mem_append.mp he with he | he
        · exact ⟨e, he, hkey⟩
        · rw [List.mem_singleton.mp he] at hkey
          exact absurd hkey.symm hk

theorem isNode_ofEntries_iff {entries : List β} {k : List α} :
    (ofEntries key entries).isNode k = true ↔ k = [] ∨ ∃ e ∈ entries, k <+: key e := by
  induction entries using List.reverseRecOn with
  | nil => simp [ofEntries, isNode_empty]
  | append_singleton entries last ih =>
    rw [ofEntries_snoc, isNode_addEntry, Bool.or_eq_true, ih, List.isPrefixOf_iff_prefix]
    constructor
    · rintro (hlast | hnil | ⟨e, he, hkey⟩)
      · exact Or.inr ⟨last, by simp, hlast⟩
      · exact Or.inl hnil
      · exact Or.inr ⟨e, List.mem_append_left _ he, hkey⟩
    · rintro (hnil | ⟨e, he, hkey⟩)
      · exact Or.inr (Or.inl hnil)
      · rcases List.mem_append.mp he with he | he
        · exact Or.inr (Or.inr ⟨e, he, hkey⟩)
        · rw [List.mem_singleton.mp he] at hkey
          exact Or.inl hkey

/-- The longest beginning of `k` that begins a key, and the last entry that has it as its key. -/
structure LongestMatch (key : β → List α) (entries : List β) (k : List α) (found : TrieMatch β) :
    Prop where
  within : found.length ≤ k.length
  begins : found.length = 0 ∨ ∃ e ∈ entries, k.take found.length <+: key e
  longest : ∀ n ≤ k.length, (∃ e ∈ entries, k.take n <+: key e) → n ≤ found.length
  found_iff : found.data ≠ none ↔ ∃ e ∈ entries, key e = k.take found.length
  last : ∀ e, found.data = some e → ∃ before after, entries = before ++ e :: after ∧
    key e = k.take found.length ∧ ∀ later ∈ after, key later ≠ k.take found.length
  fixed_iff : found.data ≠ none → (found.fixed = true ↔
    ∀ e ∈ entries, k.take found.length <+: key e → key e = k.take found.length)
  fixed_of_none : found.data = none → found.fixed = true

/-- **The longest beginning of a key is found.** -/
theorem lookUpPrefix_longestMatch {entries : List β} (k : List α) :
    LongestMatch key entries k ((ofEntries key entries).lookUpPrefix k) := by
  have htake := lookUp_take_lookUpPrefix k (ofEntries key entries)
  have hle := lookUpPrefix_length_le k (ofEntries key entries)
  refine ⟨hle, ?_, ?_, ?_, ?_, ?_, lookUpPrefix_fixed_of_none⟩
  · have hnode := isNode_take_lookUpPrefix k (ofEntries key entries)
    rcases isNode_ofEntries_iff.mp hnode with hnil | hentry
    · rcases List.take_eq_nil_iff.mp hnil with hzero | hnil
      · exact Or.inl hzero
      · subst hnil
        exact Or.inl (Nat.le_zero.mp hle)
    · exact Or.inr hentry
  · intro n hn hentry
    exact le_lookUpPrefix_length hn (isNode_ofEntries_iff.mpr (Or.inr hentry))
  · rw [← htake, lookUp_ofEntries_ne_none_iff]
  · intro e he
    exact lookUp_ofEntries_iff.mp (htake.trans he)
  · intro hdata
    rw [lookUpPrefix_fixed_iff hdata]
    generalize k.take ((ofEntries key entries).lookUpPrefix k).length = found
    constructor
    · rintro hend e he ⟨rest, hrest⟩
      cases rest with
      | nil => rw [← hrest, List.append_nil]
      | cons c rest =>
        have hnode := isNode_ofEntries_iff.mpr
          (Or.inr ⟨e, he, show found ++ [c] <+: key e from ⟨rest, by rw [← hrest]; simp⟩⟩)
        simp [hend c] at hnode
    · intro hall c
      rw [← Bool.not_eq_true, isNode_ofEntries_iff]
      rintro (hnil | ⟨e, he, hkey⟩)
      · simp at hnil
      · have hlen := hkey.length_le
        rw [hall e he ((List.prefix_append found [c]).trans hkey), List.length_append,
          List.length_singleton] at hlen
        omega

end Trie

end Infra
