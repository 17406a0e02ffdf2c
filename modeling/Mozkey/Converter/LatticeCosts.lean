import Mozkey.Converter.Lattice

/-!
# Raising the costs of nodes

What a guard does to a lattice is to add to the word costs of some nodes. `Scoring` is the lattice
while a guard runs, with the raises so far; `SameButCosts` is what is left alone.
-/

namespace Mozkey.Converter

open Infra Base

namespace Lattice

/-- An inserted node without its cost. -/
def costless (e : Nat × Node) : Nat × Node := (e.1, { e.2 with wcost := 0 })

/-- Two lattices with the same nodes, up to the word costs. -/
structure SameButCosts (l l' : Lattice) : Prop where
  key : l'.key = l.key
  bosId : l'.bosId = l.bosId
  inserted : l'.inserted.map costless = l.inserted.map costless

/-- `node->wcost += penalty`, for an inserted node. -/
def raise (l : Lattice) (i : Nat) (penalty : Int) : Lattice :=
  { l with
    inserted := l.inserted.modify i fun e => (e.1, { e.2 with wcost := e.2.wcost + penalty })
    inside := fun e he => by
      obtain ⟨j, hj⟩ := List.mem_iff_getElem?.mp he
      rw [List.getElem?_modify] at hj
      obtain ⟨e₀, he₀, rfl⟩ := Option.map_eq_some_iff.mp hj
      have := l.inside e₀ (List.mem_of_getElem? he₀)
      split <;> exact this
    placed := fun e he => by
      obtain ⟨j, hj⟩ := List.mem_iff_getElem?.mp he
      rw [List.getElem?_modify] at hj
      obtain ⟨e₀, he₀, rfl⟩ := Option.map_eq_some_iff.mp hj
      have := l.placed e₀ (List.mem_of_getElem? he₀)
      split <;> exact this }

variable {l l' l'' : Lattice} {v : NodeId} {pos : Nat}

namespace SameButCosts

theorem refl (l : Lattice) : l.SameButCosts l := ⟨rfl, rfl, rfl⟩

theorem trans (h : l.SameButCosts l') (h' : l'.SameButCosts l'') : l.SameButCosts l'' :=
  ⟨h'.key.trans h.key, h'.bosId.trans h.bosId, h'.inserted.trans h.inserted⟩

theorem length (h : l.SameButCosts l') : l'.inserted.length = l.inserted.length := by
  have := congrArg List.length h.inserted
  simpa using this

theorem getElem? (h : l.SameButCosts l') (i : Nat) :
    (l'.inserted[i]?).map costless = (l.inserted[i]?).map costless := by
  simp [← List.getElem?_map, h.inserted]

/-- A node differs in its cost at most. -/
theorem node (h : l.SameButCosts l') (v : NodeId) :
    ∃ w, l'.node v = { l.node v with wcost := w } := by
  cases v with
  | bos => exact ⟨0, by rw [Lattice.node, bosNode, h.bosId]; rfl⟩
  | eos => exact ⟨0, by rw [Lattice.node, eosNode, h.key]; rfl⟩
  | node i =>
    have hi := h.getElem? i
    simp only [Lattice.node]
    cases he : l.inserted[i]? with
    | none =>
      rw [he, Option.map_none, Option.map_eq_none_iff] at hi
      exact ⟨0, by rw [hi]⟩
    | some e =>
      rw [he, Option.map_some] at hi
      obtain ⟨e', he', heq⟩ := Option.map_eq_some_iff.mp hi
      refine ⟨e'.2.wcost, ?_⟩
      rw [he']
      have hnode : ({ e'.2 with wcost := 0 } : Node) = { e.2 with wcost := 0 } :=
        congrArg Prod.snd heq
      show e'.2 = { e.2 with wcost := e'.2.wcost }
      calc e'.2 = { ({ e'.2 with wcost := 0 } : Node) with wcost := e'.2.wcost } := rfl
        _ = _ := by rw [hnode]

/-- What does not look at the cost finds no difference. -/
theorem node_eq (h : l.SameButCosts l') {β : Type} {f : Node → β}
    (hf : ∀ n w, f { n with wcost := w } = f n) (v : NodeId) : f (l'.node v) = f (l.node v) := by
  obtain ⟨w, hw⟩ := h.node v
  rw [hw, hf]

theorem nodesWhere (h : l.SameButCosts l') {p : Nat × Node → Bool}
    (hp : ∀ e, p (costless e) = p e) : l'.nodesWhere p = l.nodesWhere p := by
  have hmap : ∀ k : Lattice, k.nodesWhere p
      = ((k.inserted.map costless).zipIdx.filter fun e => p e.1).map fun e => NodeId.node e.2 := by
    intro k
    rw [Lattice.nodesWhere, List.zipIdx_map, List.filter_map, List.map_map]
    simp only [Function.comp_def, Prod.map, hp, id]
  rw [hmap, hmap, h.inserted]

theorem beginNodes (h : l.SameButCosts l') (pos : Nat) : l'.beginNodes pos = l.beginNodes pos := by
  rw [Lattice.beginNodes, Lattice.beginNodes, h.key, h.nodesWhere fun e => rfl]

theorem endNodes (h : l.SameButCosts l') (pos : Nat) : l'.endNodes pos = l.endNodes pos := by
  rw [Lattice.endNodes, Lattice.endNodes, h.key, h.nodesWhere fun e => rfl]

theorem start (h : l.SameButCosts l') (v : NodeId) : l'.start v = l.start v := by
  cases v with
  | bos => rfl
  | eos => rw [Lattice.start, Lattice.start, h.key]
  | node i =>
    have hi := h.getElem? i
    simp only [Lattice.start]
    cases he : l.inserted[i]? with
    | none =>
      rw [he, Option.map_none, Option.map_eq_none_iff] at hi
      rw [hi]
    | some e =>
      rw [he, Option.map_some] at hi
      obtain ⟨e', he', heq⟩ := Option.map_eq_some_iff.mp hi
      rw [he']
      show (costless e').1 = (costless e).1
      rw [heq]

end SameButCosts

/-! ## Raising -/

theorem getElem?_raise (l : Lattice) (i : Nat) (penalty : Int) (j : Nat) :
    (l.raise i penalty).inserted[j]? = (l.inserted[j]?).map fun e =>
      if i = j then (e.1, { e.2 with wcost := e.2.wcost + penalty }) else e := by
  rw [raise, List.getElem?_modify]
  rfl

theorem sameButCosts_raise (l : Lattice) (i : Nat) (penalty : Int) :
    l.SameButCosts (l.raise i penalty) := by
  refine ⟨rfl, rfl, List.ext_getElem? fun j => ?_⟩
  rw [List.getElem?_map, List.getElem?_map, getElem?_raise, Option.map_map]
  refine congrArg (Option.map · _) (funext fun e => ?_)
  rw [Function.comp_apply]
  split <;> rfl

/-- Raises, one after the other. -/
def raiseAll (l : Lattice) (raised : List (Nat × Int)) : Lattice :=
  raised.foldl (fun l r => l.raise r.1 r.2) l

theorem raiseAll_append (l : Lattice) (a b : List (Nat × Int)) :
    l.raiseAll (a ++ b) = (l.raiseAll a).raiseAll b := List.foldl_append

theorem sameButCosts_raiseAll : ∀ (raised : List (Nat × Int)) (l : Lattice),
    l.SameButCosts (l.raiseAll raised)
  | [], l => .refl l
  | r :: raised, l => (sameButCosts_raise l r.1 r.2).trans (sameButCosts_raiseAll raised _)

/-- What the raises of a node come to. -/
def total (raised : List (Nat × Int)) (i : Nat) : Int :=
  ((raised.filter fun r => r.1 = i).map Prod.snd).sum

theorem total_cons (r : Nat × Int) (raised : List (Nat × Int)) (i : Nat) :
    total (r :: raised) i = (if r.1 = i then r.2 else 0) + total raised i := by
  rw [total, List.filter_cons]
  split
  · next h => rw [if_pos (by simpa using h), List.map_cons, List.sum_cons, total]
  · next h => rw [if_neg (by simpa using h), Int.zero_add, total]

/-- **The cost of a node after the raises.** -/
theorem getElem?_raiseAll : ∀ (raised : List (Nat × Int)) (l : Lattice) (i : Nat),
    (l.raiseAll raised).inserted[i]? = (l.inserted[i]?).map fun e =>
      (e.1, { e.2 with wcost := e.2.wcost + total raised i })
  | [], l, i => by
    cases h : l.inserted[i]? <;> simp [raiseAll, total, h]
  | r :: raised, l, i => by
    rw [raiseAll, List.foldl_cons, ← raiseAll, getElem?_raiseAll raised, getElem?_raise,
      Option.map_map]
    refine congrArg (Option.map · _) (funext fun e => ?_)
    rw [Function.comp_apply, total_cons]
    split
    · rw [Int.add_assoc]
    · simp

theorem total_nonneg : ∀ {raised : List (Nat × Int)}, (∀ r ∈ raised, 0 ≤ r.2) → ∀ i : Nat,
    0 ≤ total raised i
  | [], _, _ => Int.le_refl 0
  | r :: raised, h, i => by
    have hr := h r List.mem_cons_self
    have ih := total_nonneg (List.forall_mem_cons.mp h).2 i
    rw [total_cons]
    split <;> omega

theorem total_append (a b : List (Nat × Int)) (i : Nat) :
    total (a ++ b) i = total a i + total b i := by
  simp [total]

theorem total_of_not_mem {raised : List (Nat × Int)} {i : Nat} (h : i ∉ raised.map Prod.fst) :
    total raised i = 0 := by
  have : raised.filter (fun r => r.1 = i) = [] := by
    refine List.filter_eq_nil_iff.mpr fun r hr => ?_
    rintro heq
    exact h (List.mem_map.mpr ⟨r, hr, by simpa using heq⟩)
  rw [total, this]
  rfl

/-- A node that is raised somewhere costs more. -/
theorem le_total {raised : List (Nat × Int)} (h : ∀ r ∈ raised, 0 ≤ r.2) {i : Nat} {p : Int}
    (hr : (i, p) ∈ raised) : p ≤ total raised i := by
  obtain ⟨a, b, rfl⟩ := List.append_of_mem hr
  have ha := total_nonneg (fun x hx => h x (List.mem_append_left _ hx)) i
  have hb := total_nonneg
    (fun x hx => h x (List.mem_append_right a (List.mem_cons_of_mem _ hx))) i
  simp [total_append, total_cons]
  omega

end Lattice

end Mozkey.Converter
