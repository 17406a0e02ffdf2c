import Mathlib.Data.List.Basic

/-!
# Maps as sorted vectors

Pairs in the order of their keys. `std::lower_bound` finds the first pair whose key is not less.

* `lookup_upsert` — a map with one value changed
* `mem_iff_lookup` — the pairs are the values
-/

namespace Infra.SortedMap

variable {β : Type}

def lookup : List (Nat × β) → Nat → Option β
  | [], _ => none
  | (k', b) :: m, k => if k' < k then lookup m k else if k' = k then some b else none

/-- `f` gives the new value, from the old one if there is one. -/
def upsert (k : Nat) (f : Option β → β) : List (Nat × β) → List (Nat × β)
  | [] => [(k, f none)]
  | (k', b) :: m =>
    if k' < k then (k', b) :: upsert k f m
    else if k' = k then (k', f (some b)) :: m
    else (k, f none) :: (k', b) :: m

def Sorted (m : List (Nat × β)) : Prop := m.Pairwise fun x y => x.1 < y.1

variable {m : List (Nat × β)} {k k' : Nat} {b : β} {f : Option β → β}

theorem mem_upsert {x : Nat × β} (h : x ∈ upsert k f m) : x.1 = k ∨ x ∈ m := by
  induction m with
  | nil =>
    rw [upsert, List.mem_singleton] at h
    exact .inl (by rw [h])
  | cons y m ih =>
    obtain ⟨k', b⟩ := y
    rw [upsert] at h
    split at h
    · rcases List.mem_cons.mp h with rfl | h
      · exact .inr (by simp)
      · exact (ih h).imp_right fun h => by simp [h]
    · split at h
      · next hk =>
        rcases List.mem_cons.mp h with rfl | h
        · exact .inl hk
        · exact .inr (by simp [h])
      · rcases List.mem_cons.mp h with rfl | h
        · exact .inl rfl
        · exact .inr h

theorem Sorted.upsert (h : Sorted m) : Sorted (upsert k f m) := by
  induction m with
  | nil => exact List.pairwise_singleton _ _
  | cons y m ih =>
    obtain ⟨k', b⟩ := y
    obtain ⟨hfirst, hrest⟩ := List.pairwise_cons.mp h
    rw [SortedMap.upsert]
    split
    · next hlt =>
      refine List.pairwise_cons.mpr ⟨fun x hx => ?_, ih hrest⟩
      rcases mem_upsert hx with hk | hx
      · exact hk ▸ hlt
      · exact hfirst x hx
    · split
      · exact List.pairwise_cons.mpr ⟨hfirst, hrest⟩
      · refine List.pairwise_cons.mpr ⟨fun x hx => ?_, h⟩
        rcases List.mem_cons.mp hx with rfl | hx
        · dsimp only
          omega
        · have := hfirst x hx
          dsimp only at this ⊢
          omega

theorem lookup_eq_none (h : ∀ x ∈ m, k < x.1) : lookup m k = none := by
  cases m with
  | nil => rfl
  | cons y m =>
    have := h y (by simp)
    rw [lookup, if_neg (by omega), if_neg (by omega)]

/-- **A map with one value changed.** -/
theorem lookup_upsert (h : Sorted m) :
    lookup (upsert k f m) k' = if k' = k then some (f (lookup m k)) else lookup m k' := by
  induction m with
  | nil =>
    by_cases hk : k' = k
    · subst hk
      simp [upsert, lookup]
    · simp [upsert, lookup, hk, Ne.symm hk]
  | cons y m ih =>
    obtain ⟨a, b⟩ := y
    obtain ⟨hfirst, hrest⟩ := List.pairwise_cons.mp h
    dsimp only at hfirst
    rw [upsert]
    split
    · next hlt =>
      rw [lookup, ih hrest]
      by_cases hk : k' = k
      · subst hk
        simp [hlt, lookup]
      · simp [hk, lookup]
    · split
      · next hge hak =>
        subst hak
        by_cases hk : k' = a
        · subst hk
          simp [lookup]
        · simp [lookup, hk, Ne.symm hk]
      · next hge hne =>
        by_cases hk : k' = k
        · subst hk
          simp [lookup, hge, hne]
        · rw [if_neg hk, lookup]
          split
          · rfl
          · next hnlt =>
            rw [if_neg (Ne.symm hk), lookup_eq_none]
            intro x hx
            rcases List.mem_cons.mp hx with rfl | hx
            · dsimp only
              omega
            · have := hfirst x hx
              omega

/-- **The pairs are the values.** -/
theorem mem_iff_lookup (h : Sorted m) : (k, b) ∈ m ↔ lookup m k = some b := by
  induction m with
  | nil => simp [lookup]
  | cons y m ih =>
    obtain ⟨a, c⟩ := y
    obtain ⟨hfirst, hrest⟩ := List.pairwise_cons.mp h
    rw [lookup, List.mem_cons, ih hrest]
    split
    · next hlt => simp [Nat.ne_of_gt hlt]
    · split
      · next hge hak =>
        subst hak
        have hnone : lookup m a = none := lookup_eq_none fun x hx => hfirst x hx
        simp [hnone, eq_comm]
      · next hge hne =>
        have hnone : lookup m k = none := lookup_eq_none fun x hx => by
          have := hfirst x hx
          dsimp only at this
          omega
        simp [hnone, Ne.symm hne]

theorem lookup_map {γ : Type} (g : Nat → β → γ) :
    lookup (m.map fun x => (x.1, g x.1 x.2)) k = (lookup m k).map (g k) := by
  induction m with
  | nil => rfl
  | cons y m ih =>
    rw [List.map_cons, lookup, lookup, ih]
    split
    · rfl
    · split
      · next hk =>
        subst hk
        rfl
      · rfl

end Infra.SortedMap
