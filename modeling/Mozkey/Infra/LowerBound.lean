import Mathlib.Data.Bool.Basic
import Mathlib.Order.Basic
import Mathlib.Order.Lattice

/-!
# The binary search for a lower bound

`std::lower_bound` over positions whose values are read one at a time. Reading may fail. The
search reads nothing outside of its range, and finds the first position whose value is not below
the target when the values do not decrease (`lowerBound_spec`).
-/

namespace Infra

variable {α : Type} [LinearOrder α]

/-- `fuel` bounds the number of halvings. -/
def lowerBoundFrom (value : Nat → Option α) (target : α) : Nat → Nat → Nat → Option Nat
  | 0, first, _ => some first
  | fuel + 1, first, count =>
    if count = 0 then some first
    else
      let half := count / 2
      match value (first + half) with
      | none => none
      | some v =>
        if v < target then lowerBoundFrom value target fuel (first + half + 1) (count - half - 1)
        else lowerBoundFrom value target fuel first half

/-- The first of the `count` positions from `first` whose value is not below `target`. -/
def lowerBound (value : Nat → Option α) (target : α) (first count : Nat) : Option Nat :=
  lowerBoundFrom value target count first count

/-- Every value before `r` is below the target, and none from `r` on. -/
structure IsLowerBound (g : Nat → α) (target : α) (first stop r : Nat) : Prop where
  first_le : first ≤ r
  le_stop : r ≤ stop
  below : ∀ i, first ≤ i → i < r → g i < target
  above : ∀ i, r ≤ i → i < stop → target ≤ g i

variable {value : Nat → Option α} {g : Nat → α} {target : α}

theorem lowerBoundFrom_spec : ∀ (fuel first count : Nat), count ≤ fuel →
    (∀ i, first ≤ i → i < first + count → value i = some (g i)) →
    (∀ i j, first ≤ i → i ≤ j → j < first + count → g i ≤ g j) →
    ∃ r, lowerBoundFrom value target fuel first count = some r ∧
      IsLowerBound g target first (first + count) r
  | 0, first, count, hfuel, _, _ =>
    ⟨first, rfl, Nat.le_refl _, by omega, fun i hlo hhi => by omega, fun i hlo hhi => by omega⟩
  | fuel + 1, first, count, hfuel, hvalue, hmono => by
    rw [lowerBoundFrom]
    split
    · exact ⟨first, rfl, Nat.le_refl _, by omega, fun i hlo hhi => by omega,
        fun i hlo hhi => by omega⟩
    · next hcount =>
      dsimp only
      rw [hvalue (first + count / 2) (by omega) (by omega)]
      dsimp only
      split
      · next hlt =>
        obtain ⟨r, hr, hspec⟩ := lowerBoundFrom_spec fuel (first + count / 2 + 1)
          (count - count / 2 - 1) (by omega)
          (fun i hlo hhi => hvalue i (by omega) (by omega))
          (fun i j hlo hij hhi => hmono i j (by omega) hij (by omega))
        have hstop : first + count / 2 + 1 + (count - count / 2 - 1) = first + count := by omega
        rw [hstop] at hspec
        have hfirst := hspec.first_le
        refine ⟨r, hr, by omega, hspec.le_stop, fun i hlo hhi => ?_, hspec.above⟩
        by_cases hi : first + count / 2 + 1 ≤ i
        · exact hspec.below i hi hhi
        · exact lt_of_le_of_lt (hmono i (first + count / 2) hlo (by omega) (by omega)) hlt
      · next hge =>
        obtain ⟨r, hr, hspec⟩ := lowerBoundFrom_spec fuel first (count / 2) (by omega)
          (fun i hlo hhi => hvalue i (by omega) (by omega))
          (fun i j hlo hij hhi => hmono i j hlo hij (by omega))
        have hstop := hspec.le_stop
        refine ⟨r, hr, hspec.first_le, by omega, hspec.below, fun i hlo hhi => ?_⟩
        by_cases hi : i < first + count / 2
        · exact hspec.above i hlo hi
        · exact le_trans (not_lt.mp hge) (hmono (first + count / 2) i (by omega) (by omega) hhi)

/-- **The search finds the lower bound in values that do not decrease.** -/
theorem lowerBound_spec (target : α) (first count : Nat)
    (hvalue : ∀ i, first ≤ i → i < first + count → value i = some (g i))
    (hmono : ∀ i j, first ≤ i → i ≤ j → j < first + count → g i ≤ g j) :
    ∃ r, lowerBound value target first count = some r ∧
      IsLowerBound g target first (first + count) r :=
  lowerBoundFrom_spec count first count (Nat.le_refl _) hvalue hmono

namespace IsLowerBound

variable {other : α} {first stop r r' : Nat}

/-- The lower bound of a range is the one of any part of the range that contains it. -/
theorem part {first' stop' : Nat} (h : IsLowerBound g target first stop r)
    (hr' : IsLowerBound g target first' stop' r') (hfirst : first ≤ first') (hstop : stop' ≤ stop)
    (hlo : first' ≤ r) (hhi : r ≤ stop') : r' = r := by
  have hlo' := hr'.first_le
  have hhi' := hr'.le_stop
  rcases Nat.lt_trichotomy r' r with hlt | heq | hgt
  · have hbelow := h.below r' (by omega) hlt
    have habove := hr'.above r' (Nat.le_refl _) (by omega)
    exact absurd hbelow (not_lt.mpr habove)
  · exact heq
  · have hbelow := hr'.below r hlo hgt
    have habove := h.above r (Nat.le_refl _) (by omega)
    exact absurd hbelow (not_lt.mpr habove)

/-- A larger target has no smaller lower bound. -/
theorem mono (h : IsLowerBound g target first stop r) (h' : IsLowerBound g other first stop r')
    (hle : target ≤ other) : r ≤ r' := by
  by_contra hlt
  have hstop := h.le_stop
  have hbelow := h.below r' h'.first_le (by omega)
  have habove := h'.above r' (Nat.le_refl _) (by omega)
  exact absurd (lt_of_lt_of_le hbelow hle) (not_lt.mpr habove)

end IsLowerBound

end Infra

/-!
## Partitioned lists

`std::lower_bound` and `std::equal_range` with a comparison. What is asked for are the entries for
which it has an answer, when these stand in front of the others.
-/

namespace Infra

variable {α : Type} {below above : α → Bool} {l : List α}

/-- The entries that satisfy `below` are in front of the others. -/
def Partitioned (below : α → Bool) (l : List α) : Prop :=
  l.Pairwise fun a b => below b = true → below a = true

/-- The position that halving finds, with the entries that satisfy `below` before it. -/
def partitionPoint (below : α → Bool) (l : List α) : Nat :=
  (lowerBound (fun i => l[i]?.map fun a => !below a) true 0 l.length).getD 0

/-- The entries that are neither below nor above. -/
def equalRange (below above : α → Bool) (l : List α) : List α :=
  (l.take (partitionPoint (fun a => !above a) l)).drop (partitionPoint below l)

theorem Partitioned.eq_append : ∀ {l : List α}, Partitioned below l →
    l = l.filter below ++ l.filter fun a => !below a
  | [], _ => rfl
  | a :: l, h => by
    obtain ⟨ha, hl⟩ := List.pairwise_cons.mp h
    cases hbelow : below a with
    | true =>
      rw [List.filter_cons_of_pos hbelow, List.filter_cons_of_neg (by rw [hbelow]; decide),
        List.cons_append, ← Partitioned.eq_append hl]
    | false =>
      have hnone : ∀ b ∈ a :: l, below b = false := by
        intro b hb
        obtain rfl | hb' := List.mem_cons.mp hb
        · exact hbelow
        · rw [Bool.eq_false_iff]
          intro htrue
          simp [ha b hb' htrue] at hbelow
      rw [List.filter_eq_nil_iff.mpr fun b hb => by rw [hnone b hb]; decide,
        List.filter_eq_self.mpr fun b hb => by rw [hnone b hb]; rfl, List.nil_append]

/-- **Halving finds the number of the entries below.** -/
theorem partitionPoint_eq (h : Partitioned below l) :
    partitionPoint below l = (l.filter below).length := by
  have hsplit := h.eq_append
  have hfront : ∀ b ∈ l.filter below, below b = true := fun b hb => (List.mem_filter.mp hb).2
  have hback : ∀ b ∈ l.filter fun a => !below a, (!below b) = true :=
    fun b hb => (List.mem_filter.mp hb).2
  generalize l.filter below = front at hsplit hfront ⊢
  generalize (l.filter fun a => !below a) = back at hsplit hback
  subst hsplit
  have hvalue : ∀ i, 0 ≤ i → i < 0 + (front ++ back).length →
      (front ++ back)[i]?.map (fun a => !below a) = some (decide (front.length ≤ i)) := by
    intro i _ hi
    rw [Nat.zero_add, List.length_append] at hi
    obtain hlt | hge := Nat.lt_or_ge i front.length
    · simp [List.getElem?_append_left hlt, List.getElem?_eq_getElem hlt, hfront _ (List.getElem_mem
        hlt), decide_eq_false (Nat.not_le.mpr hlt)]
    · have hlt : i - front.length < back.length := by omega
      simp [List.getElem?_append_right hge, List.getElem?_eq_getElem hlt, hback _ (List.getElem_mem
        hlt), decide_eq_true hge]
  have hmono : ∀ i j, 0 ≤ i → i ≤ j → j < 0 + (front ++ back).length →
      decide (front.length ≤ i) ≤ decide (front.length ≤ j) := by
    intro i j _ hij _ hi
    rw [decide_eq_true_eq] at hi ⊢
    exact hi.trans hij
  obtain ⟨r, hr, hspec⟩ := lowerBound_spec true 0 (front ++ back).length hvalue hmono
  rw [partitionPoint, hr, Option.getD_some]
  have hstop := hspec.le_stop
  rw [Nat.zero_add, List.length_append] at hstop
  obtain hlt | heq | hgt := Nat.lt_trichotomy r front.length
  · have habove := hspec.above r (Nat.le_refl r) (by rw [List.length_append]; omega)
    rw [decide_eq_false (Nat.not_le.mpr hlt)] at habove
    exact absurd (habove rfl) Bool.false_ne_true
  · exact heq
  · have hbelow := hspec.below front.length (Nat.zero_le _) hgt
    rw [decide_eq_true (Nat.le_refl _)] at hbelow
    exact absurd hbelow (lt_irrefl _)

theorem take_partitionPoint (h : Partitioned below l) :
    l.take (partitionPoint below l) = l.filter below := by
  have htake : (l.filter below ++ l.filter fun a => !below a).take (l.filter below).length =
      l.filter below := List.take_left
  rw [← h.eq_append] at htake
  rw [partitionPoint_eq h, htake]

theorem drop_partitionPoint (h : Partitioned below l) :
    l.drop (partitionPoint below l) = l.filter fun a => !below a := by
  have hdrop : (l.filter below ++ l.filter fun a => !below a).drop (l.filter below).length =
      l.filter fun a => !below a := List.drop_left
  rw [← h.eq_append] at hdrop
  rw [partitionPoint_eq h, hdrop]

/-- **The range has the entries that are neither below nor above.** -/
theorem equalRange_eq (hbelow : Partitioned below l) (habove : Partitioned (fun a => !above a) l)
    (hdisjoint : ∀ a ∈ l, below a = true → above a = false) :
    equalRange below above l = l.filter fun a => !below a && !above a := by
  have hcount : (l.filter below).length =
      ((l.filter fun a => !above a).filter below).length := by
    rw [List.filter_filter]
    congr 1
    refine List.filter_congr fun a ha => ?_
    cases hb : below a with
    | true => rw [hdisjoint a ha hb]; rfl
    | false => rfl
  have hpart : Partitioned below (l.filter fun a => !above a) := hbelow.filter _
  rw [equalRange, take_partitionPoint habove, partitionPoint_eq hbelow, hcount,
    ← partitionPoint_eq hpart, drop_partitionPoint hpart, List.filter_filter]

end Infra
