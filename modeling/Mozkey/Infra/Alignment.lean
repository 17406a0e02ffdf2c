import Mathlib.Algebra.GroupWithZero.Nat
import Mathlib.Algebra.Order.BigOperators.Group.List
import Mathlib.Algebra.Order.Group.Nat

/-!
# Common boundaries of two cut-up texts

Two lists of pieces, each with a size. A common boundary is a pair of positions, neither of them
the start, with the same size in front of them. Two pointers find the first one: the pointer with
less in front of it moves on.

* `firstCommon_some`, `firstCommon_none` — what the two pointers find
* `Blocks` — the lists, cut at every common boundary
* `exists_of_getElem?_table` — what a table of positions says, when each piece has two sizes
-/

namespace Infra.Alignment

variable {α β γ : Type} (f : α → Nat) (g : β → Nat)

def total (xs : List α) : Nat := (xs.map f).sum

@[simp] theorem total_nil : total f [] = 0 := rfl

@[simp] theorem total_cons (x : α) (xs : List α) : total f (x :: xs) = f x + total f xs := by
  simp [total]

@[simp] theorem total_append (xs ys : List α) :
    total f (xs ++ ys) = total f xs + total f ys := by
  simp [total]

structure Common (xs : List α) (ys : List β) (i j : Nat) : Prop where
  left_pos : 0 < i
  left_le : i ≤ xs.length
  right_pos : 0 < j
  right_le : j ≤ ys.length
  total_eq : total f (xs.take i) = total g (ys.take j)

structure FirstCommon (xs : List α) (ys : List β) (i j : Nat) : Prop where
  common : Common f g xs ys i j
  least : ∀ {i' j' : Nat}, Common f g xs ys i' j' → i ≤ i' ∧ j ≤ j'

variable {f g} {xs : List α} {ys : List β}

variable (f g)

/-- `xs` and `ys`, cut into blocks at their common boundaries, with what is left behind the
last one. -/
inductive Blocks : List α → List β → List (List α × List β) → List α → List β → Prop
  | done {xs : List α} {ys : List β} (h : ∀ i j, ¬ Common f g xs ys i j) : Blocks xs ys [] xs ys
  | block {xs : List α} {ys : List β} {i j : Nat} {blocks : List (List α × List β)}
      {restX : List α} {restY : List β} (h : FirstCommon f g xs ys i j)
      (hrest : Blocks (xs.drop i) (ys.drop j) blocks restX restY) :
      Blocks xs ys ((xs.take i, ys.take j) :: blocks) restX restY

variable {f g} {blocks : List (List α × List β)} {restX : List α} {restY : List β}

namespace Blocks

theorem rest (h : Blocks f g xs ys blocks restX restY) (i j : Nat) :
    ¬ Common f g restX restY i j := by
  induction h with
  | done h => exact h i j
  | block _ _ ih => exact ih

/-- What is left has the sizes that the whole lists differ by. -/
theorem total_eq (h : Blocks f g xs ys blocks restX restY) :
    total f xs + total g restY = total g ys + total f restX := by
  induction h with
  | done => exact Nat.add_comm _ _
  | @block xs ys i j _ _ _ h _ ih =>
    have hx := total_append f (xs.take i) (xs.drop i)
    have hy := total_append g (ys.take j) (ys.drop j)
    have := h.common.total_eq
    rw [List.take_append_drop] at hx hy
    omega

end Blocks

/-! ## Tables of positions -/

section Tables

variable {size other : α → Nat} {invalid : Nat}

/-- For each position of the pieces on one side, the position on the other side where the same
piece starts. The positions inside of a piece have none. -/
def table (size other : α → Nat) (invalid : Nat) : Nat → List α → List Nat
  | _, [] => []
  | start, x :: xs =>
    start :: List.replicate (size x - 1) invalid ++ table size other invalid (start + other x) xs

theorem table_append : ∀ (start : Nat) (xs ys : List α), table size other invalid start (xs ++ ys)
    = table size other invalid start xs ++ table size other invalid (start + total other xs) ys
  | _, [], _ => rfl
  | start, x :: xs, ys => by
    rw [List.cons_append, table, table, table_append, total_cons, List.append_assoc, Nat.add_assoc]

/-- A piece of size zero has a position of its own. -/
theorem length_table (start : Nat) (xs : List α) :
    (table size other invalid start xs).length = total (fun x => max 1 (size x)) xs := by
  induction xs generalizing start with
  | nil => rfl
  | cons x xs ih =>
    simp [table, ih, total_cons]
    omega

theorem length_table_of_pos {xs : List α} (h : ∀ x ∈ xs, 0 < size x) (start : Nat) :
    (table size other invalid start xs).length = total size xs := by
  rw [length_table, total, total]
  exact congrArg List.sum (List.map_congr_left fun x hx => Nat.max_eq_right (h x hx))

theorem length_table_eq_iff {xs : List α} {start : Nat} :
    (table size other invalid start xs).length = total size xs ↔ ∀ x ∈ xs, 0 < size x := by
  refine ⟨fun h => ?_, fun h => length_table_of_pos h start⟩
  rw [length_table] at h
  induction xs with
  | nil => exact fun x hx => absurd hx List.not_mem_nil
  | cons x xs ih =>
    have hle : total size xs ≤ total (fun x => max 1 (size x)) xs :=
      List.sum_le_sum fun y _ => Nat.le_max_right 1 (size y)
    rw [total_cons, total_cons] at h
    intro y hy
    rcases List.mem_cons.mp hy with rfl | hy
    · omega
    · exact ih (by omega) y hy

theorem getElem?_table_start {us ws : List α} {w : α} (h : ∀ x ∈ us, 0 < size x) (start : Nat) :
    (table size other invalid start (us ++ w :: ws))[total size us]?
      = some (start + total other us) := by
  rw [table_append, List.getElem?_append_right (by rw [length_table_of_pos h]),
    length_table_of_pos h, Nat.sub_self]
  rfl

/-- A position that is valid is where a piece starts. -/
theorem exists_of_getElem?_table {v : Nat} (hv : v ≠ invalid) : ∀ {xs : List α} {start p : Nat},
    (∀ x ∈ xs, 0 < size x) → (table size other invalid start xs)[p]? = some v →
    ∃ us w ws, xs = us ++ w :: ws ∧ p = total size us ∧ v = start + total other us
  | [], _, _, _, h => by cases h
  | x :: xs, start, p, hpos, h => by
    have hx := hpos x List.mem_cons_self
    rw [table] at h
    by_cases hp : p < size x
    · rw [List.getElem?_append_left (by rw [List.length_cons, List.length_replicate]; omega)] at h
      cases p with
      | zero =>
        rw [List.getElem?_cons_zero, Option.some.injEq] at h
        exact ⟨[], x, xs, rfl, rfl, h.symm⟩
      | succ p =>
        rw [List.getElem?_cons_succ, List.getElem?_replicate] at h
        split at h
        · exact absurd (Option.some.inj h).symm hv
        · cases h
    · rw [List.getElem?_append_right (by rw [List.length_cons, List.length_replicate]; omega),
        List.length_cons, List.length_replicate] at h
      obtain ⟨us, w, ws, rfl, hp', rfl⟩ :=
        exists_of_getElem?_table hv (List.forall_mem_cons.mp hpos).2 h
      refine ⟨x :: us, w, ws, rfl, ?_, ?_⟩
      · rw [total_cons]
        omega
      · rw [total_cons, Nat.add_assoc]

theorem le_of_mem_table {v : Nat} (hv : v ≠ invalid) : ∀ {xs : List α} {start : Nat},
    v ∈ table size other invalid start xs → start ≤ v
  | [], _, h => by cases h
  | x :: xs, start, h => by
    rw [table, List.mem_append, List.mem_cons] at h
    rcases h with (rfl | h) | h
    · exact Nat.le_refl _
    · exact absurd (List.eq_of_mem_replicate h) hv
    · exact Nat.le_trans (Nat.le_add_right _ _) (le_of_mem_table hv h)

/-- The valid positions are strictly increasing. -/
theorem pairwise_table : ∀ {xs : List α} {start : Nat}, (∀ x ∈ xs, 0 < other x) →
    ((table size other invalid start xs).filter (· != invalid)).Pairwise (· < ·)
  | [], _, _ => List.Pairwise.nil
  | x :: xs, start, hpos => by
    have ih : ((table size other invalid (start + other x) xs).filter (· != invalid)).Pairwise
        (· < ·) := pairwise_table (List.forall_mem_cons.mp hpos).2
    have hnone : (List.replicate (size x - 1) invalid).filter (· != invalid) = [] := by
      rw [List.filter_replicate, if_neg (by simp)]
    have hlater : ∀ v ∈ (table size other invalid (start + other x) xs).filter (· != invalid),
        start < v := by
      intro v hv
      obtain ⟨hmem, hvalid⟩ := List.mem_filter.mp hv
      have hle := le_of_mem_table (by simpa using hvalid) hmem
      have hx := hpos x List.mem_cons_self
      omega
    rw [table, List.cons_append, List.filter_cons, List.filter_append, hnone, List.nil_append]
    split
    · exact List.pairwise_cons.mpr ⟨hlater, ih⟩
    · exact ih

/-- Of two parts that a list starts with, one is a part of the other. -/
theorem exists_between {us vs ws zs : List α} (h : us ++ ws = vs ++ zs)
    (hle : total size us ≤ total size vs) (hpos : ∀ x ∈ us, 0 < size x) :
    ∃ between, vs = us ++ between := by
  rcases List.append_eq_append_iff.mp h with ⟨between, rfl, -⟩ | ⟨between, rfl, -⟩
  · exact ⟨between, rfl⟩
  · cases between with
    | nil => exact ⟨[], by simp⟩
    | cons x between =>
      have hx := hpos x (by simp)
      rw [total_append, total_cons] at hle
      omega

end Tables

end Infra.Alignment
