import Mathlib.Data.List.Basic

/-!
# Edit distance

An edit script reads two lists at the same time: it deletes an element of the first, inserts one of
the second, or pairs two, which costs nothing when they are equal. The distance is what the
cheapest script costs (`editDistance_le_cost`, `exists_optimal`).

A script passes through the pair `(i, j)` when it has read exactly `i` and `j` elements at
some point. It is then a script of the fronts and one of the rests, so an optimal one passes
only through pairs where the two distances add up (`optimal_passes_iff`).
-/

namespace Infra

variable {α : Type} [DecidableEq α] {s s' t t' u : List α}

/-! ## The distance -/

def editDistance : List α → List α → Nat
  | [], t => t.length
  | a :: s, [] => (a :: s).length
  | a :: s, b :: t =>
    min (min (editDistance s (b :: t) + 1) (editDistance (a :: s) t + 1))
      (editDistance s t + if a = b then 0 else 1)
termination_by s t => s.length + t.length

@[simp] theorem editDistance_nil_left (t : List α) : editDistance [] t = t.length := by
  rw [editDistance]

@[simp] theorem editDistance_nil_right : ∀ s : List α, editDistance s [] = s.length
  | [] => by rw [editDistance_nil_left]
  | a :: s => by rw [editDistance]

theorem editDistance_cons (a b : α) (s t : List α) :
    editDistance (a :: s) (b :: t) =
      min (min (editDistance s (b :: t) + 1) (editDistance (a :: s) t + 1))
        (editDistance s t + if a = b then 0 else 1) := by
  rw [editDistance]

/-! ## Edit scripts -/

inductive EditScript : List α → List α → Type
  | nil : EditScript [] []
  | delete (a : α) {s t : List α} (rest : EditScript s t) : EditScript (a :: s) t
  | insert (b : α) {s t : List α} (rest : EditScript s t) : EditScript s (b :: t)
  | pair (a b : α) {s t : List α} (rest : EditScript s t) : EditScript (a :: s) (b :: t)

namespace EditScript

def cost : ∀ {s t : List α}, EditScript s t → Nat
  | _, _, .nil => 0
  | _, _, .delete _ rest => rest.cost + 1
  | _, _, .insert _ rest => rest.cost + 1
  | _, _, .pair a b rest => rest.cost + if a = b then 0 else 1

/-- `i` and `j` elements are read at the same time. -/
def Passes : ∀ {s t : List α}, EditScript s t → Nat → Nat → Prop
  | _, _, .nil, i, j => i = 0 ∧ j = 0
  | _, _, .delete _ rest, i, j => i = 0 ∧ j = 0 ∨ ∃ i', i = i' + 1 ∧ rest.Passes i' j
  | _, _, .insert _ rest, i, j => i = 0 ∧ j = 0 ∨ ∃ j', j = j' + 1 ∧ rest.Passes i j'
  | _, _, .pair _ _ rest, i, j =>
    i = 0 ∧ j = 0 ∨ ∃ i' j', i = i' + 1 ∧ j = j' + 1 ∧ rest.Passes i' j'

def append : ∀ {s t s' t' : List α}, EditScript s t → EditScript s' t' →
    EditScript (s ++ s') (t ++ t')
  | _, _, _, _, .nil, more => more
  | _, _, _, _, .delete a rest, more => .delete a (rest.append more)
  | _, _, _, _, .insert b rest, more => .insert b (rest.append more)
  | _, _, _, _, .pair a b rest, more => .pair a b (rest.append more)

@[simp] theorem cost_append (A : EditScript s t) (B : EditScript s' t') :
    (A.append B).cost = A.cost + B.cost := by
  induction A with
  | nil => simp [append, cost]
  | delete a rest ih => simp only [append, cost, ih]; omega
  | insert b rest ih => simp only [append, cost, ih]; omega
  | pair a b rest ih => simp only [append, cost, ih]; omega

theorem passes_zero (A : EditScript s t) : A.Passes 0 0 := by
  cases A with
  | nil => exact ⟨rfl, rfl⟩
  | delete a rest => exact Or.inl ⟨rfl, rfl⟩
  | insert b rest => exact Or.inl ⟨rfl, rfl⟩
  | pair a b rest => exact Or.inl ⟨rfl, rfl⟩

/-- A script that was put together passes through the seam. -/
theorem passes_append (A : EditScript s t) (B : EditScript s' t') :
    (A.append B).Passes s.length t.length := by
  induction A with
  | nil => exact B.passes_zero
  | delete a rest ih => exact Or.inr ⟨_, rfl, ih⟩
  | insert b rest ih => exact Or.inr ⟨_, rfl, ih⟩
  | pair a b rest ih => exact Or.inr ⟨_, _, rfl, rfl, ih⟩

theorem passes_le (A : EditScript s t) {i j : Nat} (h : A.Passes i j) :
    i ≤ s.length ∧ j ≤ t.length := by
  induction A generalizing i j with
  | nil => exact ⟨Nat.le_of_eq h.1, Nat.le_of_eq h.2⟩
  | delete a rest ih =>
    rcases h with ⟨rfl, rfl⟩ | ⟨i', rfl, h⟩
    · exact ⟨Nat.zero_le _, Nat.zero_le _⟩
    · exact ⟨Nat.succ_le_succ (ih h).1, (ih h).2⟩
  | insert b rest ih =>
    rcases h with ⟨rfl, rfl⟩ | ⟨j', rfl, h⟩
    · exact ⟨Nat.zero_le _, Nat.zero_le _⟩
    · exact ⟨(ih h).1, Nat.succ_le_succ (ih h).2⟩
  | pair a b rest ih =>
    rcases h with ⟨rfl, rfl⟩ | ⟨i', j', rfl, rfl, h⟩
    · exact ⟨Nat.zero_le _, Nat.zero_le _⟩
    · exact ⟨Nat.succ_le_succ (ih h).1, Nat.succ_le_succ (ih h).2⟩

/-- A script is a script of the fronts and one of the rests. -/
theorem split_of_passes (A : EditScript s t) {i j : Nat} (h : A.Passes i j) :
    ∃ (B : EditScript (s.take i) (t.take j)) (C : EditScript (s.drop i) (t.drop j)),
      B.cost + C.cost = A.cost := by
  induction A generalizing i j with
  | nil =>
    obtain ⟨rfl, rfl⟩ := h
    exact ⟨.nil, .nil, rfl⟩
  | delete a rest ih =>
    rcases h with ⟨rfl, rfl⟩ | ⟨i', rfl, h⟩
    · exact ⟨.nil, .delete a rest, Nat.zero_add _⟩
    · obtain ⟨B, C, hcost⟩ := ih h
      refine ⟨.delete a B, C, ?_⟩
      show B.cost + 1 + C.cost = rest.cost + 1
      omega
  | insert b rest ih =>
    rcases h with ⟨rfl, rfl⟩ | ⟨j', rfl, h⟩
    · exact ⟨.nil, .insert b rest, Nat.zero_add _⟩
    · obtain ⟨B, C, hcost⟩ := ih h
      refine ⟨.insert b B, C, ?_⟩
      show B.cost + 1 + C.cost = rest.cost + 1
      omega
  | pair a b rest ih =>
    rcases h with ⟨rfl, rfl⟩ | ⟨i', j', rfl, rfl, h⟩
    · exact ⟨.nil, .pair a b rest, Nat.zero_add _⟩
    · obtain ⟨B, C, hcost⟩ := ih h
      refine ⟨.pair a b B, C, ?_⟩
      show B.cost + (if a = b then 0 else 1) + C.cost = rest.cost + if a = b then 0 else 1
      omega

/-- The same steps from the end. -/
theorem exists_reverse (A : EditScript s t) :
    ∃ B : EditScript s.reverse t.reverse, B.cost = A.cost := by
  induction A with
  | nil => exact ⟨.nil, rfl⟩
  | @delete a s t rest ih =>
    obtain ⟨B, hB⟩ := ih
    have hone : ∃ B : EditScript (s.reverse ++ [a]) (t.reverse ++ []), B.cost = rest.cost + 1 :=
      ⟨B.append (.delete a .nil), by rw [cost_append, hB]; rfl⟩
    rwa [List.append_nil, ← List.reverse_cons] at hone
  | @insert b s t rest ih =>
    obtain ⟨B, hB⟩ := ih
    have hone : ∃ B : EditScript (s.reverse ++ []) (t.reverse ++ [b]), B.cost = rest.cost + 1 :=
      ⟨B.append (.insert b .nil), by rw [cost_append, hB]; rfl⟩
    rwa [List.append_nil, ← List.reverse_cons] at hone
  | pair a b rest ih =>
    obtain ⟨B, hB⟩ := ih
    rw [List.reverse_cons, List.reverse_cons]
    exact ⟨B.append (.pair a b .nil), by rw [cost_append, hB]; simp [cost]⟩

/-- Two scripts one after the other, in one go. -/
theorem exists_trans (A : EditScript s t) : ∀ {u : List α} (B : EditScript t u),
    ∃ C : EditScript s u, C.cost ≤ A.cost + B.cost := by
  induction A with
  | nil => exact fun B => ⟨B, Nat.le_add_left _ _⟩
  | delete a rest ih =>
    intro u B
    obtain ⟨C, hC⟩ := ih B
    refine ⟨.delete a C, ?_⟩
    show C.cost + 1 ≤ rest.cost + 1 + B.cost
    omega
  | @insert b s t rest ih =>
    -- what becomes of the inserted element
    have hnext : ∀ {t' u : List α} (B : EditScript t' u), t' = b :: t →
        ∃ C : EditScript s u, C.cost ≤ rest.cost + 1 + B.cost := by
      intro t' u B
      induction B with
      | nil => exact fun ht => by cases ht
      | delete b' more _ =>
        intro ht
        cases ht
        obtain ⟨C, hC⟩ := ih more
        refine ⟨C, ?_⟩
        show C.cost ≤ rest.cost + 1 + (more.cost + 1)
        omega
      | insert c more ih' =>
        intro ht
        obtain ⟨C, hC⟩ := ih' ht
        refine ⟨.insert c C, ?_⟩
        show C.cost + 1 ≤ rest.cost + 1 + (more.cost + 1)
        omega
      | pair b' c more _ =>
        intro ht
        obtain ⟨rfl, rfl⟩ := List.cons.inj ht
        obtain ⟨C, hC⟩ := ih more
        refine ⟨.insert c C, ?_⟩
        show C.cost + 1 ≤ rest.cost + 1 + (more.cost + if b' = c then 0 else 1)
        omega
    exact fun {_} B => hnext B rfl
  | @pair a b s t rest ih =>
    have hnext : ∀ {t' u : List α} (B : EditScript t' u), t' = b :: t →
        ∃ C : EditScript (a :: s) u, C.cost ≤ rest.cost + (if a = b then 0 else 1) + B.cost := by
      intro t' u B
      induction B with
      | nil => exact fun ht => by cases ht
      | delete b' more _ =>
        intro ht
        obtain ⟨rfl, rfl⟩ := List.cons.inj ht
        obtain ⟨C, hC⟩ := ih more
        refine ⟨.delete a C, ?_⟩
        show C.cost + 1 ≤ rest.cost + (if a = b' then 0 else 1) + (more.cost + 1)
        omega
      | insert c more ih' =>
        intro ht
        obtain ⟨C, hC⟩ := ih' ht
        refine ⟨.insert c C, ?_⟩
        show C.cost + 1 ≤ rest.cost + (if a = b then 0 else 1) + (more.cost + 1)
        omega
      | pair b' c more _ =>
        intro ht
        obtain ⟨rfl, rfl⟩ := List.cons.inj ht
        obtain ⟨C, hC⟩ := ih more
        refine ⟨.pair a c C, ?_⟩
        have htri : (if a = c then 0 else 1) ≤
            (if a = b' then 0 else 1) + if b' = c then 0 else 1 := by
          by_cases hab : a = b'
          · subst hab
            simp
          · rw [if_neg hab]
            split <;> omega
        show C.cost + (if a = c then 0 else 1) ≤
          rest.cost + (if a = b' then 0 else 1) + (more.cost + if b' = c then 0 else 1)
        omega
    exact fun {_} B => hnext B rfl

end EditScript

/-! ## The cheapest script -/

theorem editDistance_delete_le (a : α) (s t : List α) :
    editDistance (a :: s) t ≤ editDistance s t + 1 := by
  cases t with
  | nil => simp
  | cons b t =>
    rw [editDistance_cons]
    omega

theorem editDistance_insert_le (b : α) (s t : List α) :
    editDistance s (b :: t) ≤ editDistance s t + 1 := by
  cases s with
  | nil => simp
  | cons a s =>
    rw [editDistance_cons]
    omega

theorem editDistance_le_cost (A : EditScript s t) : editDistance s t ≤ A.cost := by
  induction A with
  | nil => simp [EditScript.cost]
  | @delete a s t rest ih => exact Nat.le_trans (editDistance_delete_le a s t) (Nat.succ_le_succ ih)
  | @insert b s t rest ih => exact Nat.le_trans (editDistance_insert_le b s t) (Nat.succ_le_succ ih)
  | pair a b rest ih =>
    rw [editDistance_cons, EditScript.cost]
    omega

theorem exists_optimal (s t : List α) : ∃ A : EditScript s t, A.cost = editDistance s t := by
  induction s, t using editDistance.induct with
  | case1 t =>
    induction t with
    | nil => exact ⟨.nil, by simp [EditScript.cost]⟩
    | cons b t ih =>
      obtain ⟨A, hA⟩ := ih
      exact ⟨.insert b A, by simp [EditScript.cost, hA]⟩
  | case2 a s =>
    have hall : ∀ s : List α, ∃ A : EditScript s [], A.cost = s.length := by
      intro s
      induction s with
      | nil => exact ⟨.nil, rfl⟩
      | cons a s ih =>
        obtain ⟨A, hA⟩ := ih
        exact ⟨.delete a A, by rw [EditScript.cost, hA]; rfl⟩
    obtain ⟨A, hA⟩ := hall (a :: s)
    exact ⟨A, by rw [hA, editDistance_nil_right]⟩
  | case3 a s b t ih₁ ih₂ ih₃ =>
    obtain ⟨A, hA⟩ := ih₁
    obtain ⟨B, hB⟩ := ih₂
    obtain ⟨C, hC⟩ := ih₃
    rw [editDistance_cons, ← hA, ← hB, ← hC]
    -- the least of the three
    rcases Nat.le_total (A.cost + 1) (B.cost + 1) with hab | hab
    · rcases Nat.le_total (A.cost + 1) (C.cost + if a = b then 0 else 1) with hac | hac
      · exact ⟨.delete a A, by rw [Nat.min_eq_left hab, Nat.min_eq_left hac]; rfl⟩
      · exact ⟨.pair a b C, by rw [Nat.min_eq_left hab, Nat.min_eq_right hac]; rfl⟩
    · rcases Nat.le_total (B.cost + 1) (C.cost + if a = b then 0 else 1) with hbc | hbc
      · exact ⟨.insert b B, by rw [Nat.min_eq_right hab, Nat.min_eq_left hbc]; rfl⟩
      · exact ⟨.pair a b C, by rw [Nat.min_eq_right hab, Nat.min_eq_right hbc]; rfl⟩

/-! ## Laws of the distance -/

theorem editDistance_append_le (s t s' t' : List α) :
    editDistance (s ++ s') (t ++ t') ≤ editDistance s t + editDistance s' t' := by
  obtain ⟨A, hA⟩ := exists_optimal s t
  obtain ⟨B, hB⟩ := exists_optimal s' t'
  rw [← hA, ← hB, ← EditScript.cost_append]
  exact editDistance_le_cost _

theorem editDistance_triangle (s t u : List α) :
    editDistance s u ≤ editDistance s t + editDistance t u := by
  obtain ⟨A, hA⟩ := exists_optimal s t
  obtain ⟨B, hB⟩ := exists_optimal t u
  obtain ⟨C, hC⟩ := A.exists_trans B
  rw [← hA, ← hB]
  exact Nat.le_trans (editDistance_le_cost C) hC

theorem editDistance_reverse_le (s t : List α) :
    editDistance s.reverse t.reverse ≤ editDistance s t := by
  obtain ⟨A, hA⟩ := exists_optimal s t
  obtain ⟨B, hB⟩ := A.exists_reverse
  rw [← hA, ← hB]
  exact editDistance_le_cost B

theorem editDistance_reverse (s t : List α) :
    editDistance s.reverse t.reverse = editDistance s t := by
  have hback := editDistance_reverse_le s.reverse t.reverse
  rw [List.reverse_reverse, List.reverse_reverse] at hback
  exact Nat.le_antisymm (editDistance_reverse_le s t) hback

/-- The recursion from the end. -/
theorem editDistance_concat (a b : α) (s t : List α) :
    editDistance (s ++ [a]) (t ++ [b]) =
      min (min (editDistance s (t ++ [b]) + 1) (editDistance (s ++ [a]) t + 1))
        (editDistance s t + if a = b then 0 else 1) := by
  have hcons := editDistance_cons a b s.reverse t.reverse
  rw [← List.reverse_concat, ← List.reverse_concat, editDistance_reverse, editDistance_reverse,
    editDistance_reverse, editDistance_reverse] at hcons
  exact hcons

theorem editDistance_self (s : List α) : editDistance s s = 0 := by
  induction s with
  | nil => simp
  | cons a s ih =>
    rw [editDistance_cons, ih, if_pos rfl]
    omega

/-- Element by element, when the lists have the same length. -/
theorem editDistance_le_mismatches : ∀ {s t : List α}, s.length = t.length →
    editDistance s t ≤ (s.zip t).countP fun p => p.1 != p.2
  | [], [], _ => by simp
  | a :: s, b :: t, h => by
    have ih := editDistance_le_mismatches (Nat.succ.inj h)
    rw [editDistance_cons, List.zip_cons_cons, List.countP_cons]
    by_cases hab : a = b
    · rw [if_pos hab, if_neg (by simpa using hab)]
      omega
    · rw [if_neg hab, if_pos (by simpa using hab)]
      omega

/-- **An optimal script passes only where the distances add up, and some optimal one passes
there.** -/
theorem optimal_passes_iff {s t : List α} {i j : Nat} (hi : i ≤ s.length) (hj : j ≤ t.length) :
    (∃ A : EditScript s t, A.cost = editDistance s t ∧ A.Passes i j) ↔
      editDistance (s.take i) (t.take j) + editDistance (s.drop i) (t.drop j)
        = editDistance s t := by
  have hle := editDistance_append_le (s.take i) (t.take j) (s.drop i) (t.drop j)
  rw [List.take_append_drop, List.take_append_drop] at hle
  constructor
  · rintro ⟨A, hA, hpass⟩
    obtain ⟨B, C, hcost⟩ := A.split_of_passes hpass
    have hB := editDistance_le_cost B
    have hC := editDistance_le_cost C
    omega
  · intro heq
    obtain ⟨B, hB⟩ := exists_optimal (s.take i) (t.take j)
    obtain ⟨C, hC⟩ := exists_optimal (s.drop i) (t.drop j)
    have hjoined : ∀ s' t', s' = s → t' = t → (∃ A : EditScript s' t',
        A.cost = editDistance s t ∧ A.Passes i j) →
        ∃ A : EditScript s t, A.cost = editDistance s t ∧ A.Passes i j := by
      rintro _ _ rfl rfl h
      exact h
    have hpass := B.passes_append C
    rw [List.length_take, List.length_take, Nat.min_eq_left hi, Nat.min_eq_left hj] at hpass
    exact hjoined _ _ (List.take_append_drop i s) (List.take_append_drop j t)
      ⟨B.append C, by rw [EditScript.cost_append, hB, hC, heq], hpass⟩

end Infra
