import Mathlib.Logic.Relation
import Mathlib.Data.List.GetD

/-!
# One forward sweep over positions

A row has a mark for each position. The sweep visits the positions from `start` on once, from left
to right, and at a marked one marks the positions that are next. When every next position lies
further to the right, the one sweep finds all that can be reached (`sweep_iff`).
-/

namespace Infra

/-- Marks some positions. The ones behind the end of the row are left out. -/
def markAll (row : List Bool) (positions : List Nat) : List Bool :=
  positions.foldl (fun row q => row.set q true) row

def sweepStep (next : Nat → List Nat) (row : List Bool) (pos : Nat) : List Bool :=
  if row.getD pos false then markAll row (next pos) else row

/-- The marks of the positions up to `size`. -/
def sweep (next : Nat → List Nat) (size start : Nat) : List Bool :=
  (List.range' start (size - start)).foldl (sweepStep next)
    ((List.replicate (size + 1) false).set start true)

/-- The positions that are reached in any number of steps. -/
abbrev Leads (next : Nat → List Nat) : Nat → Nat → Prop :=
  Relation.ReflTransGen fun p q => q ∈ next p

variable {next : Nat → List Nat} {row : List Bool} {size start m p q : Nat}

theorem getD_set_true (hq : q < row.length) :
    (row.set p true).getD q false = true ↔ q = p ∨ row.getD q false = true := by
  rw [List.getD_eq_getElem _ _ (by simpa using hq), List.getD_eq_getElem _ _ hq,
    List.getElem_set]
  by_cases hpq : p = q
  · simp [hpq]
  · simp [hpq, Ne.symm hpq]

@[simp] theorem length_markAll : ∀ (positions : List Nat) (row : List Bool),
    (markAll row positions).length = row.length
  | [], _ => rfl
  | _ :: positions, row => by
    simpa [markAll] using (length_markAll positions _).trans List.length_set

@[simp] theorem length_sweepStep : (sweepStep next row p).length = row.length := by
  unfold sweepStep
  split
  · exact length_markAll _ _
  · rfl

theorem length_sweep : (sweep next size start).length = size + 1 := by
  have hrun : ∀ (positions : List Nat) (row : List Bool),
      (positions.foldl (sweepStep next) row).length = row.length := by
    intro positions
    induction positions with
    | nil => exact fun _ => rfl
    | cons p positions ih => exact fun row => (ih _).trans length_sweepStep
  rw [sweep, hrun]
  simp

theorem getD_markAll : ∀ {positions : List Nat} {row : List Bool}, q < row.length →
    ((markAll row positions).getD q false = true ↔ q ∈ positions ∨ row.getD q false = true)
  | [], _, _ => by simp [markAll]
  | p :: positions, row, hq => by
    have hset : q < (row.set p true).length := by simpa using hq
    rw [markAll, List.foldl_cons, ← markAll, getD_markAll hset, getD_set_true hq, List.mem_cons,
      or_left_comm, or_assoc]

/-- What the row says once the positions before `m` have been visited. -/
structure Swept (next : Nat → List Nat) (size start m : Nat) (row : List Bool) : Prop where
  length_eq : row.length = size + 1
  marked_iff : ∀ q ≤ size, row.getD q false = true ↔
    q = start ∨ ∃ p < m, Leads next start p ∧ q ∈ next p

theorem leads_iff : Leads next start q ↔ q = start ∨ ∃ p, Leads next start p ∧ q ∈ next p := by
  rw [Leads, Relation.ReflTransGen.cases_tail_iff]

theorem le_of_leads (hnext : ∀ p, ∀ q ∈ next p, p < q) (h : Leads next start q) : start ≤ q := by
  induction h with
  | refl => exact Nat.le_refl _
  | tail _ hq ih => exact Nat.le_trans ih (Nat.le_of_lt (hnext _ _ hq))

theorem swept_start (hnext : ∀ p, ∀ q ∈ next p, p < q) :
    Swept next size start start ((List.replicate (size + 1) false).set start true) where
  length_eq := by simp
  marked_iff q hq := by
    rw [getD_set_true (by simpa using Nat.lt_succ_of_le hq)]
    constructor
    · rintro (h | h)
      · exact .inl h
      · simp at h
    · rintro (h | ⟨p, hp, hlead, _⟩)
      · exact .inl h
      · exact absurd (le_of_leads hnext hlead) (Nat.not_le_of_lt hp)

/-- **A visit to `m` is complete**: whatever leads to `m` has been visited before. -/
theorem Swept.step (hnext : ∀ p, ∀ q ∈ next p, p < q) (hm : m ≤ size)
    (h : Swept next size start m row) : Swept next size start (m + 1) (sweepStep next row m) := by
  have hreached : row.getD m false = true ↔ Leads next start m := by
    rw [h.marked_iff m hm, leads_iff]
    constructor
    · rintro (heq | ⟨p, _, hp⟩)
      · exact .inl heq
      · exact .inr ⟨p, hp⟩
    · rintro (heq | ⟨p, hp⟩)
      · exact .inl heq
      · exact .inr ⟨p, hnext _ _ hp.2, hp⟩
  unfold sweepStep
  split
  · next hmark =>
    refine ⟨by rw [length_markAll, h.length_eq], fun q hq => ?_⟩
    have hlt : q < row.length := by rw [h.length_eq]; omega
    rw [getD_markAll hlt, h.marked_iff q hq]
    constructor
    · rintro (hmem | heq | ⟨p, hp, hlead⟩)
      · exact .inr ⟨m, Nat.lt_succ_self m, hreached.mp hmark, hmem⟩
      · exact .inl heq
      · exact .inr ⟨p, Nat.lt_succ_of_lt hp, hlead⟩
    · rintro (heq | ⟨p, hp, hlead⟩)
      · exact .inr (.inl heq)
      · rcases Nat.lt_succ_iff_lt_or_eq.mp hp with hp | rfl
        · exact .inr (.inr ⟨p, hp, hlead⟩)
        · exact .inl hlead.2
  · next hmark =>
    refine ⟨h.length_eq, fun q hq => ?_⟩
    rw [h.marked_iff q hq]
    constructor
    · rintro (heq | ⟨p, hp, hlead⟩)
      · exact .inl heq
      · exact .inr ⟨p, Nat.lt_succ_of_lt hp, hlead⟩
    · rintro (heq | ⟨p, hp, hlead⟩)
      · exact .inl heq
      · rcases Nat.lt_succ_iff_lt_or_eq.mp hp with hp | rfl
        · exact .inr ⟨p, hp, hlead⟩
        · exact absurd (hreached.mpr hlead.1) hmark

theorem Swept.run (hnext : ∀ p, ∀ q ∈ next p, p < q) : ∀ (n : Nat) {m : Nat} {row : List Bool},
    m + n ≤ size + 1 → Swept next size start m row →
    Swept next size start (m + n) ((List.range' m n).foldl (sweepStep next) row)
  | 0, _, _, _, h => h
  | n + 1, m, _, hle, h => by
    rw [List.range'_succ, List.foldl_cons, Nat.add_comm n 1, ← Nat.add_assoc]
    exact Swept.run hnext n (by omega) (h.step hnext (by omega))

/-- **The sweep marks exactly what can be reached.** -/
theorem sweep_iff (hnext : ∀ p, ∀ q ∈ next p, p < q) (hstart : start ≤ size) (hq : q ≤ size) :
    (sweep next size start).getD q false = true ↔ Leads next start q := by
  have hswept : Swept next size start (start + (size - start)) (sweep next size start) :=
    (swept_start hnext).run hnext (size - start) (by omega)
  rw [hswept.marked_iff q hq, leads_iff]
  constructor
  · rintro (heq | ⟨p, _, hp⟩)
    · exact .inl heq
    · exact .inr ⟨p, hp⟩
  · rintro (heq | ⟨p, hp⟩)
    · exact .inl heq
    · have hlt := hnext _ _ hp.2
      exact .inr ⟨p, by omega, hp⟩

end Infra
