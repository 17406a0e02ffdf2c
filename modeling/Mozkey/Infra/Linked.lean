import Mathlib.Data.List.Nodup

/-!
# Intrusive lists

The nodes of a list hold pointers to their neighbours. `Linked next prev l` says that the
pointers of the nodes of `l` are those of a doubly linked list with these nodes in this order:
no more is said about `next` and `prev`, so the other nodes may be on other lists. `Chained`
is the same for a list with forward pointers only.

## Rules

* `Linked.congr` — only the pointers of the nodes on the list matter
* `Linked.unlink` — a node is bridged by its neighbours
* `Linked.push` — a node is put before the first one
-/

namespace Infra

variable {α : Type} {next prev next' prev' : α → Option α} {l l₁ l₂ : List α} {a : α}

/-- Every node points to the node before it and to the node after it. -/
def Linked (next prev : α → Option α) (l : List α) : Prop :=
  ∀ l₁ a l₂, l = l₁ ++ a :: l₂ → prev a = l₁.getLast? ∧ next a = l₂.head?

/-- Every node points to the node after it. -/
def Chained (next : α → Option α) (l : List α) : Prop :=
  ∀ l₁ a l₂, l = l₁ ++ a :: l₂ → next a = l₂.head?

/-- The first `n` nodes from `p` on. -/
def follow (next : α → Option α) : Nat → Option α → List α
  | 0, _ => []
  | _ + 1, none => []
  | n + 1, some a => a :: follow next n (next a)

theorem linked_nil : Linked next prev [] := by
  intro l₁ a l₂ h
  simp at h

theorem chained_nil : Chained next [] := by
  intro l₁ a l₂ h
  simp at h

theorem Linked.prev_eq (h : Linked next prev (l₁ ++ a :: l₂)) : prev a = l₁.getLast? :=
  (h l₁ a l₂ rfl).1

theorem Linked.next_eq (h : Linked next prev (l₁ ++ a :: l₂)) : next a = l₂.head? :=
  (h l₁ a l₂ rfl).2

theorem Linked.congr (h : Linked next prev l) (hn : ∀ b ∈ l, next' b = next b)
    (hp : ∀ b ∈ l, prev' b = prev b) : Linked next' prev' l := by
  intro l₁ a l₂ hl
  have ha : a ∈ l := by simp [hl]
  rw [hn a ha, hp a ha]
  exact h l₁ a l₂ hl

theorem Chained.congr (h : Chained next l) (hn : ∀ b ∈ l, next' b = next b) :
    Chained next' l := by
  intro l₁ a l₂ hl
  rw [hn a (by simp [hl])]
  exact h l₁ a l₂ hl

/-! ## At the front -/

theorem chained_cons : Chained next (a :: l) ↔ next a = l.head? ∧ Chained next l := by
  constructor
  · intro h
    refine ⟨h [] a l rfl, fun l₁ b l₂ hl => h (a :: l₁) b l₂ (by simp [hl])⟩
  · rintro ⟨ha, h⟩ l₁ b l₂ hl
    cases l₁ with
    | nil =>
      obtain ⟨rfl, rfl⟩ : a = b ∧ l = l₂ := by simpa using hl
      exact ha
    | cons c l₁ =>
      obtain ⟨rfl, rfl⟩ : a = c ∧ l = l₁ ++ b :: l₂ := by simpa using hl
      exact h l₁ b l₂ rfl

/-- **Following the pointers goes through the list.** -/
theorem Chained.follow_eq : ∀ {n : Nat} {l : List α}, Chained next l → l.length ≤ n →
    follow next n l.head? = l
  | 0, [], _, _ => rfl
  | _ + 1, [], _, _ => rfl
  | n + 1, a :: l, h, hn => by
    obtain ⟨ha, hl⟩ := chained_cons.mp h
    rw [List.head?_cons, follow, ha, hl.follow_eq (by simpa using hn)]

theorem Linked.chained (h : Linked next prev l) : Chained next l :=
  fun l₁ a l₂ hl => (h l₁ a l₂ hl).2

/-- **A node is put before the first one, which points back to it.** -/
theorem Linked.push [DecidableEq α] (h : Linked next prev l) (ha : a ∉ l) (hnd : l.Nodup)
    (hna : next' a = l.head?) (hpa : prev' a = none) (hn : ∀ b ∈ l, next' b = next b)
    (hp : ∀ b ∈ l, prev' b = if l.head? = some b then some a else prev b) :
    Linked next' prev' (a :: l) := by
  intro l₁ b l₂ hl
  cases l₁ with
  | nil =>
    obtain ⟨rfl, rfl⟩ : a = b ∧ l = l₂ := by simpa using hl
    exact ⟨hpa, hna⟩
  | cons c l₁ =>
    obtain ⟨rfl, rfl⟩ : a = c ∧ l = l₁ ++ b :: l₂ := by simpa using hl
    rw [hn b (by simp), hp b (by simp), h.next_eq, h.prev_eq]
    refine ⟨?_, rfl⟩
    cases l₁ with
    | nil => simp
    | cons d l₁ =>
      -- the first node is not met again
      have hd : d ≠ b := by
        rintro rfl
        simp at hnd
      simp [hd]

/-! ## Anywhere -/

/-- **The neighbours of a node are linked to each other**, the way its own pointers say. -/
theorem Linked.unlink [DecidableEq α] (h : Linked next prev (l₁ ++ a :: l₂))
    (hnd : (l₁ ++ a :: l₂).Nodup)
    (hn : ∀ b, b ≠ a → next' b = if prev a = some b then next a else next b)
    (hp : ∀ b, b ≠ a → prev' b = if next a = some b then prev a else prev b) :
    Linked next' prev' (l₁ ++ l₂) := by
  have hpa := h.prev_eq
  have hna := h.next_eq
  intro m₁ b m₂ hm
  have hba : b ≠ a := by
    have hb : b ∈ l₁ ++ l₂ := by simp [hm]
    rintro rfl
    simp only [List.nodup_append, List.nodup_cons, List.mem_cons, List.mem_append] at hnd hb
    rcases hb with hb | hb
    · exact hnd.2.2 b hb b (.inl rfl) rfl
    · exact hnd.2.1.1 hb
  rw [hn b hba, hp b hba, hpa, hna]
  rcases List.append_eq_append_iff.mp hm with ⟨c, rfl, hc⟩ | ⟨c, rfl, hc⟩
  · -- the node is behind the gap
    subst hc
    obtain ⟨hpb, hnb⟩ := h (l₁ ++ a :: c) b m₂ (by simp)
    have hb : b ∉ l₁ := by
      intro hb
      have := (List.nodup_append.mp hnd).2.2 b hb b (by simp)
      exact this rfl
    have hlast : l₁.getLast? ≠ some b := fun hl => hb (List.mem_of_getLast? hl)
    rw [if_neg hlast, hpb, hnb]
    cases c with
    | nil => simp
    | cons d c =>
      have hd : d ≠ b := by
        rintro rfl
        simp [List.nodup_append] at hnd
      simp [hd]
  · cases c with
    | nil =>
      -- the node is the first one behind the gap
      obtain rfl : l₂ = b :: m₂ := by simpa using hc.symm
      obtain ⟨hpb, hnb⟩ := h (m₁ ++ [a]) b m₂ (by simp)
      have hb : b ∉ m₁ := by
        intro hb
        have := (List.nodup_append.mp hnd).2.2 b (by simp [hb]) b (by simp)
        exact this rfl
      have hlast : (m₁ ++ []).getLast? ≠ some b := fun hl => hb (by
        simpa using List.mem_of_getLast? hl)
      rw [if_neg hlast, hnb]
      simp
    | cons d c =>
      -- the node is before the gap
      obtain ⟨rfl, rfl⟩ : b = d ∧ m₂ = c ++ l₂ := by simpa using hc
      obtain ⟨hpb, hnb⟩ := h m₁ b (c ++ a :: l₂) (by simp)
      have hb : b ∉ l₂ := by
        intro hb
        have := (List.nodup_append.mp hnd).2.2 b (by simp) b (by simp [hb])
        exact this rfl
      have hhead : l₂.head? ≠ some b := fun hl => hb (List.mem_of_head? hl)
      rw [if_neg hhead, hpb, hnb]
      cases c with
      | nil => simp
      | cons e c =>
        have hlast : (m₁ ++ b :: e :: c).getLast? ≠ some b := by
          intro hl
          rw [List.getLast?_append] at hl
          have hmem : b ∈ e :: c := by
            refine List.mem_of_getLast? ?_
            simpa [List.getLast?_cons_cons] using hl
          simp only [List.nodup_append, List.nodup_cons] at hnd
          exact hnd.1.2.1.1 hmem
        rw [if_neg hlast]
        simp

end Infra
