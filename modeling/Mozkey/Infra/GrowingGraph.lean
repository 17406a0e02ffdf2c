import Mathlib.Data.List.Induction
import Mathlib.Logic.Relation

/-!
# Graphs that grow round by round

A round sets edges from one node to some others. The graph of all rounds has a cycle just when a
round set an edge to a node from which the rounds before led back (`acyclic_iff`).
-/

namespace Infra

variable {α : Type} {rounds before : List (α × List α)} {round : α × List α} {a b : α}

/-- One of the rounds set this edge. -/
def Edge (rounds : List (α × List α)) (a b : α) : Prop :=
  ∃ targets, (a, targets) ∈ rounds ∧ b ∈ targets

/-- No round sets an edge to a node that leads to its source by the rounds before. -/
def NeverLeadsBack (rounds : List (α × List α)) : Prop :=
  ∀ before round after, rounds = before ++ round :: after →
    ∀ b ∈ round.2, ¬Relation.ReflTransGen (Edge before) b round.1

theorem edge_append {rounds' : List (α × List α)} :
    Edge (rounds ++ rounds') a b ↔ Edge rounds a b ∨ Edge rounds' a b := by
  simp [Edge, or_and_right, exists_or]

theorem edge_singleton : Edge [round] a b ↔ a = round.1 ∧ b ∈ round.2 := by
  obtain ⟨source, targets⟩ := round
  simp [Edge]

theorem NeverLeadsBack.of_append (h : NeverLeadsBack (rounds ++ [round])) :
    NeverLeadsBack rounds := by
  rintro before round' after rfl
  exact h before round' (after ++ [round]) (by simp)

/-- A path that takes an edge of the last round comes to the source of it first. -/
theorem path_append (hback : ∀ b ∈ round.2, ¬Relation.ReflTransGen (Edge rounds) b round.1)
    (h : Relation.TransGen (Edge (rounds ++ [round])) a b) :
    Relation.TransGen (Edge rounds) a b ∨
      Relation.ReflTransGen (Edge rounds) a round.1 ∧
        ∃ c ∈ round.2, Relation.ReflTransGen (Edge rounds) c b := by
  induction h with
  | single hedge =>
    rw [edge_append, edge_singleton] at hedge
    rcases hedge with hedge | ⟨rfl, hb⟩
    · exact .inl (.single hedge)
    · exact .inr ⟨.refl, _, hb, .refl⟩
  | tail _ hedge ih =>
    rw [edge_append, edge_singleton] at hedge
    rcases hedge with hedge | ⟨rfl, hb⟩
    · rcases ih with hpath | ⟨hsource, c, hc, hpath⟩
      · exact .inl (hpath.tail hedge)
      · exact .inr ⟨hsource, c, hc, hpath.tail hedge⟩
    · rcases ih with hpath | ⟨_, c, hc, hpath⟩
      · exact .inr ⟨hpath.to_reflTransGen, _, hb, .refl⟩
      · exact absurd hpath (hback c hc)

theorem acyclic_of_neverLeadsBack (h : NeverLeadsBack rounds) :
    ∀ a, ¬Relation.TransGen (Edge rounds) a a := by
  induction rounds using List.reverseRecOn with
  | nil =>
    intro a hpath
    obtain ⟨_, ⟨_, hmem, _⟩, _⟩ := Relation.TransGen.head'_iff.mp hpath
    cases hmem
  | append_singleton rounds round ih =>
    intro a hpath
    have hback := h rounds round [] rfl
    rcases path_append hback hpath with hpath | ⟨hsource, c, hc, hpath⟩
    · exact ih h.of_append a hpath
    · exact hback c hc (hpath.trans hsource)

theorem acyclic_iff : (∀ a, ¬Relation.TransGen (Edge rounds) a a) ↔ NeverLeadsBack rounds := by
  refine ⟨?_, acyclic_of_neverLeadsBack⟩
  rintro h before ⟨a, targets⟩ after rfl b hb hback
  have hpath : Relation.ReflTransGen (Edge (before ++ (a, targets) :: after)) b a :=
    hback.lift id fun _ _ ⟨targets', hmem, hb'⟩ => ⟨targets', by simp [hmem], hb'⟩
  exact h a (.head' ⟨targets, by simp, hb⟩ hpath)

end Infra
