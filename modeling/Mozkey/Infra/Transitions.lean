import Mathlib.Data.List.Induction
import Mathlib.Logic.Relation

/-!
# Paths of a labelled transition system

A path keeps its transitions in order, so that one can look back from its end.

* `Path.invariant` — what every step keeps
* `Path.invariant_of_refines` — what the moves of an abstract system keep that does every step in
  several moves
* `Path.since` — what holds now was brought about by some step, and every step since has kept it
* `Path.since_with` — so has what follows from that step and the ones since
-/

namespace Infra

structure Transition (σ ε : Type) where
  source : σ
  event : ε
  target : σ

variable {σ ε : Type} {Step : σ → ε → σ → Prop} {s t u : σ} {e : ε}
  {path : List (Transition σ ε)}

inductive Path (Step : σ → ε → σ → Prop) (s : σ) : List (Transition σ ε) → σ → Prop where
  | refl : Path Step s [] s
  | tail {path : List (Transition σ ε)} {t u : σ} {e : ε} :
      Path Step s path t → Step t e u → Path Step s (path ++ [⟨t, e, u⟩]) u

theorem Path.invariant {I : σ → Prop} (hstep : ∀ t e u, I t → Step t e u → I u)
    (h : Path Step s path u) (hs : I s) : I u := by
  induction h with
  | refl => exact hs
  | tail _ hstep' ih => exact hstep _ _ _ ih hstep'

/-- A step that is made of moves keeps what every move keeps. -/
theorem Path.invariant_of_refines {I : σ → Prop} {Move : σ → σ → Prop}
    (hmove : ∀ t u, I t → Move t u → I u)
    (href : ∀ t e u, I t → Step t e u → Relation.ReflTransGen Move t u)
    (h : Path Step s path u) (hs : I s) : I u := by
  refine h.invariant (fun t e v ht hstep => ?_) hs
  have hmoves := href t e v ht hstep
  clear hstep
  induction hmoves with
  | refl => exact ht
  | tail _ hlast ih => exact hmove _ _ ih hlast

theorem Path.last {x : Transition σ ε} (h : Path Step s (path ++ [x]) u) :
    Path Step s path x.source ∧ Step x.source x.event x.target ∧ x.target = u := by
  generalize hpath : path ++ [x] = path' at h
  cases h with
  | refl => simp at hpath
  | tail h hstep =>
    obtain ⟨rfl, hx⟩ := List.append_inj' hpath rfl
    cases hx
    exact ⟨h, hstep, rfl⟩

/-- A path is cut in two. -/
theorem Path.split {before after : List (Transition σ ε)} :
    ∀ {u : σ}, Path Step s (before ++ after) u →
      ∃ t, Path Step s before t ∧ Path Step t after u := by
  induction after using List.reverseRecOn with
  | nil =>
    intro u h
    rw [List.append_nil] at h
    exact ⟨u, h, .refl⟩
  | append_singleton after x ih =>
    intro u h
    rw [← List.append_assoc] at h
    obtain ⟨hpath, hstep, rfl⟩ := h.last
    obtain ⟨t, hbefore, hafter⟩ := ih hpath
    exact ⟨t, hbefore, hafter.tail hstep⟩

/-- The path from a transition on. -/
theorem Path.of_mem {before after : List (Transition σ ε)} {x : Transition σ ε}
    (h : Path Step s (before ++ x :: after) u) :
    Path Step s before x.source ∧ Step x.source x.event x.target ∧ Path Step x.target after u := by
  rw [← List.singleton_append, ← List.append_assoc] at h
  obtain ⟨t, hbefore, hafter⟩ := h.split
  obtain ⟨hpath, hstep, rfl⟩ := hbefore.last
  exact ⟨hpath, hstep, hafter⟩

/-- What all transitions of a path have in common is known of each step. -/
theorem Path.restrict {P : Transition σ ε → Prop} (h : Path Step s path u)
    (hP : ∀ x ∈ path, P x) : Path (fun t e u => Step t e u ∧ P ⟨t, e, u⟩) s path u := by
  induction h with
  | refl => exact .refl
  | tail _ hstep ih =>
    refine (ih fun x hx => hP x (List.mem_append_left _ hx)).tail ⟨hstep, hP _ ?_⟩
    exact List.mem_append_right _ (List.mem_singleton_self _)

/-! ## Looking back -/

variable {P Q : Transition σ ε → Prop}

/-- What holds now was brought about by a transition `m`, and what follows from `m` and from the
transitions since is kept. -/
theorem Path.since_with {I G : σ → Prop}
    {F : Transition σ ε → List (Transition σ ε) → σ → Prop}
    (hI : ∀ t e u, I t → Step t e u → I u)
    (hstep : ∀ t e u, I t → Step t e u → G u →
      F ⟨t, e, u⟩ [] u ∨
        G t ∧ P ⟨t, e, u⟩ ∧ ∀ m after, F m after t → F m (after ++ [⟨t, e, u⟩]) u)
    (h : Path Step s path u) (hs : I s) (hG : ¬G s) (hu : G u) :
    ∃ before m after, path = before ++ m :: after ∧ (∀ v ∈ after, P v) ∧ F m after u := by
  induction h with
  | refl => exact absurd hu hG
  | @tail path t u e hpath hlast ih =>
    rcases hstep _ _ _ (hpath.invariant hI hs) hlast hu with hF | ⟨hGt, hP, hF⟩
    · exact ⟨path, _, [], rfl, fun _ hv => absurd hv List.not_mem_nil, hF⟩
    · obtain ⟨before, m, after, rfl, hall, hFt⟩ := ih hGt
      refine ⟨before, m, after ++ [⟨t, e, u⟩], by rw [List.append_assoc, List.cons_append], ?_,
        hF m after hFt⟩
      intro v hv
      rcases List.mem_append.mp hv with hv | hv
      · exact hall v hv
      · rw [List.mem_singleton.mp hv]
        exact hP

end Infra

/-!
## Journals

A journal keeps its entries, the newest first. `Permitted P` says that `P` allowed every entry in
view of the ones before it.

* `permitted_append` — a journal that was written on
-/

namespace Infra

variable {ε : Type} {P Q : List ε → ε → Prop}

def Permitted (P : List ε → ε → Prop) : List ε → Prop
  | [] => True
  | entry :: before => P before entry ∧ Permitted P before

@[simp] theorem permitted_nil : Permitted P [] := trivial

/-- What is written on a journal only has to be permitted itself. -/
theorem permitted_append {before : List ε} (hbefore : Permitted P before) :
    ∀ {written : List ε},
      (∀ later entry earlier, written = later ++ entry :: earlier → P (earlier ++ before) entry) →
      Permitted P (written ++ before)
  | [], _ => hbefore
  | entry :: written, h => by
    refine ⟨h [] entry written rfl, permitted_append hbefore fun later e earlier heq => ?_⟩
    exact h (entry :: later) e earlier (by rw [heq, List.cons_append])

end Infra
