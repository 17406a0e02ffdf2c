import Mathlib.Data.Set.Finite.Basic
import Mathlib.Logic.Relation
import Mathlib.Order.Preorder.Finite
import Mozkey.Infra.Loop

/-!
# Loops in loops, and loops that idle

A loop whose body runs a loop is the same as one loop, which goes on with the outer body where the
inner loop is left (`returns_flatten_iff`).

An iteration may idle, that is, leave a measure as it is. A loop that idles on finitely many views
of its states ends when none of these comes back (`terminates_of_no_return`).
-/

namespace Infra

variable {σ ρ τ : Type}

/-! ## Nested loops -/

/-- The inner iterations one by one. `body` says how the outer loop goes on. -/
def flatten (inner : σ → σ ⊕ ρ) (body : ρ → σ ⊕ τ) (s : σ) : σ ⊕ τ := (inner s).elim .inl body

/-- One iteration of the outer loop. There is no result when the fuel was not enough. -/
def nested (inner : σ → σ ⊕ ρ) (body : ρ → σ ⊕ τ) (fuel : Nat) (s : σ) : σ ⊕ Option τ :=
  match run inner fuel s with
  | none => .inr none
  | some r => (body r).map id some

section

variable {inner : σ → σ ⊕ ρ} {body : ρ → σ ⊕ τ}

theorem nested_of_run {fuel : Nat} {s : σ} {r : ρ} (h : run inner fuel s = some r) :
    nested inner body fuel s = (body r).map id some := by
  rw [nested, h]

theorem flatten_of_inl {s t : σ} (h : inner s = .inl t) : flatten inner body s = .inl t := by
  rw [flatten, h]
  rfl

theorem flatten_of_inr {s : σ} {r : ρ} (h : inner s = .inr r) : flatten inner body s = body r := by
  rw [flatten, h]
  rfl

theorem run_nested_mono {fuel fuel' : Nat} (hle : fuel ≤ fuel') : ∀ {n n' : Nat} {s : σ} {t : τ},
    n ≤ n' → run (nested inner body fuel) n s = some (some t) →
    run (nested inner body fuel') n' s = some (some t)
  | 0, _, _, _, _, h => by cases h
  | n + 1, 0, _, _, hn, _ => absurd hn (by omega)
  | n + 1, n' + 1, s, t, hn, h => by
    cases hrun : run inner fuel s with
    | none =>
      simp [run, nested, hrun] at h
    | some r =>
      rw [run, nested_of_run hrun] at h
      rw [run, nested_of_run (run_mono hrun hle)]
      cases hbody : body r with
      | inl u =>
        rw [hbody] at h
        exact run_nested_mono hle (show n ≤ n' by omega) h
      | inr t' =>
        simpa [hbody] using h

/-- An inner run leads to where the outer loop goes on. -/
theorem Returns.flatten_of_body {s u : σ} {r : ρ} {t : τ} (h : Returns inner s r)
    (hbody : body r = .inl u) (hu : Returns (flatten inner body) u t) :
    Returns (flatten inner body) s t := by
  induction h with
  | left hs => exact .next ((flatten_of_inr hs).trans hbody) hu
  | next hs _ ih => exact .next (flatten_of_inl hs) (ih hbody)

theorem Returns.flatten_of_result {s : σ} {r : ρ} {t : τ} (h : Returns inner s r)
    (hbody : body r = .inr t) : Returns (flatten inner body) s t := by
  induction h with
  | left hs => exact .left ((flatten_of_inr hs).trans hbody)
  | next hs _ ih => exact .next (flatten_of_inl hs) (ih hbody)

theorem returns_flatten_of_run {fuel : Nat} : ∀ {n : Nat} {s : σ} {t : τ},
    run (nested inner body fuel) n s = some (some t) → Returns (flatten inner body) s t
  | 0, _, _, h => by cases h
  | n + 1, s, t, h => by
    cases hrun : run inner fuel s with
    | none =>
      simp [run, nested, hrun] at h
    | some r =>
      rw [run, nested_of_run hrun] at h
      cases hbody : body r with
      | inl u =>
        rw [hbody] at h
        exact (returns_of_run hrun).flatten_of_body hbody (returns_flatten_of_run h)
      | inr t' =>
        rw [hbody] at h
        have ht : t' = t := by simpa using h
        exact (returns_of_run hrun).flatten_of_result (ht ▸ hbody)

theorem exists_run_of_returns_flatten {s : σ} {t : τ} (h : Returns (flatten inner body) s t) :
    ∃ fuel, run (nested inner body fuel) fuel s = some (some t) := by
  induction h with
  | @left s t hs =>
    cases hinner : inner s with
    | inl u =>
      simp [flatten_of_inl hinner] at hs
    | inr r =>
      rw [flatten_of_inr hinner] at hs
      refine ⟨1, ?_⟩
      simp [run, nested_of_run (run_of_inr hinner 0), hs]
  | @next s u t hs _ ih =>
    obtain ⟨fuel, hfuel⟩ := ih
    cases hinner : inner s with
    | inl u' =>
      rw [flatten_of_inl hinner, Sum.inl.injEq] at hs
      subst hs
      cases fuel with
      | zero => cases hfuel
      | succ fuel =>
        -- the first iteration of the outer loop has one inner iteration more
        have hsame : nested inner body (fuel + 2) s = nested inner body (fuel + 1) u' := by
          rw [nested, nested, run_of_inl hinner]
        refine ⟨fuel + 2, ?_⟩
        rw [run] at hfuel ⊢
        rw [hsame]
        split at hfuel
        · exact run_nested_mono (show fuel + 1 ≤ fuel + 2 by omega)
            (show fuel ≤ fuel + 1 by omega) hfuel
        · exact hfuel
    | inr r =>
      rw [flatten_of_inr hinner] at hs
      refine ⟨fuel + 1, ?_⟩
      rw [run, nested_of_run (run_mono (run_of_inr hinner 0) (show 0 + 1 ≤ fuel + 1 by omega)), hs]
      exact run_nested_mono (show fuel ≤ fuel + 1 by omega) (Nat.le_refl fuel) hfuel

/-- **A loop in a loop gives what the one loop gives.** -/
theorem returns_flatten_iff {s : σ} {t : τ} : Returns (flatten inner body) s t ↔
    ∃ fuel, run (nested inner body fuel) fuel s = some (some t) := by
  constructor
  · exact exists_run_of_returns_flatten
  · rintro ⟨fuel, h⟩
    exact returns_flatten_of_run h

end

/-! ## Idling -/

variable {α β : Type} {lt : α → α → Prop} {step : σ → σ ⊕ ρ}

theorem transGen_of_chain {idles : β → β → Prop} {view : Nat → β}
    (h : ∀ n, idles (view n) (view (n + 1))) {i : Nat} : ∀ n : Nat,
    Relation.TransGen idles (view i) (view (i + (n + 1)))
  | 0 => .single (h i)
  | n + 1 => (transGen_of_chain h n).tail (h (i + (n + 1)))

/-- **A loop ends when an iteration that does not decrease the measure leads to one of finitely many
views, and no such view comes back by idling.** -/
theorem terminates_of_no_return (hwf : WellFounded lt) (measure : σ → α) (view : σ → β)
    {idles : β → β → Prop} {views : Set β} (hfinite : views.Finite) {s : σ}
    (hstep : ∀ t u, Reaches step s t → step t = .inl u → lt (measure u) (measure t) ∨
      measure u = measure t ∧ idles (view t) (view u) ∧ view u ∈ views ∧
        ¬Relation.TransGen idles (view u) (view u)) : Terminates step s := by
  induction h : measure s using hwf.induction generalizing s with
  | h a ih =>
    subst h
    by_contra hnot
    obtain ⟨state, hstate⟩ := exists_states_of_not_terminates hnot
    have hnext : ∀ n, step (state n) = .inl (state (n + 1)) := fun n => step_of_states hstate n
    have hreach : ∀ n, Reaches step s (state n) := fun n => reaches_of_after (hstate n)
    -- a smaller measure is out of the question, from there on the loop ends
    have hidle : ∀ n, ¬lt (measure (state n)) (measure s) := by
      intro n hlt
      refine hnot ((terminates_of_reaches (hreach n)).mpr (ih _ hlt ?_ rfl))
      exact fun t u ht hu => hstep t u ((hreach n).trans ht) hu
    have hsame : ∀ n, measure (state n) = measure s := by
      intro n
      induction n with
      | zero =>
        have hzero : state 0 = s := Option.some.inj (hstate 0).symm
        rw [hzero]
      | succ n ihn =>
        rcases hstep _ _ (hreach n) (hnext n) with hlt | ⟨heq, -⟩
        · rw [ihn] at hlt
          exact absurd hlt (hidle (n + 1))
        · exact heq.trans ihn
    have hgo : ∀ n, idles (view (state n)) (view (state (n + 1))) ∧
        view (state (n + 1)) ∈ views ∧
        ¬Relation.TransGen idles (view (state (n + 1))) (view (state (n + 1))) := by
      intro n
      rcases hstep _ _ (hreach n) (hnext n) with hlt | ⟨-, hidles⟩
      · rw [hsame n] at hlt
        exact absurd hlt (hidle (n + 1))
      · exact hidles
    obtain ⟨i, -, j, -, hij, heq⟩ := Set.infinite_univ.exists_lt_map_eq_of_mapsTo
      (f := fun n => view (state (n + 1))) (t := views) (fun n _ => (hgo n).2.1) hfinite
    have hback :=
      @transGen_of_chain _ idles (fun n => view (state n)) (fun n => (hgo n).1) (i + 1) (j - i - 1)
    have heq : view (state (i + 1)) = view (state (j + 1)) := heq
    rw [show i + 1 + (j - i - 1 + 1) = j + 1 from by omega, ← heq] at hback
    exact (hgo i).2.2 hback

end Infra
