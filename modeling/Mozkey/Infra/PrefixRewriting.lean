import Mathlib.Data.Set.Finite.List
import Mathlib.Order.Preorder.Finite
import Mozkey.Infra.Loop

/-!
# Rewriting at the front of a word

A loop over words that looks only so far into the word: what stands behind the first `width`
letters passes through an iteration unseen, or is dropped as a whole by one that leaves at most
`bound` letters.

Such a loop goes on forever for two reasons only: a word comes back, or a word feeds itself, that
is, it is rewritten to a word that begins with it again, whatever stands behind it
(`terminates_iff_not_feeding`). The argument is the pumping argument of pushdown automata: where
words grow without end, take the words that no later one is shorter than. Two of them begin with
the same letters.
-/

namespace Infra

variable {α ρ : Type}

structure Windowed (step : List α → List α ⊕ ρ) (width bound : Nat) : Prop where
  goes : ∀ {u v : List α} (w : List α), width ≤ u.length → step u = .inl v →
    step (u ++ w) = .inl (v ++ w) ∨ (step (u ++ w) = .inl v ∧ v.length ≤ bound)
  ends : ∀ {u : List α} {r : ρ} (w : List α), width ≤ u.length → step u = .inr r →
    ∃ r', step (u ++ w) = .inr r'

/-- The word comes back. -/
def Recurs (step : List α → List α ⊕ ρ) (x : List α) : Prop :=
  ∃ n, 0 < n ∧ after step n x = some x

/-- Whatever stands behind the word, it is rewritten to a word that begins with it. -/
def Feeds (step : List α → List α ⊕ ρ) (h : List α) : Prop :=
  ∃ n, 0 < n ∧ ∀ w, ∃ w', after step n (h ++ w) = some (h ++ w')

variable {step : List α → List α ⊕ ρ} {width bound : Nat}

theorem not_terminates_of_recurs {x : List α} (h : Recurs step x) : ¬Terminates step x := by
  obtain ⟨n, hn, hx⟩ := h
  refine not_terminates_of_recurrent (I := fun y => y = x) ?_ rfl
  rintro y rfl
  exact ⟨n, y, hn, hx, rfl⟩

theorem not_terminates_of_feeds {h : List α} (hf : Feeds step h) (w : List α) :
    ¬Terminates step (h ++ w) := by
  obtain ⟨n, hn, hfeed⟩ := hf
  refine not_terminates_of_recurrent (I := fun y => h <+: y) ?_ (List.prefix_append h w)
  rintro y ⟨w, rfl⟩
  obtain ⟨w', hw'⟩ := hfeed w
  exact ⟨n, h ++ w', hn, hw', List.prefix_append h w'⟩

/-! ## Words that grow -/

/-- The indices from `N` on behind which no word is shorter. -/
def lowest (word : Nat → List α) (N : Nat) : Set Nat :=
  {i | N ≤ i ∧ ∀ j, i ≤ j → (word i).length ≤ (word j).length}

theorem exists_lowest (word : Nat → List α) : ∀ (b M : Nat), (word M).length ≤ b →
    ∃ i, i ∈ lowest word M
  | b, M, hb => by
    by_cases hM : ∀ j, M ≤ j → (word M).length ≤ (word j).length
    · exact ⟨M, Nat.le_refl M, hM⟩
    · obtain ⟨j, hj, hlt⟩ : ∃ j, M ≤ j ∧ (word j).length < (word M).length := by
        by_contra hno
        exact hM fun j hj => Nat.le_of_not_lt fun hlt => hno ⟨j, hj, hlt⟩
      match b with
      | 0 => exact absurd hlt (by omega)
      | b + 1 =>
        obtain ⟨i, hi, hlow⟩ := exists_lowest word b j (by omega)
        exact ⟨i, by omega, hlow⟩

theorem lowest_infinite (word : Nat → List α) (N : Nat) : (lowest word N).Infinite := by
  refine Set.infinite_of_not_bddAbove ?_
  rintro ⟨b, hb⟩
  obtain ⟨i, hi, hlow⟩ := exists_lowest word _ (max N (b + 1)) (Nat.le_refl _)
  have hle : i ≤ b := hb ⟨by omega, hlow⟩
  omega

variable {word : Nat → List α}

/-- What stands behind the front of a lowest word is never seen again. -/
theorem front_of_lowest (hwin : Windowed step width bound)
    (hstep : ∀ n, step (word n) = .inl (word (n + 1))) {i : Nat} {h rest : List α}
    (hi : word i = h ++ rest) (hh : h.length = width)
    (hlow : ∀ j, i ≤ j → (word i).length ≤ (word j).length)
    (hlong : ∀ j, i ≤ j → bound < (word j).length) : ∀ m : Nat,
    ∃ u, word (i + m) = u ++ rest ∧ width ≤ u.length ∧
      ∀ w, ∃ w', after step m (h ++ w) = some (u ++ w')
  | 0 => ⟨h, hi, Nat.le_of_eq hh.symm, fun w => ⟨w, rfl⟩⟩
  | m + 1 => by
    obtain ⟨u, hu, hlen, hafter⟩ := front_of_lowest hwin hstep hi hh hlow hlong m
    have hnext := hstep (i + m)
    rw [hu] at hnext
    cases hv : step u with
    | inr r =>
      obtain ⟨r', hr'⟩ := hwin.ends rest hlen hv
      simp [hr'] at hnext
    | inl v =>
      have hword : word (i + m + 1) = v ++ rest := by
        rcases hwin.goes rest hlen hv with hgo | ⟨hgo, hshort⟩
        · rw [hgo, Sum.inl.injEq] at hnext
          exact hnext.symm
        · rw [hgo, Sum.inl.injEq] at hnext
          have hlong := hlong (i + m + 1) (by omega)
          rw [← hnext] at hlong
          omega
      refine ⟨v, hword, ?_, fun w => ?_⟩
      · have hlow := hlow (i + m + 1) (by omega)
        simp [hi, hword] at hlow
        omega
      · obtain ⟨w', hw'⟩ := hafter w
        rcases hwin.goes w' hlen hv with hgo | ⟨hgo, -⟩
        · exact ⟨w', after_tail hw' hgo⟩
        · exact ⟨[], by rw [List.append_nil]; exact after_tail hw' hgo⟩

/-- Words that grow without end begin with one that feeds itself. -/
theorem exists_feeds [Finite α] (hwin : Windowed step width bound)
    (hstep : ∀ n, step (word n) = .inl (word (n + 1)))
    (hgrow : ∀ L, ∃ N, ∀ n, N ≤ n → L < (word n).length) :
    ∃ i h, h <+: word i ∧ Feeds step h := by
  obtain ⟨N, hN⟩ := hgrow (max width bound)
  have hmaps : Set.MapsTo (fun i => (word i).take width) (lowest word N)
      {l | l.length ≤ width} := by
    intro i _
    simp [List.length_take]
  obtain ⟨i, ⟨hNi, hlowi⟩, j, ⟨hNj, hlowj⟩, hij, heq⟩ :=
    (lowest_infinite word N).exists_lt_map_eq_of_mapsTo hmaps (List.finite_length_le α width)
  have hlen : ((word i).take width).length = width := by
    have hlong := hN i hNi
    simp
    omega
  obtain ⟨u, hu, hulen, hafter⟩ := front_of_lowest hwin hstep
    (List.take_append_drop width (word i)).symm hlen hlowi
    (fun j hj => by have hlong := hN j (by omega); omega) (j - i)
  have hfront : u.take width = (word i).take width := by
    have heq : (word i).take width = (word j).take width := heq
    rw [heq, show j = i + (j - i) from by omega, hu, List.take_append_of_le_length hulen]
  refine ⟨i, (word i).take width, List.take_prefix width (word i), j - i, by omega, fun w => ?_⟩
  obtain ⟨w', hw'⟩ := hafter w
  refine ⟨u.drop width ++ w', ?_⟩
  rw [hw', ← List.append_assoc, ← hfront, List.take_append_drop]

/-- Words that stay short come back. -/
theorem exists_eq_of_short [Finite α] {L : Nat} (hshort : ∀ N, ∃ n, N ≤ n ∧ (word n).length ≤ L) :
    ∃ i j, i < j ∧ word i = word j := by
  have hinf : {n | (word n).length ≤ L}.Infinite := by
    refine Set.infinite_of_not_bddAbove ?_
    rintro ⟨b, hb⟩
    obtain ⟨n, hn, hlen⟩ := hshort (b + 1)
    have hle : n ≤ b := hb hlen
    omega
  have hmaps : Set.MapsTo word {n | (word n).length ≤ L} {l | l.length ≤ L} := fun n hn => hn
  obtain ⟨i, -, j, -, hij, heq⟩ :=
    hinf.exists_lt_map_eq_of_mapsTo hmaps (List.finite_length_le α L)
  exact ⟨i, j, hij, heq⟩

/-- **A loop that looks only so far into a word ends if and only if it comes to no word that comes
back or begins with one that feeds itself.** -/
theorem terminates_iff_not_feeding [Finite α] (hwin : Windowed step width bound) {k : List α} :
    Terminates step k ↔ ∀ x, Reaches step k x → ¬Recurs step x ∧ ∀ h, h <+: x → ¬Feeds step h := by
  constructor
  · intro ht x hx
    have htx := (terminates_of_reaches hx).mp ht
    refine ⟨fun hr => not_terminates_of_recurs hr htx, ?_⟩
    rintro h ⟨w, rfl⟩ hf
    exact not_terminates_of_feeds hf w htx
  · intro hno
    by_contra hnot
    obtain ⟨word, hword⟩ := exists_states_of_not_terminates hnot
    have hstep := step_of_states hword
    by_cases hgrow : ∀ L, ∃ N, ∀ n, N ≤ n → L < (word n).length
    · obtain ⟨i, h, hpre, hf⟩ := exists_feeds hwin hstep hgrow
      exact (hno _ (reaches_of_after (hword i))).2 h hpre hf
    · obtain ⟨L, hL⟩ := not_forall.mp hgrow
      have hshort : ∀ N, ∃ n, N ≤ n ∧ (word n).length ≤ L := by
        intro N
        by_contra hN
        exact hL ⟨N, fun n hn => Nat.lt_of_not_le fun hle => hN ⟨n, hn, hle⟩⟩
      obtain ⟨i, j, hij, heq⟩ := exists_eq_of_short hshort
      refine (hno _ (reaches_of_after (hword i))).1 ⟨j - i, by omega, ?_⟩
      rw [← after_add (hword i), show i + (j - i) = j from by omega, hword j, heq]

end Infra
