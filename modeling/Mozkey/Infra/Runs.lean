import Mathlib.Data.List.DropRight
import Mathlib.Data.List.ReduceOption
import Mathlib.Algebra.Order.Group.Multiset

/-!
# Maximal runs

The longest stretches of a list whose elements satisfy `p`, read from the left with the stretch
that is being collected as an accumulator.

A list can be given in pieces. A run of the whole list is then made of fragments, one of each
piece it reaches into, and every run of a piece is such a fragment:

* `map_flatten_fragmentRuns` — joined, the fragments are the runs of the whole list
* `flatten_fragmentRuns` — one by one, they are the runs of the pieces

So the runs of the whole list and the runs of its pieces differ by the runs that cross a border
(`perm_runs_iff`).
-/

namespace Infra

variable {α β : Type}

def runsFrom (p : α → Bool) : List α → List α → List (List α)
  | current, [] => if current.isEmpty then [] else [current]
  | current, c :: rest =>
    if p c then runsFrom p (current ++ [c]) rest
    else if current.isEmpty then runsFrom p [] rest
    else current :: runsFrom p [] rest

def runs (p : α → Bool) (l : List α) : List (List α) := runsFrom p [] l

/-! ## A run in its surroundings -/

/-- `run` is a maximal stretch of elements with `p`, between `before` and `after`. -/
structure IsRunIn (p : α → Bool) (l before run after : List α) : Prop where
  list_eq : l = before ++ run ++ after
  ne_nil : run ≠ []
  all : ∀ c ∈ run, p c = true
  last : ∀ c, before.getLast? = some c → p c = false
  first : ∀ c, after.head? = some c → p c = false

variable {p : α → Bool} {fragments : List (List α)}

/-- What is before an element without `p` is read for itself. -/
theorem runsFrom_append_cons {c : α} (hc : p c = false) (rest : List α) :
    ∀ before current : List α, runsFrom p current (before ++ c :: rest)
      = runsFrom p current (before ++ [c]) ++ runsFrom p [] rest
  | [], current => by
    simp only [List.nil_append, runsFrom, hc, Bool.false_eq_true, if_false]
    split <;> rfl
  | b :: before, current => by
    simp only [List.cons_append, runsFrom]
    split
    · exact runsFrom_append_cons hc rest before _
    · split
      · exact runsFrom_append_cons hc rest before []
      · simp [runsFrom_append_cons hc rest before []]

theorem runsFrom_append_of_all (rest : List α) :
    ∀ run current : List α, (∀ c ∈ run, p c = true) →
    runsFrom p current (run ++ rest) = runsFrom p (current ++ run) rest
  | [], current, _ => by simp
  | c :: run, current, h => by
    simp [runsFrom, if_pos (h c List.mem_cons_self), runsFrom_append_of_all rest run _
      (List.forall_mem_cons.mp h).2]

theorem runs_of_all {l : List α} (hne : l ≠ []) (h : ∀ c ∈ l, p c = true) :
    runs p l = [l] := by
  have hread := runsFrom_append_of_all [] l [] h
  rw [List.append_nil, List.nil_append, runsFrom, if_neg (by simpa using hne)] at hread
  exact hread

theorem IsRunIn.mem_runs {l before run after : List α} (h : IsRunIn p l before run after) :
    run ∈ runs p l := by
  -- the run begins where nothing is being collected
  have hrun : run ∈ runsFrom p [] (run ++ after) := by
    rw [runsFrom_append_of_all after run [] h.all, List.nil_append]
    cases after with
    | nil =>
      rw [runsFrom, if_neg (by simpa using h.ne_nil)]
      exact List.mem_singleton_self run
    | cons c rest =>
      rw [runsFrom, if_neg (by simp [h.first c rfl]), if_neg (by simpa using h.ne_nil)]
      exact List.mem_cons_self
  rw [h.list_eq, List.append_assoc]
  rcases List.eq_nil_or_concat before with rfl | ⟨front, c, rfl⟩
  · exact hrun
  · rw [List.concat_eq_append, List.append_assoc, List.singleton_append, runs,
      runsFrom_append_cons (h.last c (by simp))]
    exact List.mem_append_right _ hrun

/-- A stretch of elements with `p` is part of a run. -/
theorem exists_run_of_infix {part l : List α} (hne : part ≠ []) (hall : ∀ c ∈ part, p c = true)
    (h : part <:+: l) : ∃ run ∈ runs p l, part <:+: run := by
  obtain ⟨before, after, rfl⟩ := h
  have hrun : IsRunIn p (before ++ part ++ after) (before.rdropWhile p)
      (before.rtakeWhile p ++ part ++ after.takeWhile p) (after.dropWhile p) := by
    refine ⟨?_, ?_, ?_, ?_, ?_⟩
    · simp [← List.append_assoc, List.append_assoc _ (after.takeWhile p)]
    · simp [hne]
    · intro c hc
      rcases List.mem_append.mp hc with hc | hc
      · rcases List.mem_append.mp hc with hc | hc
        · exact List.mem_rtakeWhile_imp hc
        · exact hall c hc
      · exact List.mem_takeWhile_imp hc
    · intro c hc
      have hnil : before.rdropWhile p ≠ [] := by
        rintro h
        simp [h] at hc
      rw [List.getLast?_eq_some_getLast hnil, Option.some.injEq] at hc
      rw [← hc]
      simpa using List.rdropWhile_last_not p before hnil
    · intro c hc
      have hhead := List.head?_dropWhile_not p after
      rw [hc] at hhead
      simpa using hhead
  exact ⟨_, hrun.mem_runs, before.rtakeWhile p, after.takeWhile p, rfl⟩

/-! ## Fragments -/

/-- The elements of the pieces, with `none` at the end of each piece. -/
def marked : List (List α) → List (Option α)
  | [] => []
  | piece :: pieces => piece.map some ++ none :: marked pieces

def endFragment (fragments : List (List α)) (current : List α) : List (List α) :=
  if current.isEmpty then fragments else fragments ++ [current]

def endRun (fragments : List (List α)) : List (List (List α)) :=
  if fragments.isEmpty then [] else [fragments]

/-- `fragments` are the complete ones of the run that is being read, `current` is the last one. -/
def fragmentRunsFrom (p : α → Bool) :
    List (List α) → List α → List (Option α) → List (List (List α))
  | fragments, current, [] => endRun (endFragment fragments current)
  | fragments, current, none :: rest => fragmentRunsFrom p (endFragment fragments current) [] rest
  | fragments, current, some c :: rest =>
    if p c then fragmentRunsFrom p fragments (current ++ [c]) rest
    else endRun (endFragment fragments current) ++ fragmentRunsFrom p [] [] rest

/-- The runs of the pieces put together, each as the list of its fragments. -/
def fragmentRuns (p : α → Bool) (pieces : List (List α)) : List (List (List α)) :=
  fragmentRunsFrom p [] [] (marked pieces)

/-- The runs that reach into more than one piece. -/
def crossingFragments (p : α → Bool) (pieces : List (List α)) : List (List (List α)) :=
  (fragmentRuns p pieces).filter fun fragments => 2 ≤ fragments.length

def crossingRuns (p : α → Bool) (pieces : List (List α)) : List (List α) :=
  (crossingFragments p pieces).map List.flatten

/-- What the pieces have of these runs. -/
def cutRuns (p : α → Bool) (pieces : List (List α)) : List (List α) :=
  (crossingFragments p pieces).flatten

/-! ## Reading fragments together and apart -/

theorem endFragment_flatten (fragments : List (List α)) (current : List α) :
    (endFragment fragments current).flatten = fragments.flatten ++ current := by
  unfold endFragment
  split
  · next h => rw [List.isEmpty_iff.mp h, List.append_nil]
  · simp

theorem nil_notMem_endFragment (h : [] ∉ fragments) (current : List α) :
    [] ∉ endFragment fragments current := by
  unfold endFragment
  split
  · exact h
  · next hc =>
    intro hm
    rcases List.mem_append.mp hm with hf | hf
    · exact h hf
    · rw [List.mem_singleton] at hf
      exact hc (by rw [← hf]; rfl)

theorem map_flatten_endRun (h : [] ∉ fragments) :
    (endRun fragments).map List.flatten =
      if fragments.flatten.isEmpty then [] else [fragments.flatten] := by
  cases fragments with
  | nil => rfl
  | cons f rest =>
    have hf : f ≠ [] := fun he => h (he ▸ List.mem_cons_self)
    have hne : ¬(f :: rest).flatten.isEmpty = true := by simp [hf]
    rw [if_neg hne]
    rfl

theorem endRun_flatten (fragments : List (List α)) : (endRun fragments).flatten = fragments := by
  unfold endRun
  split
  · next h => rw [List.isEmpty_iff.mp h]; rfl
  · simp

theorem endFragment_eq (p : α → Bool) (fragments : List (List α)) (current : List α) :
    endFragment fragments current = fragments ++ runsFrom p current [] := by
  unfold endFragment
  rw [runsFrom]
  split <;> simp

theorem map_flatten_fragmentRunsFrom (p : α → Bool) :
    ∀ (ms : List (Option α)) (fragments : List (List α)) (current : List α), [] ∉ fragments →
    (fragmentRunsFrom p fragments current ms).map List.flatten
      = runsFrom p (fragments.flatten ++ current) ms.reduceOption
  | [], fragments, current, h => by
    rw [fragmentRunsFrom, map_flatten_endRun (nil_notMem_endFragment h current),
      endFragment_flatten]
    rfl
  | none :: ms, fragments, current, h => by
    simp [fragmentRunsFrom, map_flatten_fragmentRunsFrom p ms _ _ (nil_notMem_endFragment h
      current), endFragment_flatten]
  | some c :: ms, fragments, current, h => by
    have hms : (some c :: ms).reduceOption = c :: ms.reduceOption := rfl
    rw [fragmentRunsFrom, hms, runsFrom]
    split
    · simp [map_flatten_fragmentRunsFrom p ms _ _ h]
    · rw [List.map_append, map_flatten_endRun (nil_notMem_endFragment h current),
        endFragment_flatten, map_flatten_fragmentRunsFrom p ms [] [] (by simp)]
      split <;> rfl

theorem reduceOption_marked :
    ∀ pieces : List (List α), (marked pieces).reduceOption = pieces.flatten
  | [] => rfl
  | piece :: pieces => by
    have hp : (piece.map some).reduceOption = piece := by
      simp [List.reduceOption, List.filterMap_map]
    rw [marked, List.reduceOption_append, hp, List.reduceOption_cons_of_none,
      reduceOption_marked pieces, List.flatten_cons]

/-- **Joined, the fragments are the runs of the whole list.** -/
theorem map_flatten_fragmentRuns (p : α → Bool) (pieces : List (List α)) :
    (fragmentRuns p pieces).map List.flatten = runs p pieces.flatten := by
  rw [fragmentRuns, map_flatten_fragmentRunsFrom p _ [] [] (by simp), reduceOption_marked]
  rfl

/-- One piece to its end, given what follows. -/
theorem flatten_fragmentRunsFrom_piece {ms : List (Option α)} {tail : List (List α)}
    (h : ∀ fragments, (fragmentRunsFrom p fragments [] ms).flatten = fragments ++ tail) :
    ∀ (piece : List α) (fragments : List (List α)) (current : List α),
    (fragmentRunsFrom p fragments current (piece.map some ++ none :: ms)).flatten
      = fragments ++ runsFrom p current piece ++ tail
  | [], fragments, current => by
    simp [fragmentRunsFrom, h, endFragment_eq p]
  | c :: piece, fragments, current => by
    rw [List.map_cons, List.cons_append, fragmentRunsFrom, runsFrom]
    split
    · exact flatten_fragmentRunsFrom_piece h piece fragments _
    · rw [List.flatten_append, endRun_flatten, flatten_fragmentRunsFrom_piece h piece [] [],
        endFragment_eq p, runsFrom]
      split <;> simp

theorem flatten_fragmentRunsFrom (p : α → Bool) :
    ∀ (pieces : List (List α)) (fragments : List (List α)),
    (fragmentRunsFrom p fragments [] (marked pieces)).flatten
      = fragments ++ pieces.flatMap (runs p)
  | [], fragments => by
    simp [marked, fragmentRunsFrom, endRun_flatten, endFragment]
  | piece :: pieces, fragments => by
    rw [marked, flatten_fragmentRunsFrom_piece (flatten_fragmentRunsFrom p pieces),
      List.flatMap_cons, List.append_assoc]
    rfl

/-- **One by one, the fragments are the runs of the pieces.** -/
theorem flatten_fragmentRuns (p : α → Bool) (pieces : List (List α)) :
    (fragmentRuns p pieces).flatten = pieces.flatMap (runs p) :=
  flatten_fragmentRunsFrom p pieces []

theorem ne_nil_of_mem_endRun {f : List (List α)} (h : f ∈ endRun fragments) : f ≠ [] := by
  unfold endRun at h
  split at h
  · cases h
  · next hne =>
    rw [List.mem_singleton] at h
    rintro rfl
    exact hne (by rw [← h]; rfl)

theorem ne_nil_of_mem_fragmentRunsFrom (p : α → Bool) {f : List (List α)} :
    ∀ (ms : List (Option α)) (fragments : List (List α)) (current : List α),
    f ∈ fragmentRunsFrom p fragments current ms → f ≠ []
  | [], _, _, h => ne_nil_of_mem_endRun h
  | none :: ms, _, _, h => ne_nil_of_mem_fragmentRunsFrom p ms _ _ h
  | some c :: ms, _, _, h => by
    rw [fragmentRunsFrom] at h
    split at h
    · exact ne_nil_of_mem_fragmentRunsFrom p ms _ _ h
    · rcases List.mem_append.mp h with h | h
      · exact ne_nil_of_mem_endRun h
      · exact ne_nil_of_mem_fragmentRunsFrom p ms _ _ h

/-! ## What the borders change -/

theorem join_add_cut : ∀ xs : List (List (List α)), (∀ x ∈ xs, x ≠ []) →
    (xs.map List.flatten + (xs.filter fun x => 2 ≤ x.length).flatten : Multiset (List α))
      = xs.flatten + ((xs.filter fun x => 2 ≤ x.length).map List.flatten : List (List α))
  | [], _ => rfl
  | x :: xs, h => by
    have ih := join_add_cut xs (List.forall_mem_cons.mp h).2
    rw [List.map_cons, List.flatten_cons, List.filter_cons, ← Multiset.cons_coe,
      ← Multiset.coe_add]
    split
    · simp [← Multiset.coe_add, ← Multiset.cons_coe, Multiset.cons_add, Multiset.add_cons,
        add_left_comm, ih, add_assoc]
    · next hlen =>
      -- a run of one fragment is that fragment
      obtain ⟨y, rfl⟩ : ∃ y, x = [y] := by
        match x, h x List.mem_cons_self, hlen with
        | [y], _, _ => exact ⟨y, rfl⟩
        | _ :: _ :: _, _, hlen => exact absurd (by simp) hlen
      rw [Multiset.cons_add, ih, Multiset.coe_singleton, Multiset.singleton_add,
        Multiset.cons_add, List.flatten_cons, List.flatten_nil, List.append_nil]

/-- The runs of the whole list and the fragments, against the runs of the pieces and those that
cross. -/
theorem runs_add_cut (p : α → Bool) (pieces : List (List α)) :
    (runs p pieces.flatten + cutRuns p pieces : Multiset (List α))
      = pieces.flatMap (runs p) + crossingRuns p pieces := by
  rw [← map_flatten_fragmentRuns, ← flatten_fragmentRuns]
  exact join_add_cut _ fun _ hx => ne_nil_of_mem_fragmentRunsFrom p _ _ _ hx

theorem select_runs_add_cut (p : α → Bool) (select : List α → Option β) (pieces : List (List α)) :
    ((runs p pieces.flatten).filterMap select + (cutRuns p pieces).filterMap select : Multiset β)
      = (pieces.flatMap (runs p)).filterMap select + (crossingRuns p pieces).filterMap select := by
  have h := congrArg (Multiset.filterMap select) (runs_add_cut p pieces)
  simpa only [Multiset.coe_add, Multiset.filterMap_coe, List.filterMap_append] using h

/-- **When the pieces of two lists have the same runs, the lists have the same runs if and only
if the runs that cross a border balance.** `select` picks the runs that are looked at. -/
theorem perm_runs_iff (select : List α → Option β) {a b : List (List α)}
    (h : ((a.flatMap (runs p)).filterMap select).Perm ((b.flatMap (runs p)).filterMap select)) :
    ((runs p a.flatten).filterMap select).Perm ((runs p b.flatten).filterMap select) ↔
      ((crossingRuns p a ++ cutRuns p b).filterMap select).Perm
        ((crossingRuns p b ++ cutRuns p a).filterMap select) := by
  have ha := select_runs_add_cut p select a
  have hb := select_runs_add_cut p select b
  rw [← Multiset.coe_eq_coe] at h
  rw [h] at ha
  rw [List.filterMap_append, List.filterMap_append, ← Multiset.coe_eq_coe, ← Multiset.coe_eq_coe,
    ← Multiset.coe_add, ← Multiset.coe_add]
  generalize ((runs p a.flatten).filterMap select : Multiset β) = ra at ha ⊢
  generalize ((runs p b.flatten).filterMap select : Multiset β) = rb at hb ⊢
  generalize ((cutRuns p a).filterMap select : Multiset β) = ca at ha ⊢
  generalize ((cutRuns p b).filterMap select : Multiset β) = cb at hb ⊢
  generalize ((crossingRuns p a).filterMap select : Multiset β) = xa at ha ⊢
  generalize ((crossingRuns p b).filterMap select : Multiset β) = xb at hb ⊢
  generalize ((b.flatMap (runs p)).filterMap select : Multiset β) = r at ha hb
  have hsum : r + (xa + cb) = ra + (ca + cb) := by rw [← add_assoc, ← ha, add_assoc]
  have hsum' : r + (xb + ca) = rb + (ca + cb) := by
    rw [← add_assoc, ← hb, add_assoc, add_comm cb]
  constructor
  · intro hr
    rw [hr, ← hsum'] at hsum
    exact add_left_cancel hsum
  · intro hc
    rw [hc, hsum'] at hsum
    exact (add_right_cancel hsum).symm

end Infra
