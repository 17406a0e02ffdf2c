import Mathlib.Algebra.Ring.Int.Defs
import Mathlib.Data.List.Chain

/-!
# Cheapest paths by dynamic programming

Vertices are labelled one after the other, each with a vertex in front of it and a cost. `Solved`
says that a label is right; it follows from the labels of the vertices in front, and a path can be
read off the labels backwards.

* `Solved.of_none`, `Solved.of_min` — the label that the best vertex in front gives
* `best` — choosing it
* `exists_path` — the path that the labels describe
-/

namespace Infra.ShortestPath

variable {V : Type} (E : V → V → Prop) (w : V → V → Int) (s : V)

/-- There is a path from `s` to `v` that costs `a`. -/
inductive Reaches : V → Int → Prop
  | source : Reaches s 0
  | step {u v : V} {a : Int} (h : Reaches u a) (he : E u v) : Reaches v (a + w u v)

structure Labels (V : Type) where
  prev : V → Option V
  cost : V → Int

def Least (v : V) (a : Int) : Prop := Reaches E w s v a ∧ ∀ b, Reaches E w s v b → a ≤ b

/-- `v` has been reached. -/
def Reached (s : V) (L : Labels V) (v : V) : Prop := v = s ∨ L.prev v ≠ none

/-- The label of `v` is right. -/
structure Solved (L : Labels V) (v : V) : Prop where
  unreached : L.prev v = none → ∀ a, ¬ Reaches E w s v a
  edge : ∀ u, L.prev v = some u → E u v ∧ Reached s L u ∧ L.cost v = L.cost u + w u v
  least : ∀ u, L.prev v = some u → Least E w s v (L.cost v)

/-- The source has no vertex in front of it and costs nothing. -/
structure SourceLabel (L : Labels V) : Prop where
  no_edge : ∀ u, ¬ E u s
  prev_eq : L.prev s = none
  cost_eq : L.cost s = 0

variable {E w s} {L L' : Labels V} {u v : V} {a b : Int}

theorem Reaches.inv (h : Reaches E w s v a) (hv : v ≠ s) :
    ∃ u b, Reaches E w s u b ∧ E u v ∧ a = b + w u v := by
  cases h with
  | source => exact absurd rfl hv
  | step h he => exact ⟨_, _, h, he, rfl⟩

theorem Least.unique (h : Least E w s v a) (h' : Least E w s v b) : a = b :=
  Int.le_antisymm (h.2 b h'.1) (h'.2 a h.1)

theorem SourceLabel.least (h : SourceLabel E s L) : Least E w s s (L.cost s) := by
  rw [h.cost_eq]
  refine ⟨.source, fun b hb => ?_⟩
  generalize hs : s = v at hb
  cases hb with
  | source => exact Int.le_refl 0
  | step _ he => exact absurd (hs ▸ he) (h.no_edge _)

/-- `v` is the source or has a right label. -/
def Known (E : V → V → Prop) (w : V → V → Int) (s : V) (L : Labels V) (v : V) : Prop :=
  v = s ∨ Solved E w s L v

theorem Known.least (h : Known E w s L u) (hs : SourceLabel E s L) (hu : Reached s L u) :
    Least E w s u (L.cost u) := by
  rcases h with rfl | h
  · exact hs.least
  · rcases hu with rfl | hu
    · exact hs.least
    · obtain ⟨t, ht⟩ := Option.ne_none_iff_exists'.mp hu
      exact h.least t ht

theorem Known.reached (h : Known E w s L u) (hr : Reaches E w s u a) : Reached s L u := by
  rcases h with rfl | h
  · exact .inl rfl
  · exact .inr fun hnone => h.unreached hnone a hr

/-- Nothing in front of `v` has been reached. -/
theorem Solved.of_none (hv : v ≠ s) (hpred : ∀ u, E u v → Known E w s L u)
    (hnone : L.prev v = none) (hunreached : ∀ u, E u v → ¬ Reached s L u) : Solved E w s L v := by
  refine ⟨fun _ a ha => ?_, fun u hu => ?_, fun u hu => ?_⟩
  · obtain ⟨u, b, hb, he, _⟩ := ha.inv hv
    exact hunreached u he ((hpred u he).reached hb)
  · simp [hnone] at hu
  · simp [hnone] at hu

/-- `u` is the best of the reached vertices in front of `v`. -/
theorem Solved.of_min (hv : v ≠ s) (hs : SourceLabel E s L)
    (hpred : ∀ u, E u v → Known E w s L u) (hprev : L.prev v = some u) (he : E u v)
    (hu : Reached s L u) (hcost : L.cost v = L.cost u + w u v)
    (hmin : ∀ u', E u' v → Reached s L u' → L.cost u + w u v ≤ L.cost u' + w u' v) :
    Solved E w s L v := by
  have hleast : Least E w s v (L.cost v) := by
    refine ⟨hcost ▸ .step ((hpred u he).least hs hu).1 he, fun a ha => ?_⟩
    obtain ⟨u', b, hb, he', rfl⟩ := ha.inv hv
    have hu' := (hpred u' he').reached hb
    have := ((hpred u' he').least hs hu').2 b hb
    have := hmin u' he' hu'
    omega
  refine ⟨fun hnone => ?_, fun u' hu' => ?_, fun _ _ => hleast⟩
  · simp [hprev] at hnone
  · obtain rfl := Option.some.inj (hprev.symm.trans hu')
    exact ⟨he, hu, hcost⟩

/-- Labels elsewhere do not matter. -/
theorem Solved.congr (h : Solved E w s L v) (hprev : L'.prev v = L.prev v)
    (hcost : L'.cost v = L.cost v)
    (hpred : ∀ u, E u v → L'.prev u = L.prev u ∧ L'.cost u = L.cost u) :
    Solved E w s L' v := by
  refine ⟨fun hn => h.unreached (hprev ▸ hn), fun u hu => ?_, fun u hu => ?_⟩
  · obtain ⟨he, hr, hc⟩ := h.edge u (hprev ▸ hu)
    obtain ⟨hp, hc'⟩ := hpred u he
    exact ⟨he, by rwa [Reached, hp], by rw [hcost, hc', hc]⟩
  · rw [hcost]
    exact h.least u (hprev ▸ hu)

theorem Known.congr (h : Known E w s L v) (hprev : L'.prev v = L.prev v)
    (hcost : L'.cost v = L.cost v)
    (hpred : ∀ u, E u v → L'.prev u = L.prev u ∧ L'.cost u = L.cost u) : Known E w s L' v :=
  h.imp_right fun h => h.congr hprev hcost hpred

theorem SourceLabel.congr (h : SourceLabel E s L) (hprev : L'.prev s = L.prev s)
    (hcost : L'.cost s = L.cost s) : SourceLabel E s L' :=
  ⟨h.no_edge, hprev.trans h.prev_eq, hcost.trans h.cost_eq⟩

section relabel

variable {rank : V → Nat}

theorem Known.frame (hrank : ∀ u v, E u v → rank u < rank v)
    (hsame : ∀ x, x ≠ v → L'.prev x = L.prev x ∧ L'.cost x = L.cost x) (h : Known E w s L u)
    (hu : rank u < rank v) : Known E w s L' u := by
  have hne : ∀ x, rank x < rank v → x ≠ v := fun x hx h => by subst h; omega
  obtain ⟨hp, hc⟩ := hsame u (hne u hu)
  exact h.congr hp hc fun x hx => hsame x (hne x (Nat.lt_trans (hrank x u hx) hu))

/-- `v` gets no vertex in front of it, as none has been reached. -/
theorem Solved.relabel_none (hrank : ∀ u v, E u v → rank u < rank v) (hv : v ≠ s)
    (hsame : ∀ x, x ≠ v → L'.prev x = L.prev x ∧ L'.cost x = L.cost x)
    (hpred : ∀ u, E u v → Known E w s L u) (hnone : L'.prev v = none)
    (hunreached : ∀ u, E u v → ¬ Reached s L u) : Solved E w s L' v := by
  refine .of_none hv (fun u hu => (hpred u hu).frame hrank hsame (hrank u v hu)) hnone
    fun u hu hr => hunreached u hu (hr.imp_right fun h => ?_)
  have hne : u ≠ v := fun h => by have := hrank u v hu; subst h; omega
  rwa [(hsame u hne).1] at h

/-- `v` gets the best of the reached vertices in front of it. -/
theorem Solved.relabel_min (hrank : ∀ u v, E u v → rank u < rank v) (hv : v ≠ s)
    (hs : SourceLabel E s L) (hsame : ∀ x, x ≠ v → L'.prev x = L.prev x ∧ L'.cost x = L.cost x)
    (hpred : ∀ u, E u v → Known E w s L u) (hprev : L'.prev v = some u) (he : E u v)
    (hu : Reached s L u) (hcost : L'.cost v = L.cost u + w u v)
    (hmin : ∀ u', E u' v → Reached s L u' → L.cost u + w u v ≤ L.cost u' + w u' v) :
    Solved E w s L' v := by
  have hne : ∀ u, E u v → u ≠ v := fun u hu h => by have := hrank u v hu; subst h; omega
  have hs' : SourceLabel E s L' := hs.congr (hsame s (Ne.symm hv)).1 (hsame s (Ne.symm hv)).2
  have hreached : ∀ u, E u v → (Reached s L' u ↔ Reached s L u) := fun u hu => by
    rw [Reached, Reached, (hsame u (hne u hu)).1]
  refine .of_min hv hs' (fun u hu => (hpred u hu).frame hrank hsame (hrank u v hu)) hprev he
    ((hreached u he).mpr hu) (by rw [hcost, (hsame u (hne u he)).2]) fun u' he' hr => ?_
  rw [(hsame u (hne u he)).2, (hsame u' (hne u' he')).2]
  exact hmin u' he' ((hreached u' he').mp hr)

end relabel

/-- Vertices of one rank are labelled one after the other. -/
theorem foldl_solved {f : Labels V → V → Labels V} {l : List V} {rank : V → Nat} {n : Nat}
    (hrank : ∀ u v, E u v → rank u < rank v) (hl : ∀ v ∈ l, v ≠ s ∧ rank v = n)
    (hother : ∀ L v x, x ≠ v → (f L v).prev x = L.prev x ∧ (f L v).cost x = L.cost x)
    (hf : ∀ L', ∀ v ∈ l, SourceLabel E s L' → (∀ u, E u v → Known E w s L' u) →
      (∀ x, rank x < n → L'.prev x = L.prev x ∧ L'.cost x = L.cost x) → Solved E w s (f L' v) v)
    (hs : SourceLabel E s L) (hpred : ∀ v ∈ l, ∀ u, E u v → Known E w s L u) :
    SourceLabel E s (l.foldl f L) ∧ (∀ v ∈ l, Solved E w s (l.foldl f L) v) ∧
      ∀ x ∉ l, (l.foldl f L).prev x = L.prev x ∧ (l.foldl f L).cost x = L.cost x := by
  induction l using List.reverseRecOn with
  | nil => exact ⟨hs, by simp, fun _ _ => ⟨rfl, rfl⟩⟩
  | append_singleton l v ih =>
    obtain ⟨hs', hsolved, hsame⟩ := ih (fun v hv => hl v (by simp [hv]))
      (fun L v hv => hf L v (by simp [hv])) (fun v hv => hpred v (by simp [hv]))
    rw [List.foldl_append, List.foldl_cons, List.foldl_nil]
    obtain ⟨hvs, hv⟩ := hl v (by simp)
    have hbelow : ∀ u, rank u < n → u ∉ l ∧ u ≠ v := fun u hu =>
      ⟨fun h => by have := (hl u (by simp [h])).2; omega, fun h => by subst h; omega⟩
    have hpred' : ∀ u, E u v → Known E w s (l.foldl f L) u := by
      intro u hu
      have hun : rank u < n := hv ▸ hrank u v hu
      obtain ⟨hp, hc⟩ := hsame u (hbelow u hun).1
      refine (hpred v (by simp) u hu).congr hp hc fun x hx => hsame x (hbelow x ?_).1
      exact Nat.lt_trans (hrank x u hx) hun
    have hstep := hf _ v (by simp) hs' hpred' fun x hx => hsame x (hbelow x hx).1
    obtain ⟨hps, hcs⟩ := hother (l.foldl f L) v s (Ne.symm hvs)
    refine ⟨hs'.congr hps hcs, fun v' hv' => ?_, fun x hx => ?_⟩
    · by_cases hvv : v' = v
      · exact hvv ▸ hstep
      · have hv'l : v' ∈ l := by simpa [hvv] using hv'
        obtain ⟨hp, hc⟩ := hother (l.foldl f L) v v' hvv
        refine (hsolved v' hv'l).congr hp hc fun u hu => hother _ _ u (hbelow u ?_).2
        exact (hl v' hv').2 ▸ hrank u v' hu
    · simp only [List.mem_append, List.mem_singleton, not_or] at hx
      obtain ⟨hp, hc⟩ := hother (l.foldl f L) v x hx.2
      obtain ⟨hp', hc'⟩ := hsame x hx.1
      exact ⟨hp.trans hp', hc.trans hc'⟩

/-! ## Choosing the best -/

/-- The first vertex with the least `f` of those that have been reached, if that is less than
`bound`. -/
def best (bound : Int) (reached : V → Bool) (f : V → Int) (l : List V) : Option V × Int :=
  l.foldl (fun acc v =>
    if reached v then if f v < acc.2 then (some v, f v) else acc else acc) (none, bound)

section best

variable {reached : V → Bool} {f : V → Int} {l : List V} {bound c : Int}

/-- What was chosen is from the list and costs least. -/
structure Best (reached : V → Bool) (f : V → Int) (l : List V) (bound : Int)
    (acc : Option V × Int) : Prop where
  none : acc.1 = none → acc.2 = bound
  some : ∀ v, acc.1 = some v → v ∈ l ∧ reached v = true ∧ acc.2 = f v ∧ f v < bound
  le : ∀ v ∈ l, reached v = true → acc.2 ≤ f v
  le_bound : acc.2 ≤ bound

theorem best_spec (bound : Int) (reached : V → Bool) (f : V → Int) (l : List V) :
    Best reached f l bound (best bound reached f l) := by
  induction l using List.reverseRecOn with
  | nil => exact ⟨fun _ => rfl, fun v hv => (by cases hv), by simp, Int.le_refl _⟩
  | append_singleton l v ih =>
    unfold best at ih ⊢
    rw [List.foldl_append]
    generalize List.foldl _ _ l = acc at ih ⊢
    simp only [List.foldl_cons, List.foldl_nil]
    have keep (h : reached v = true → acc.2 ≤ f v) : Best reached f (l ++ [v]) bound acc := by
      refine ⟨ih.none, fun u hu => ?_, fun u hu hr => ?_, ih.le_bound⟩
      · obtain ⟨hmem, hrest⟩ := ih.some u hu
        exact ⟨by simp [hmem], hrest⟩
      · rcases List.mem_append.mp hu with hu | hu
        · exact ih.le u hu hr
        · obtain rfl := List.mem_singleton.mp hu
          exact h hr
    split
    · next hr =>
      split
      · next hlt =>
        have hbound := ih.le_bound
        refine ⟨fun h => (by cases h), fun u hu => ?_, fun u hu hr' => ?_, ?_⟩
        · cases hu
          exact ⟨by simp, hr, rfl, by omega⟩
        · rcases List.mem_append.mp hu with hu | hu
          · have := ih.le u hu hr'
            dsimp only
            omega
          · obtain rfl := List.mem_singleton.mp hu
            exact Int.le_refl _
        · dsimp only
          omega
      · exact keep fun _ => by omega
    · next hr => exact keep fun h => absurd h hr

end best

/-! ## Paths -/

def pathCost (w : V → V → Int) : List V → Int
  | u :: v :: p => w u v + pathCost w (v :: p)
  | _ => 0

@[simp] theorem pathCost_nil : pathCost w [] = 0 := rfl

@[simp] theorem pathCost_singleton (u : V) : pathCost w [u] = 0 := rfl

theorem pathCost_cons_cons (u v : V) (p : List V) :
    pathCost w (u :: v :: p) = w u v + pathCost w (v :: p) := rfl

/-- The vertices `p` lead from `s` to `t`. -/
structure IsPath (E : V → V → Prop) (s t : V) (p : List V) : Prop where
  chain : p.IsChain E
  first : p.head? = some s
  last : p.getLast? = some t

theorem pathCost_concat (p : List V) (u v : V) :
    pathCost w (p ++ [u] ++ [v]) = pathCost w (p ++ [u]) + w u v := by
  induction p with
  | nil => simp [pathCost_cons_cons]
  | cons x p ih =>
    cases p with
    | nil => simp [pathCost_cons_cons]
    | cons y p =>
      simp only [List.cons_append, pathCost_cons_cons] at ih ⊢
      rw [ih]
      omega

theorem pathCost_append (p q : List V) (u : V) :
    pathCost w (p ++ u :: q) = pathCost w (p ++ [u]) + pathCost w (u :: q) := by
  induction q using List.reverseRecOn with
  | nil => simp
  | append_singleton q v ih =>
    rcases List.eq_nil_or_concat' q with rfl | ⟨q, x, rfl⟩
    · simpa [pathCost_cons_cons] using pathCost_concat (w := w) p u v
    · have hleft := pathCost_concat (w := w) (p ++ u :: q) x v
      have hright := pathCost_concat (w := w) (u :: q) x v
      simp only [List.cons_append, List.append_assoc, List.nil_append] at ih hleft hright ⊢
      rw [hleft, hright, ih, Int.add_assoc]

theorem pathCost_congr {w w' : V → V → Int} : ∀ {p : List V},
    p.IsChain (fun u v => w u v = w' u v) → pathCost w p = pathCost w' p
  | [], _ => rfl
  | [_], _ => rfl
  | u :: v :: p, h => by
    obtain ⟨huv, hrest⟩ := List.isChain_cons_cons.mp h
    simp [pathCost_cons_cons, huv, pathCost_congr hrest]

theorem pathCost_add (w w' : V → V → Int) : ∀ p : List V,
    pathCost (fun u v => w u v + w' u v) p = pathCost w p + pathCost w' p
  | [] => rfl
  | [_] => rfl
  | u :: v :: p => by
    simp [pathCost_cons_cons, pathCost_add w w' (v :: p)]
    omega

theorem pathCost_mul (k : Int) (w : V → V → Int) : ∀ p : List V,
    pathCost (fun u v => k * w u v) p = k * pathCost w p
  | [] => (Int.mul_zero k).symm
  | [_] => (Int.mul_zero k).symm
  | u :: v :: p => by
    rw [pathCost_cons_cons, pathCost_cons_cons, pathCost_mul k w (v :: p), Int.mul_add]

/-- Costs of the vertices alone: the first vertex costs nothing. -/
theorem pathCost_right (f : V → Int) : ∀ (u : V) (p : List V),
    pathCost (fun _ v => f v) (u :: p) = (p.map f).sum
  | _, [] => rfl
  | _, v :: p => by rw [pathCost_cons_cons, pathCost_right f v p, List.map_cons, List.sum_cons]

/-- Costs that are kept at the vertices are those of the path. -/
theorem eq_add_pathCost {c : V → Int} : ∀ {u v : V} {p : List V},
    (u :: p).IsChain (fun u v => c v = c u + w u v) → (u :: p).getLast? = some v →
      c v = c u + pathCost w (u :: p)
  | u, v, [], _, h => by
    obtain rfl : u = v := by simpa using h
    exact (Int.add_zero _).symm
  | u, v, x :: p, hchain, hlast => by
    obtain ⟨hux, hrest⟩ := List.isChain_cons_cons.mp hchain
    rw [List.getLast?_cons_cons] at hlast
    rw [eq_add_pathCost hrest hlast, hux, pathCost_cons_cons, Int.add_assoc]

theorem IsPath.concat {p : List V} (h : IsPath E s u p) (he : E u v) :
    IsPath E s v (p ++ [v]) ∧ pathCost w (p ++ [v]) = pathCost w p + w u v := by
  obtain ⟨hchain, hfirst, hlast⟩ := h
  rcases List.eq_nil_or_concat' p with rfl | ⟨q, x, rfl⟩
  · cases hfirst
  · obtain rfl : x = u := by simpa using hlast
    refine ⟨⟨?_, ?_, by simp⟩, pathCost_concat q x v⟩
    · rw [List.isChain_append]
      exact ⟨hchain, by simp, by simpa using he⟩
    · rw [List.head?_append, hfirst]
      rfl

theorem reaches_iff {a : Int} : Reaches E w s v a ↔ ∃ p, IsPath E s v p ∧ pathCost w p = a := by
  constructor
  · intro h
    induction h with
    | source => exact ⟨[s], ⟨by simp, rfl, rfl⟩, rfl⟩
    | step _ he ih =>
      obtain ⟨p, hp, rfl⟩ := ih
      obtain ⟨hpath, hcost⟩ := hp.concat (w := w) he
      exact ⟨_, hpath, hcost⟩
  · rintro ⟨p, hp, rfl⟩
    induction p using List.reverseRecOn generalizing v with
    | nil => cases hp.first
    | append_singleton p x ih =>
      obtain rfl : x = v := by simpa using hp.last
      rcases List.eq_nil_or_concat' p with rfl | ⟨q, u, rfl⟩
      · obtain rfl : x = s := by simpa using hp.first
        exact .source
      · have hchain := hp.chain
        rw [List.isChain_append] at hchain
        have hq : IsPath E s u (q ++ [u]) := by
          refine ⟨hchain.1, ?_, by simp⟩
          have hfirst := hp.first
          rwa [List.head?_append_of_ne_nil _ (by simp)] at hfirst
        rw [pathCost_concat]
        exact .step (ih hq) (hchain.2.2 u (by simp) x (by simp))

/-- **The labels lead back to the source.** -/
theorem exists_path {rank : V → Nat} (hrank : ∀ u v, E u v → rank u < rank v)
    (hs : SourceLabel E s L) (hknown : ∀ u v, E u v → Known E w s L u)
    (hv : Known E w s L v) (hr : Reached s L v) :
    ∃ p, IsPath E s v p ∧ pathCost w p = L.cost v ∧
      p.IsChain (fun u v => L.prev v = some u) := by
  induction hn : rank v using Nat.strong_induction_on generalizing v with
  | _ n ih =>
    by_cases hvs : v = s
    · subst hvs
      exact ⟨[v], ⟨by simp, rfl, rfl⟩, hs.cost_eq.symm, by simp⟩
    · have hsolved : Solved E w s L v := hv.resolve_left hvs
      obtain ⟨u, hu⟩ := Option.ne_none_iff_exists'.mp (hr.resolve_left hvs)
      obtain ⟨he, hur, hcost⟩ := hsolved.edge u hu
      obtain ⟨p, hp, hpcost, hchain⟩ :=
        ih (rank u) (hn ▸ hrank u v he) (hknown u v he) hur rfl
      obtain ⟨hpath, hpathcost⟩ := hp.concat (w := w) he
      refine ⟨p ++ [v], hpath, by rw [hpathcost, hpcost, hcost], ?_⟩
      rw [List.isChain_append]
      exact ⟨hchain, by simp, by simpa [hp.last] using hu⟩

/-- No path to a vertex with a right label is cheaper. -/
theorem Known.cost_le (hs : SourceLabel E s L) (hv : Known E w s L v) {p : List V}
    (hp : IsPath E s v p) : Reached s L v ∧ L.cost v ≤ pathCost w p := by
  have hreaches : Reaches E w s v (pathCost w p) := reaches_iff.mpr ⟨p, hp, rfl⟩
  have hr := hv.reached hreaches
  exact ⟨hr, (hv.least hs hr).2 _ hreaches⟩

/-! ## Linking a path forwards -/

/-- Goes back from `v` and makes `next` point forwards. The second result is the last vertex that
was reached behind `v`, if any. -/
def linkBack [DecidableEq V] (prev : V → Option V) :
    Nat → (V → Option V) → V → Option V → Option ((V → Option V) × Option V)
  | 0, _, _, _ => none
  | fuel + 1, next, v, last =>
    match prev v with
    | none => some (next, last)
    | some u => linkBack prev fuel (Function.update next u (some v)) u (some u)

/-- Behind a path, `next` leads along it. -/
theorem linkBack_path [DecidableEq V] {prev : V → Option V} (p : List V) :
    ∀ (fuel : Nat) (next : V → Option V) (v : V) (last : Option V),
    (p ++ [v]).IsChain (fun u v => prev v = some u) → (∀ h ∈ (p ++ [v]).head?, prev h = none) →
    (p ++ [v]).Nodup → p.length < fuel →
    ∃ next', linkBack prev fuel next v last = some (next', p.head?.or last) ∧
      (p ++ [v]).IsChain (fun u v => next' u = some v) ∧ ∀ x ∉ p, next' x = next x := by
  induction p using List.reverseRecOn with
  | nil =>
    intro fuel next v last _ hhead _ hfuel
    obtain ⟨n, rfl⟩ : ∃ n, fuel = n + 1 := ⟨fuel - 1, by simp at hfuel; omega⟩
    exact ⟨next, by simp [linkBack, hhead v (by simp)], by simp, fun _ _ => rfl⟩
  | append_singleton p u ih =>
    intro fuel next v last hchain hhead hnodup hfuel
    obtain ⟨n, rfl⟩ : ∃ n, fuel = n + 1 := ⟨fuel - 1, by simp at hfuel; omega⟩
    rw [List.isChain_append] at hchain
    have hu : prev v = some u := hchain.2.2 u (by simp) v (by simp)
    have hpu : (p ++ [u]).Nodup := (List.nodup_append.mp hnodup).1
    have hup : u ∉ p := fun h => (List.nodup_append.mp hpu).2.2 u h u (by simp) rfl
    have hhead' : ∀ h ∈ (p ++ [u]).head?, prev h = none := fun h hh =>
      hhead h (by rwa [List.head?_append_of_ne_nil _ (by simp)])
    obtain ⟨next', hlink, hnext, hother⟩ := ih n (Function.update next u (some v)) u (some u)
      hchain.1 hhead' hpu (by simp at hfuel; omega)
    refine ⟨next', ?_, ?_, ?_⟩
    · rw [linkBack]
      simp only [hu]
      rw [hlink]
      cases p <;> rfl
    · rw [List.isChain_append]
      refine ⟨hnext, by simp, ?_⟩
      intro x hx y hy
      obtain rfl : u = x := by simpa using hx
      obtain rfl : v = y := by simpa using hy
      simp [hother u hup]
    · intro x hx
      simp only [List.mem_append, List.mem_singleton, not_or] at hx
      rw [hother x hx.1, Function.update_of_ne hx.2]

end Infra.ShortestPath
