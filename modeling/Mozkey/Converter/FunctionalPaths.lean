import Mozkey.Converter.RankingEvidence
import Mozkey.Infra.ForwardSweep

/-!
# What the functional reachability says

`BuildFunctionalReachability` in `converter/immutable_converter.cc` sweeps over the key once for
each start. The table answers exactly the questions whether functional nodes lead from one position
to another (`buildFunctionalReachability_exact`).
-/

namespace Mozkey.Converter

open Infra Base

variable {pm : PosMatcher} {l : Lattice} {v : NodeId} {pos s e : Nat}

/-- The nodes lead from `s` to `e`. Each is functional and begins where the one before it ends. -/
def FunctionalPath (pm : PosMatcher) (l : Lattice) : Nat → List NodeId → Nat → Prop
  | s, [], e => s = e
  | s, v :: path, e => v ∈ l.beginNodes s ∧ isKanaFunctionalNode pm (l.node v) = true ∧
    FunctionalPath pm l (l.node v).endPos path e

/-- The positions that the loop over the nodes at `pos` marks. -/
def functionalNext (pm : PosMatcher) (l : Lattice) (pos : Nat) : List Nat :=
  ((l.beginNodes pos).filter fun v =>
    !(l.key.length < (l.node v).endPos || (l.node v).endPos = pos ||
      !isKanaFunctionalNode pm (l.node v))).map fun v => (l.node v).endPos

theorem mem_functionalNext {q : Nat} : q ∈ functionalNext pm l pos ↔
    ∃ v ∈ l.beginNodes pos, (l.node v).endPos = q ∧ q ≤ l.key.length ∧ q ≠ pos ∧
      isKanaFunctionalNode pm (l.node v) = true := by
  simp only [functionalNext, List.mem_map, List.mem_filter, Bool.not_eq_true', Bool.or_eq_false_iff,
    decide_eq_false_iff_not, Nat.not_lt, Bool.not_eq_false']
  constructor
  · rintro ⟨v, ⟨hmem, ⟨hle, hne⟩, hfun⟩, rfl⟩
    exact ⟨v, hmem, rfl, hle, hne, hfun⟩
  · rintro ⟨v, hmem, rfl, hle, hne, hfun⟩
    exact ⟨v, ⟨hmem, ⟨hle, hne⟩, hfun⟩, rfl⟩

theorem foldl_marks (p : NodeId → Bool) (f : NodeId → Nat) : ∀ (nodes : List NodeId)
    (row : List Bool), nodes.foldl (fun row v => if p v then row else row.set (f v) true) row =
      markAll row ((nodes.filter fun v => !p v).map f)
  | [], _ => rfl
  | v :: nodes, row => by
    rw [List.foldl_cons, foldl_marks p f nodes, List.filter_cons]
    cases hp : p v <;> simp [markAll]

theorem functionalRow_eq (start : Nat) :
    functionalRow pm l start = sweep (functionalNext pm l) l.key.length start := by
  unfold functionalRow sweep
  dsimp only
  congr 1
  funext row pos
  unfold sweepStep functionalNext
  split
  · exact foldl_marks _ _ _ row
  · rfl

/-- Where a functional node begins, and where it ends. -/
theorem span_of_functional (hkey : l.key.length < 2 ^ 16) (hv : v ∈ l.beginNodes pos)
    (hfun : isKanaFunctionalNode pm (l.node v) = true) :
    (l.node v).endPos ≤ l.key.length ∧ pos ≤ (l.node v).endPos ∧
      (pos < l.key.length → pos < (l.node v).endPos) := by
  obtain ⟨hhas, hbos, hstart⟩ := Lattice.mem_beginNodes.mp hv
  simp only [isKanaFunctionalNode, Bool.and_eq_true, decide_eq_true_eq] at hfun
  obtain ⟨⟨⟨⟨hnor, hne⟩, _⟩, _⟩, _⟩ := hfun
  cases v with
  | bos => exact absurd rfl hbos
  | eos => exact absurd hnor (by simp [Lattice.node, Lattice.eosNode])
  | node i =>
    have he : l.inserted[i]? = some l.inserted[i] := List.getElem?_eq_getElem hhas
    have hmem := List.mem_of_getElem? he
    have hinside := l.inside _ hmem
    have hplaced := (l.placed _ hmem).2
    simp only [Lattice.start, he] at hstart
    simp only [Lattice.node, he] at hne ⊢
    have hlen : 0 < l.inserted[i].2.key.length := by
      cases hk : l.inserted[i].2.key with
      | nil => simp [hk] at hne
      | cons c rest => simp
    rw [hplaced, Node.stop, Nat.mod_eq_of_lt (by omega)]
    omega

theorem lt_of_mem_functionalNext (hkey : l.key.length < 2 ^ 16) (p : Nat) :
    ∀ q ∈ functionalNext pm l p, p < q := by
  intro q hq
  obtain ⟨v, hv, rfl, _, hne, hfun⟩ := mem_functionalNext.mp hq
  have hspan := span_of_functional hkey hv hfun
  omega

theorem exists_path_of_leads (h : Leads (functionalNext pm l) s e) :
    ∃ path, FunctionalPath pm l s path e := by
  induction h using Relation.ReflTransGen.head_induction_on with
  | refl => exact ⟨[], rfl⟩
  | head hstep _ ih =>
    obtain ⟨path, hpath⟩ := ih
    obtain ⟨v, hv, rfl, _, _, hfun⟩ := mem_functionalNext.mp hstep
    exact ⟨v :: path, hv, hfun, hpath⟩

theorem leads_of_path (hkey : l.key.length < 2 ^ 16) : ∀ {path : List NodeId} {s : Nat},
    FunctionalPath pm l s path e → Leads (functionalNext pm l) s e
  | [], _, h => by
    rw [show _ = e from h]
  | v :: path, s, ⟨hv, hfun, hrest⟩ => by
    have ih := leads_of_path hkey hrest
    obtain ⟨hle, _, _⟩ := span_of_functional hkey hv hfun
    -- Behind the last character nothing moves on.
    by_cases hs : (l.node v).endPos = s
    · rwa [hs] at ih
    · exact .head (mem_functionalNext.mpr ⟨v, hv, rfl, hle, hs, hfun⟩) ih

theorem le_of_path (hkey : l.key.length < 2 ^ 16) :
    ∀ {path : List NodeId} {s : Nat}, s ≤ l.key.length → FunctionalPath pm l s path e →
    e ≤ l.key.length
  | [], _, hs, h => h ▸ hs
  | _ :: _, _, _, ⟨hv, hfun, hrest⟩ =>
    le_of_path hkey (span_of_functional hkey hv hfun).1 hrest

theorem hasFunctionalPathInRange_eq {beginPos : Nat} (hbegin : beginPos ≤ s)
    (hs : s ≤ l.key.length) :
    hasFunctionalPathInRange (buildFunctionalReachability pm l beginPos) s e =
      (sweep (functionalNext pm l) l.key.length s).getD e false := by
  have hlt : s < (buildFunctionalReachability pm l beginPos).length := by
    simpa [buildFunctionalReachability] using Nat.lt_succ_of_le hs
  have hrow : (buildFunctionalReachability pm l beginPos).getD s [] = functionalRow pm l s := by
    rw [List.getD_eq_getElem _ _ hlt]
    simp [buildFunctionalReachability, hbegin]
  rw [hasFunctionalPathInRange, hrow, functionalRow_eq]

/-- **A functional path is found exactly when there is one.** `MakeLattice` makes no lattice of
1024 bytes or more, and positions are kept as `uint16_t`. -/
theorem buildFunctionalReachability_exact {beginPos : Nat} (hkey : l.key.length < 2 ^ 16)
    (hbegin : beginPos ≤ s) (hs : s ≤ l.key.length) :
    hasFunctionalPathInRange (buildFunctionalReachability pm l beginPos) s e = true ↔
      e = s ∨ ∃ path, path ≠ [] ∧ FunctionalPath pm l s path e := by
  rw [hasFunctionalPathInRange_eq hbegin hs]
  have hpath : Leads (functionalNext pm l) s e ↔
      e = s ∨ ∃ path, path ≠ [] ∧ FunctionalPath pm l s path e := by
    constructor
    · intro h
      obtain ⟨path, hpath⟩ := exists_path_of_leads h
      cases path with
      | nil => exact .inl (Eq.symm hpath)
      | cons v path => exact .inr ⟨v :: path, by simp, hpath⟩
    · rintro (rfl | ⟨path, _, hpath⟩)
      · exact .refl
      · exact leads_of_path hkey hpath
  rw [← hpath]
  by_cases he : e ≤ l.key.length
  · exact sweep_iff (lt_of_mem_functionalNext hkey) hs he
  · constructor
    · intro h
      have hlen : (sweep (functionalNext pm l) l.key.length s).length = l.key.length + 1 :=
        length_sweep
      rw [List.getD_eq_default _ _ (by omega)] at h
      exact absurd h (by decide)
    · intro h
      obtain ⟨path, hpath⟩ := exists_path_of_leads h
      exact absurd (le_of_path hkey hs hpath) he

/-- A particle behind a particle. -/
def niWa : Lattice :=
  let particle (text : String) : Node :=
    { lid := 1, rid := 1, key := utf8 text, value := utf8 text }
  ((Lattice.setKey (utf8 "には") 0).insert 0 (particle "に") (by decide)).insert 3 (particle "は")
    (by decide)

theorem buildFunctionalReachability_exact_niWa :
    hasFunctionalPathInRange
      (buildFunctionalReachability { isFunctional := fun id => id = 1 } niWa 0) 0 6 = true ↔
      6 = 0 ∨ ∃ path, path ≠ [] ∧
        FunctionalPath { isFunctional := fun id => id = 1 } niWa 0 path 6 :=
  buildFunctionalReachability_exact (by decide) (by decide) (by decide)

end Mozkey.Converter
