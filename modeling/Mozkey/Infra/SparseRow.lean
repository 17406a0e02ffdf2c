import Mathlib.Data.List.Basic
import Mathlib.Data.List.GetD
import Mathlib.Data.List.ReduceOption

/-!
# Sparse rows

A row in which most cells are empty, kept as two levels of bits and the values that are there:

* a bit for each chunk of `w` cells, set when one of them has a value
* a bit for each cell of the chunks that are set
* the values, in order

A cell is found by counting the set bits before it, twice (`Sparse.get`).
-/

namespace Infra

variable {α β : Type}

/-! ## Chunks -/

/-- The consecutive pieces of length `n`, the last one may be shorter. -/
def splitChunk (n : Nat) (l : List α) : List (List α) :=
  (List.range ((l.length + n - 1) / n)).map fun k => (l.drop (n * k)).take n

@[simp] theorem splitChunk_nil (n : Nat) : splitChunk n ([] : List α) = [] := by
  rcases Nat.eq_zero_or_pos n with rfl | hn
  · simp [splitChunk]
  · simp [splitChunk, Nat.div_eq_of_lt (show n - 1 < n by omega)]

theorem splitChunk_of_ne_nil {n : Nat} (hn : 0 < n) {l : List α} (h : l ≠ []) :
    splitChunk n l = l.take n :: splitChunk n (l.drop n) := by
  have hlen := List.length_pos_of_ne_nil h
  have hcount : (l.length + n - 1) / n = ((l.drop n).length + n - 1) / n + 1 := by
    rw [← Nat.add_div_right _ hn, List.length_drop]
    rcases Nat.le_total n l.length with hle | hle
    · rw [show l.length - n + n - 1 + n = l.length + n - 1 by omega]
    · rw [show l.length - n + n - 1 + n = 2 * n - 1 by omega,
        Nat.div_eq_of_lt_le (show 1 * n ≤ l.length + n - 1 by omega) (by omega),
        Nat.div_eq_of_lt_le (show 1 * n ≤ 2 * n - 1 by omega) (by omega)]
  rw [splitChunk, hcount, List.range_succ_eq_map, List.map_cons, List.map_map, splitChunk]
  refine congrArg _ (List.map_congr_left fun k _ => ?_)
  rw [Function.comp_apply, List.drop_drop, Nat.mul_succ, Nat.add_comm]

/-- **An induction over the pieces.** -/
theorem splitChunk_induction {n : Nat} (hn : 0 < n) {P : List α → List (List α) → Prop}
    (hnil : P [] []) (hcons : ∀ l, l ≠ [] → P (l.drop n) (splitChunk n (l.drop n)) →
      P l (l.take n :: splitChunk n (l.drop n))) (l : List α) : P l (splitChunk n l) := by
  induction hk : l.length using Nat.strongRecOn generalizing l with
  | ind k ih =>
    rcases eq_or_ne l [] with rfl | h
    · rw [splitChunk_nil]
      exact hnil
    · have hlen := List.length_pos_of_ne_nil h
      rw [splitChunk_of_ne_nil hn h]
      exact hcons l h (ih _ (by rw [← hk, List.length_drop]; omega) _ rfl)

theorem length_splitChunk (n : Nat) (l : List α) :
    (splitChunk n l).length = (l.length + n - 1) / n := by
  simp [splitChunk]

theorem flatten_splitChunk {n : Nat} (hn : 0 < n) (l : List α) : (splitChunk n l).flatten = l :=
  splitChunk_induction (P := fun l cs => cs.flatten = l) hn rfl
    (fun l _ ih => by rw [List.flatten_cons, ih, List.take_append_drop]) l

/-- All pieces have the same length when it divides the whole. -/
theorem length_of_mem_splitChunk {n : Nat} (hn : 0 < n) {l : List α} (h : n ∣ l.length) :
    ∀ c ∈ splitChunk n l, c.length = n := by
  revert h
  refine splitChunk_induction (P := fun l cs => n ∣ l.length → ∀ c ∈ cs, c.length = n) hn
    (fun _ c hc => absurd hc List.not_mem_nil) (fun l hl ih h c hc => ?_) l
  have hle := Nat.le_of_dvd (List.length_pos_of_ne_nil hl) h
  rcases List.mem_cons.mp hc with rfl | hc
  · simp [Nat.min_eq_left hle]
  · refine ih ?_ c hc
    simpa using Nat.dvd_sub h (Nat.dvd_refl n)

theorem map_splitChunk (f : α → β) (n : Nat) (l : List α) :
    (splitChunk n l).map (List.map f) = splitChunk n (l.map f) := by
  rw [splitChunk, splitChunk, List.map_map, List.length_map]
  exact List.map_congr_left fun k _ => by
    simp

/-! ## Sparse rows -/

structure Sparse (α : Type) where
  chunkBits : List Bool
  compactBits : List Bool
  values : List α
deriving Repr, DecidableEq

namespace Sparse

def empty : Sparse α := ⟨[], [], []⟩

def append (a b : Sparse α) : Sparse α :=
  ⟨a.chunkBits ++ b.chunkBits, a.compactBits ++ b.compactBits, a.values ++ b.values⟩

/-- One chunk: nothing but its bit when all its cells are empty. -/
def ofChunk (c : List (Option α)) : Sparse α :=
  if c.all Option.isNone then ⟨[false], [], []⟩ else ⟨[true], c.map Option.isSome, c.reduceOption⟩

def ofChunks : List (List (Option α)) → Sparse α
  | [] => empty
  | c :: cs => (ofChunk c).append (ofChunks cs)

/-- The bit of the cell `i` when its chunk is set, where each chunk is of `w` cells. -/
def position (w : Nat) (s : Sparse α) (i : Nat) : Nat :=
  (s.chunkBits.take (i / w)).count true * w + i % w

/-- The cell `i`, unless its value is missing. -/
def get (w : Nat) (s : Sparse α) (i : Nat) : Option (Option α) :=
  if s.chunkBits.getD (i / w) false then
    if s.compactBits.getD (s.position w i) false then
      s.values[(s.compactBits.take (s.position w i)).count true]?.map some
    else some none
  else some none

@[simp] theorem append_empty (a : Sparse α) : a.append empty = a := by
  simp [append, empty]

@[simp] theorem empty_append (a : Sparse α) : empty.append a = a := by
  simp [append, empty]

theorem append_assoc (a b c : Sparse α) : (a.append b).append c = a.append (b.append c) := by
  simp [append]

/-- The values before a cell are those of the cells before it. -/
theorem getElem?_reduceOption : ∀ (l : List (Option α)) (i : Nat) (a : α),
    l[i]? = some (some a) →
      l.reduceOption[((l.map Option.isSome).take i).count true]? = some a
  | [], i, a, h => by simp at h
  | x :: l, 0, a, h => by
    rw [List.getElem?_cons_zero, Option.some.injEq] at h
    simp [h]
  | none :: l, i + 1, a, h => by
    rw [List.getElem?_cons_succ] at h
    simpa using getElem?_reduceOption l i a h
  | some b :: l, i + 1, a, h => by
    rw [List.getElem?_cons_succ] at h
    simpa using getElem?_reduceOption l i a h

theorem length_reduceOption (c : List (Option α)) :
    c.reduceOption.length = (c.map Option.isSome).count true := by
  rw [List.reduceOption_length_eq, ← List.countP_eq_length_filter, List.count, List.countP_map]
  exact List.countP_congr fun x _ => by simp

/-- In the first chunk. -/
theorem get_ofChunk_append {w i : Nat} {l : List (Option α)} (s : Sparse α) (hw : i < w)
    (h : i < l.length) : ((ofChunk l).append s).get w i = some l[i] := by
  have hdiv : i / w = 0 := Nat.div_eq_of_lt hw
  have hmod : i % w = i := Nat.mod_eq_of_lt hw
  unfold ofChunk get position
  split
  · next hnone =>
    have := List.all_eq_true.mp hnone l[i] (List.getElem_mem h)
    simp [append, hdiv, Option.isNone_iff_eq_none.mp this]
  · have hbit : ((l.map Option.isSome) ++ s.compactBits)[i]? = some (l[i]).isSome := by
      rw [List.getElem?_append_left (by simpa using h)]
      simp [h]
    have htake : ((l.map Option.isSome) ++ s.compactBits).take i
        = (l.map Option.isSome).take i :=
          List.take_append_of_le_length (by simpa using Nat.le_of_lt h)
    cases hcell : l[i] with
    | none => simp [append, hdiv, hmod, hbit, hcell]
    | some a =>
      have hvalue := getElem?_reduceOption l i a (by rw [List.getElem?_eq_getElem h, hcell])
      have hlt := (List.getElem?_eq_some_iff.mp hvalue).1
      simp [append, hdiv, hmod, hbit, hcell, htake, List.getElem?_append_left hlt, hvalue]

/-- Behind the first chunk. -/
theorem get_ofChunk_append_of_le {w i : Nat} {c : List (Option α)} (s : Sparse α)
    (hpos : 0 < w) (hc : c.length = w) (h : w ≤ i) :
    ((ofChunk c).append s).get w i = s.get w (i - w) := by
  obtain ⟨k, rfl⟩ := Nat.exists_eq_add_of_le h
  have hdiv : (w + k) / w = k / w + 1 := by rw [Nat.add_comm, Nat.add_div_right k hpos]
  have hmod : (w + k) % w = k % w := Nat.add_mod_left w k
  have hsub : w + k - w = k := Nat.add_sub_cancel_left ..
  unfold ofChunk get position
  split
  · simp [append, hdiv, hmod, hsub]
  · have hlen : (c.map Option.isSome).length = w := by rw [List.length_map, hc]
    have hposition : ∀ n, (n + 1) * w + k % w = (c.map Option.isSome).length + (n * w + k % w) := by
      intro n
      rw [hlen, Nat.succ_mul]
      omega
    simp only [append, hdiv, hmod, hsub, List.cons_append, List.nil_append, List.getD_cons_succ,
      List.take_succ_cons, List.count_cons_self, hposition]
    rw [List.take_length_add_append, List.count_append, ← length_reduceOption,
      List.getElem?_append_right (Nat.le_add_right _ _), Nat.add_sub_cancel_left,
      List.getD_append_right _ _ _ _ (Nat.le_add_right _ _), Nat.add_sub_cancel_left]

/-- **Every cell is read back**, whatever follows the three parts. -/
theorem get_ofChunks_append {w : Nat} (hw : 0 < w) (l : List (Option α)) (s : Sparse α) :
    ∀ (i : Nat) (h : i < l.length),
      ((ofChunks (splitChunk w l)).append s).get w i = some l[i] := by
  refine splitChunk_induction (P := fun l cs =>
    ∀ (i : Nat) (h : i < l.length), ((ofChunks cs).append s).get w i = some l[i]) hw
    (fun i h => absurd h (Nat.not_lt_zero i)) (fun l _ ih i h => ?_) l
  rw [ofChunks, append_assoc]
  rcases Nat.lt_or_ge i w with hlt | hge
  · rw [get_ofChunk_append _ hlt (by rw [List.length_take]; omega), List.getElem_take]
  · rw [get_ofChunk_append_of_le _ hw (by rw [List.length_take]; omega) hge,
      ih (i - w) (by rw [List.length_drop]; omega), List.getElem_drop]
    congr 2
    omega

/-- The bit of a cell whose chunk is set is there. -/
theorem position_lt {w : Nat} (hw : 0 < w) (l : List (Option α)) :
    ∀ i < l.length, (ofChunks (splitChunk w l)).chunkBits.getD (i / w) false = true →
      (ofChunks (splitChunk w l)).position w i <
        (ofChunks (splitChunk w l)).compactBits.length := by
  refine splitChunk_induction (P := fun l cs => ∀ i < l.length,
    (ofChunks cs).chunkBits.getD (i / w) false = true →
      (ofChunks cs).position w i < (ofChunks cs).compactBits.length) hw
    (fun i h => absurd h (Nat.not_lt_zero i)) (fun l _ ih i h hbit => ?_) l
  rw [ofChunks] at hbit ⊢
  rcases Nat.lt_or_ge i w with hlt | hge
  · have hdiv : i / w = 0 := Nat.div_eq_of_lt hlt
    cases hc : (l.take w).all Option.isNone with
    | true => simp [ofChunk, append, hdiv, hc] at hbit
    | false =>
      simp [ofChunk, position, append, hdiv, hc, Nat.mod_eq_of_lt hlt]
      omega
  · obtain ⟨k, rfl⟩ := Nat.exists_eq_add_of_le hge
    have hdiv : (w + k) / w = k / w + 1 := by rw [Nat.add_comm, Nat.add_div_right k hw]
    have hlen : k < (l.drop w).length := by
      simp
      omega
    cases hc : (l.take w).all Option.isNone with
    | true =>
      have hrest := ih k hlen (by simpa [ofChunk, append, hdiv, hc] using hbit)
      simpa [ofChunk, position, append, hdiv, hc, Nat.add_mod_left] using hrest
    | false =>
      have hrest := ih k hlen (by simpa [ofChunk, append, hdiv, hc] using hbit)
      rw [position] at hrest
      simp only [ofChunk, position, append, hdiv, hc, Bool.false_eq_true, if_false,
        List.cons_append, List.nil_append, List.take_succ_cons, List.count_cons_self,
        Nat.add_mod_left, List.length_append, List.length_map, List.length_take, Nat.succ_mul]
      omega

theorem length_chunkBits : ∀ cs : List (List (Option α)), (ofChunks cs).chunkBits.length = cs.length
  | [] => rfl
  | c :: cs => by
    rw [ofChunks, append, List.length_append, length_chunkBits cs, List.length_cons, ofChunk]
    split <;> simp [Nat.add_comm]

theorem length_compactBits_le : ∀ cs : List (List (Option α)),
    (ofChunks cs).compactBits.length ≤ cs.flatten.length
  | [] => Nat.le_refl _
  | c :: cs => by
    have ih := length_compactBits_le cs
    rw [ofChunks, append, List.length_append, List.flatten_cons, List.length_append, ofChunk]
    split
    · exact Nat.le_trans (by simp) (Nat.le_trans ih (Nat.le_add_left _ _))
    · rw [List.length_map]
      omega

end Sparse

end Infra
