import Mozkey.Zenz.ProtectedSpan
import Mozkey.Infra.EditDistance

/-!
# Repairing a selected system name

`TryRepairSelectedSystemName` of `session/zenz_adoption_policy.cc`. The name is looked for in
the output by aligning both texts, and put back when the alignment leaves no choice.

`forward[i][j]` is the edit distance of the first `i` and `j` characters, `backward[i][j]` that
of the characters from `i` and `j` on (`entry_forwardTable`, `entry_backwardTable`), so the sum of
two entries is the distance of the texts exactly where an optimal edit script passes
(`uniqueNameRepairBoundary_spec`).
-/

namespace Mozkey.Zenz.AdoptionPolicy

open Infra Base

/-! ## Characters and offsets -/

structure NameRepairScalars where
  chars : List Nat
  /-- Where each character begins, and the length of the text. -/
  byteOffsets : List Nat
deriving DecidableEq

def decodeNameRepairScalars (text : Bytes) : Option NameRepairScalars :=
  let next : Bytes → Option ((Nat × Nat) × Nat) := fun s =>
    (decodeOneUtf8 s).map fun (c, len) => ((c, len), len)
  let (chars, unread) := walk next text
  if !unread.isEmpty || 128 < chars.length then none
  else some ⟨chars.map Prod.fst, (chars.map Prod.snd).scanl (· + ·) 0⟩

/-! ## Edit distances -/

/-- The entries of a row behind `left`. `above` is the row above from the column of `left` on. -/
def rowFrom (c : Nat) : Nat → List Nat → List Nat → List Nat
  | left, diagonal :: up :: above, t :: target =>
    let entry := min (min (up + 1) (left + 1)) (diagonal + if c = t then 0 else 1)
    entry :: rowFrom c entry (up :: above) target
  | _, _, _ => []

/-- The row of character `c`, under the row `above`. -/
def nextRow (target : List Nat) (above : List Nat) (c : Nat) : List Nat :=
  let left := above.headD 0 + 1
  left :: rowFrom c left above target

def forwardTable (source target : List Nat) : List (List Nat) :=
  source.scanl (nextRow target) (List.range (target.length + 1))

/-- The distances of the reversed texts, read from the end. -/
def backwardTable (source target : List Nat) : List (List Nat) :=
  ((forwardTable source.reverse target.reverse).map List.reverse).reverse

def entry (table : List (List Nat)) (i j : Nat) : Nat := (table.getD i []).getD j 0

/-- The only column in which the boundary lies on an optimal path. -/
def uniqueNameRepairBoundary (forward backward : List (List Nat)) (sourceIndex distance : Nat) :
    Option Nat :=
  let columns := (List.range (forward.getD sourceIndex []).length).filter fun j =>
    entry forward sourceIndex j + entry backward sourceIndex j = distance
  match columns with
  | [j] => some j
  | _ => none

/-! ## The repair -/

/-- A small spelling change that lies on an optimal path itself. -/
def isSmallNameChange (forward backward : List (List Nat)) (name window : List Nat)
    (nameBegin nameEnd targetBegin targetEnd distance : Nat) : Bool :=
  let substitutions := (name.zip window).countP fun (a, b) => a != b
  let equalChars := (name.zip window).countP fun (a, b) => a == b
  let allowedSubstitutions := if 5 ≤ name.length then 2 else 1
  !(substitutions == 0 || allowedSubstitutions < substitutions || equalChars == 0 ||
    entry forward nameBegin targetBegin + substitutions + entry backward nameEnd targetEnd
      != distance)

/-- The bytes of the output that spell the name. -/
def alignedName (source target : NameRepairScalars) (nameBeginByte nameEndByte : Nat) :
    Option (Nat × Nat) := do
  let nameBegin ← source.byteOffsets.idxOf? nameBeginByte
  let nameEnd ← source.byteOffsets.idxOf? nameEndByte
  let nameLength := nameEnd - nameBegin
  if nameLength < 2 || 16 < nameLength then none
  else
    let forward := forwardTable source.chars target.chars
    let backward := backwardTable source.chars target.chars
    let distance := entry forward source.chars.length target.chars.length
    if 8 < distance then none
    else
      let targetBegin ← uniqueNameRepairBoundary forward backward nameBegin distance
      let targetEnd ← uniqueNameRepairBoundary forward backward nameEnd distance
      if targetEnd < targetBegin || targetEnd - targetBegin ≠ nameLength then none
      else
        let name := (source.chars.drop nameBegin).take nameLength
        let window := (target.chars.drop targetBegin).take nameLength
        if !isSmallNameChange forward backward name window nameBegin nameEnd targetBegin targetEnd
            distance then none
        else some (target.byteOffsets.getD targetBegin 0, target.byteOffsets.getD targetEnd 0)

/-- The value at an offset of the text is the surface. -/
def isAtOffset (text surface : Bytes) (offset : Nat) : Bool :=
  offset ≤ text.length && (text.drop offset).take surface.length == surface

def tryRepairSelectedSystemName (mozcValue : Bytes) (span : ProtectedConversionSpan)
    (zenzValue : Bytes) : Option Bytes := do
  let offset ← span.sourceValueOffset
  if span.value.isEmpty || !isAtOffset mozcValue span.value offset ||
      countOccurrences mozcValue span.value ≠ 1 || countOccurrences zenzValue span.value ≠ 0 then
    none
  else
    let source ← decodeNameRepairScalars mozcValue
    let target ← decodeNameRepairScalars zenzValue
    let (beginByte, endByte) ← alignedName source target offset (offset + span.value.length)
    let repaired := zenzValue.take beginByte ++ span.value ++ zenzValue.drop endByte
    -- a repair that changes nothing is a rejection
    if repaired = mozcValue || countOccurrences repaired span.value ≠ 1 then none
    else some repaired

/-! ## Forward -/

/-- The distances of `p` to the fronts of a text of which `front` has been read. -/
def prefixDistances (p : List Nat) : List Nat → List Nat → List Nat
  | front, [] => [editDistance p front]
  | front, b :: t => editDistance p front :: prefixDistances p (front ++ [b]) t

theorem prefixDistances_eq_cons (p front t : List Nat) :
    prefixDistances p front t = editDistance p front :: (prefixDistances p front t).tail := by
  cases t <;> rfl

theorem length_prefixDistances (p : List Nat) : ∀ front t : List Nat,
    (prefixDistances p front t).length = t.length + 1
  | _, [] => rfl
  | front, b :: t => by
    simp [prefixDistances, length_prefixDistances p (front ++ [b]) t]

theorem getD_prefixDistances (p : List Nat) : ∀ (front t : List Nat) {j : Nat}, j ≤ t.length →
    (prefixDistances p front t).getD j 0 = editDistance p (front ++ t.take j)
  | front, [], j, hj => by
    obtain rfl : j = 0 := Nat.le_zero.mp hj
    simp [prefixDistances]
  | front, b :: t, 0, _ => by simp [prefixDistances]
  | front, b :: t, j + 1, hj => by
    have ih := getD_prefixDistances p (front ++ [b]) t (Nat.le_of_succ_le_succ hj)
    rw [prefixDistances, List.getD_cons_succ, ih, List.take_succ_cons, List.append_assoc]
    rfl

theorem rowFrom_prefixDistances (p : List Nat) (a : Nat) : ∀ front t : List Nat,
    rowFrom a (editDistance (p ++ [a]) front) (prefixDistances p front t) t =
      (prefixDistances (p ++ [a]) front t).tail
  | _, [] => by rw [rowFrom] <;> simp [prefixDistances]
  | front, b :: t => by
    have ih := rowFrom_prefixDistances p a (front ++ [b]) t
    have hentry := editDistance_concat a b p front
    rw [prefixDistances, prefixDistances, List.tail_cons,
      prefixDistances_eq_cons (p ++ [a]) (front ++ [b]) t, ← ih,
      prefixDistances_eq_cons p (front ++ [b]) t, rowFrom, hentry]

theorem nextRow_prefixDistances (target p : List Nat) (a : Nat) :
    nextRow target (prefixDistances p [] target) a = prefixDistances (p ++ [a]) [] target := by
  have hleft : (prefixDistances p [] target).headD 0 + 1 = editDistance (p ++ [a]) [] := by
    rw [prefixDistances_eq_cons, List.headD_cons, editDistance_nil_right, editDistance_nil_right,
      List.length_append, List.length_singleton]
  rw [nextRow, hleft, rowFrom_prefixDistances, ← prefixDistances_eq_cons]

theorem prefixDistances_nil : ∀ front t : List Nat,
    prefixDistances [] front t = List.range' front.length (t.length + 1)
  | front, [] => by simp [prefixDistances, List.range']
  | front, b :: t => by
    rw [prefixDistances, prefixDistances_nil (front ++ [b]) t, editDistance_nil_left,
      List.length_append, List.length_singleton, List.length_cons]
    rfl

theorem getD_scanl_nextRow (target : List Nat) : ∀ (l p : List Nat) {i : Nat}, i ≤ l.length →
    (l.scanl (nextRow target) (prefixDistances p [] target)).getD i [] =
      prefixDistances (p ++ l.take i) [] target
  | [], p, i, hi => by
    obtain rfl : i = 0 := Nat.le_zero.mp hi
    simp
  | a :: l, p, 0, _ => by simp
  | a :: l, p, i + 1, hi => by
    rw [List.scanl_cons, List.getD_cons_succ, nextRow_prefixDistances,
      getD_scanl_nextRow target l (p ++ [a]) (Nat.le_of_succ_le_succ hi), List.take_succ_cons,
      List.append_assoc]
    rfl

theorem getD_forwardTable (source target : List Nat) {i : Nat} (hi : i ≤ source.length) :
    (forwardTable source target).getD i [] = prefixDistances (source.take i) [] target := by
  have hfirst : List.range (target.length + 1) = prefixDistances [] [] target := by
    rw [prefixDistances_nil, List.range_eq_range', List.length_nil]
  rw [forwardTable, hfirst, getD_scanl_nextRow target source [] hi, List.nil_append]

/-- **The forward table holds the distances of the fronts.** -/
theorem entry_forwardTable (source target : List Nat) {i j : Nat} (hi : i ≤ source.length)
    (hj : j ≤ target.length) :
    entry (forwardTable source target) i j =
      editDistance (source.take i) (target.take j) := by
  rw [entry, getD_forwardTable source target hi, getD_prefixDistances _ _ _ hj, List.nil_append]

/-! ## Backward -/

theorem getD_reverse {β : Type} (l : List β) (d : β) {i : Nat} (hi : i < l.length) :
    l.reverse.getD i d = l.getD (l.length - 1 - i) d := by
  simp [List.getD_eq_getElem?_getD, List.getElem?_reverse hi]

theorem take_reverse_sub {s : List Nat} {i : Nat} (hi : i ≤ s.length) :
    s.reverse.take (s.length - i) = (s.drop i).reverse := by
  rw [List.take_reverse]
  congr 2
  omega

/-- **The backward table holds the distances of the rests.** -/
theorem entry_backwardTable (source target : List Nat) {i j : Nat} (hi : i ≤ source.length)
    (hj : j ≤ target.length) :
    entry (backwardTable source target) i j =
      editDistance (source.drop i) (target.drop j) := by
  have hrows : (forwardTable source.reverse target.reverse).length = source.length + 1 := by
    simp [forwardTable]
  have hi' : source.length - i ≤ source.reverse.length := by
    rw [List.length_reverse]
    omega
  have hj' : target.length - j ≤ target.reverse.length := by
    rw [List.length_reverse]
    omega
  have hrow : (backwardTable source target).getD i [] =
      (prefixDistances (source.reverse.take (source.length - i)) [] target.reverse).reverse := by
    rw [backwardTable, getD_reverse _ _ (by rw [List.length_map, hrows]; omega), List.length_map,
      hrows, ← getD_forwardTable source.reverse target.reverse hi', List.getD_eq_getElem?_getD,
      List.getElem?_map, List.getD_eq_getElem?_getD]
    have hindex : source.length + 1 - 1 - i = source.length - i := by omega
    rw [hindex]
    cases (forwardTable source.reverse target.reverse)[source.length - i]? <;> rfl
  have hcolumns := length_prefixDistances (source.reverse.take (source.length - i)) []
    target.reverse
  rw [List.length_reverse] at hcolumns
  have hindex : target.length + 1 - 1 - j = target.length - j := by omega
  rw [entry, hrow, getD_reverse _ _ (by rw [hcolumns]; omega), hcolumns, hindex,
    getD_prefixDistances _ _ _ hj', List.nil_append, take_reverse_sub hi, take_reverse_sub hj,
    editDistance_reverse]

/-! ## Boundaries -/

/-- The columns of a boundary are those through which an optimal script passes. -/
theorem uniqueNameRepairBoundary_spec {source target : List Nat} {i j : Nat}
    (hi : i ≤ source.length)
    (h : uniqueNameRepairBoundary (forwardTable source target) (backwardTable source target) i
      (entry (forwardTable source target) source.length target.length) = some j) :
    j ≤ target.length ∧
      editDistance (source.take i) (target.take j) + editDistance (source.drop i) (target.drop j) =
        editDistance source target ∧
      ∀ k, (∃ A : EditScript source target, A.cost = editDistance source target ∧ A.Passes i k) ↔
        k = j := by
  have hdistance : entry (forwardTable source target) source.length target.length =
      editDistance source target := by
    simp [entry_forwardTable _ _ (Nat.le_refl _) (Nat.le_refl _)]
  have hlength : ((forwardTable source target).getD i []).length = target.length + 1 := by
    rw [getD_forwardTable source target hi, length_prefixDistances]
  unfold uniqueNameRepairBoundary at h
  rw [hdistance, hlength] at h
  dsimp only at h
  split at h
  · next column hcolumns =>
    obtain rfl := Option.some.inj h
    -- the filter is the list of the columns where the distances add up
    have hmem : ∀ k, k ≤ target.length →
        (editDistance (source.take i) (target.take k) +
          editDistance (source.drop i) (target.drop k) = editDistance source target ↔
            k = column) := by
      intro k hk
      have hfilter : k ∈ (List.range (target.length + 1)).filter (fun j =>
          entry (forwardTable source target) i j + entry (backwardTable source target) i j =
            editDistance source target) ↔ k = column := by
        simp [hcolumns]
      rw [List.mem_filter, List.mem_range, decide_eq_true_eq, entry_forwardTable _ _ hi hk,
        entry_backwardTable _ _ hi hk] at hfilter
      rw [← hfilter]
      exact ⟨fun h => ⟨by omega, h⟩, fun h => h.2⟩
    have hcolumn : column ≤ target.length := by
      have hin : column ∈ (List.range (target.length + 1)).filter (fun j =>
          entry (forwardTable source target) i j + entry (backwardTable source target) i j =
            editDistance source target) := by
        rw [hcolumns]
        exact List.mem_singleton_self column
      have := List.mem_range.mp (List.mem_filter.mp hin).1
      omega
    refine ⟨hcolumn, (hmem column hcolumn).mpr rfl, fun k => ?_⟩
    constructor
    · rintro ⟨A, hA, hpass⟩
      have hk := A.passes_le hpass
      exact (hmem k hk.2).mp ((optimal_passes_iff hi hk.2).mp ⟨A, hA, hpass⟩)
    · rintro rfl
      exact (optimal_passes_iff hi hcolumn).mpr ((hmem _ hcolumn).mpr rfl)
  · cases h

end Mozkey.Zenz.AdoptionPolicy
