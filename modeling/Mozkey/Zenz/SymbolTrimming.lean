import Mathlib.Data.List.DropRight
import Mozkey.Zenz.SymbolStyle

/-!
# Trimming the symbols at the end

`SuppressUnrequestedTrailingSymbols` goes from the end and removes a symbol as long as its group
has more of them than the key or Mozc's value end with. What it has counted it does not count
down for symbols it keeps, so `counts - allowed` is what is left to be removed
(`removeUnrequested_spec`).

## Main results

* `repair_restores_and_trims` — the repair changes styles and the end of the text only
-/

namespace Mozkey.Zenz.OutputValidator

open Infra Base

/-! ## The symbols at the end -/

def isTrailingSymbol (cp : Nat) : Bool := (findUserControlledTrailingSymbolGroup cp).isSome

/-- The symbols of the five groups that a text ends with. -/
def trailingRun (cps : List Nat) : List Nat := cps.rtakeWhile isTrailingSymbol

/-- What is in front of them. -/
def beforeTrailingRun (cps : List Nat) : List Nat := cps.rdropWhile isTrailingSymbol

/-- How many of them are of a group. -/
def trailingCount (group : Nat) (cps : List Nat) : Nat :=
  (trailingRun cps).countP fun cp => findUserControlledTrailingSymbolGroup cp == some group

theorem count_trailingGroups (chars : List Bytes) (group : Nat) :
    (trailingGroups (symbolChars chars)).count group =
      trailingCount group (chars.map utf8ToCodepoint) := by
  have hrun : ∀ cps : List Nat, ((cps.map findUserControlledTrailingSymbolGroup).takeWhile
        Option.isSome).reduceOption.count group =
      (cps.takeWhile isTrailingSymbol).countP
        fun cp => findUserControlledTrailingSymbolGroup cp == some group := by
    intro cps
    induction cps with
    | nil => rfl
    | cons cp cps ih =>
      rw [List.map_cons, List.takeWhile_cons, List.takeWhile_cons]
      cases hgroup : findUserControlledTrailingSymbolGroup cp with
      | none =>
        rw [if_neg (by simp), if_neg (by simp [isTrailingSymbol, hgroup])]
        rfl
      | some g =>
        rw [if_pos (show (some g).isSome = true from rfl),
          if_pos (by simp [isTrailingSymbol, hgroup]), List.countP_cons, ← ih, hgroup]
        show (g :: List.reduceOption _).count group = _
        rw [List.count_cons]
        simp
  rw [trailingGroups, trailingCount, trailingRun, List.rtakeWhile, List.countP_reverse, ← hrun]
  simp only [symbolChars, List.map_reverse, List.map_map, Function.comp_def]

theorem countUserControlledTrailingSymbols_flatten {chars : List Bytes}
    (h : ∀ u ∈ chars, IsChar u) :
    countUserControlledTrailingSymbols chars.flatten =
      some ((List.range userControlledTrailingSymbolGroups.length).map fun g =>
        trailingCount g (chars.map utf8ToCodepoint)) := by
  unfold countUserControlledTrailingSymbols
  rw [splitUtf8ForSymbolRestore_flatten h]
  dsimp only
  rw [if_neg]
  · simp only [count_trailingGroups]
  · cases chars with
    | nil => simp
    | cons u chars => simp [symbolChars]

/-! ## Removing from the end -/

/-- How many symbols of a group are to be removed. -/
def surplus (allowed counts : List Nat) (group : Nat) : Nat :=
  counts.getD group 0 - allowed.getD group 0

theorem surplus_decrementAt (allowed counts : List Nat) (index group : Nat) :
    surplus allowed (decrementAt index counts) group =
      if index = group then surplus allowed counts group - 1 else surplus allowed counts group := by
  unfold surplus decrementAt
  simp only [List.getD_eq_getElem?_getD, List.getElem?_modify]
  cases counts[group]? with
  | none => simp
  | some n =>
    simp only [Option.map_eq_map, Option.map_some, Option.getD_some]
    split <;> omega

def isTrailingChar (u : Bytes) : Bool := isTrailingSymbol (utf8ToCodepoint u)

/-- How often a group occurs in some characters. -/
def groupCount (group : Nat) (chars : List Bytes) : Nat :=
  chars.countP fun u => findUserControlledTrailingSymbolGroup (utf8ToCodepoint u) == some group

theorem groupCount_cons (group : Nat) (u : Bytes) (chars : List Bytes) :
    groupCount group (u :: chars) = groupCount group chars +
      if findUserControlledTrailingSymbolGroup (utf8ToCodepoint u) = some group then 1 else 0 := by
  rw [groupCount, List.countP_cons]
  simp only [beq_iff_eq]
  rfl

/-- **What is removed**: of each group as many of the symbols at the end as are too many.
`chars` is the text from its last character on. -/
theorem removeUnrequested_spec (allowed : List Nat) : ∀ (chars : List Bytes) (counts : List Nat),
    (∀ group, surplus allowed counts group ≤
      groupCount group (chars.takeWhile isTrailingChar)) →
    ∃ kept : List Bytes,
      kept.Sublist (chars.takeWhile isTrailingChar) ∧
      removeUnrequested allowed counts (symbolChars chars) =
        symbolChars (kept ++ chars.dropWhile isTrailingChar) ∧
      ∀ group, groupCount group kept + surplus allowed counts group =
        groupCount group (chars.takeWhile isTrailingChar)
  | [], counts, hle => by
    refine ⟨[], List.nil_sublist _, rfl, fun group => ?_⟩
    have := hle group
    simp only [List.takeWhile_nil] at this ⊢
    have hzero : groupCount group [] = 0 := rfl
    omega
  | u :: chars, counts, hle => by
    have hcons : symbolChars (u :: chars) = (utf8ToCodepoint u, u) :: symbolChars chars := rfl
    rw [hcons, removeUnrequested]
    dsimp only
    cases hgroup : findUserControlledTrailingSymbolGroup (utf8ToCodepoint u) with
    | none =>
      have hplain : ¬isTrailingChar u = true := by
        simp [isTrailingChar, isTrailingSymbol, hgroup]
      rw [List.takeWhile_cons_of_neg hplain] at hle ⊢
      rw [List.dropWhile_cons_of_neg hplain]
      refine ⟨[], List.nil_sublist _, rfl, fun group => ?_⟩
      have := hle group
      have hzero : groupCount group [] = 0 := rfl
      omega
    | some g =>
      have hsymbol : isTrailingChar u = true := by
        simp [isTrailingChar, isTrailingSymbol, hgroup]
      rw [List.takeWhile_cons_of_pos hsymbol] at hle ⊢
      rw [List.dropWhile_cons_of_pos hsymbol]
      simp only [groupCount_cons, hgroup, Option.some.injEq] at hle ⊢
      split
      · next hmore =>
        have hpos : 0 < surplus allowed counts g := by
          unfold surplus
          omega
        obtain ⟨kept, hsub, hremoved, hcount⟩ := removeUnrequested_spec allowed chars
          (decrementAt g counts) fun group => by
            have := hle group
            rw [surplus_decrementAt]
            split at this <;> rename_i hg
            · rw [if_pos hg]
              omega
            · rw [if_neg hg]
              omega
        refine ⟨kept, hsub.cons u, hremoved, fun group => ?_⟩
        have := hcount group
        rw [surplus_decrementAt] at this
        by_cases hg : g = group
        · subst hg
          rw [if_pos rfl] at this ⊢
          omega
        · rw [if_neg hg] at this ⊢
          omega
      · next hfew =>
        have hzero : surplus allowed counts g = 0 := by
          unfold surplus
          omega
        obtain ⟨kept, hsub, hremoved, hcount⟩ := removeUnrequested_spec allowed chars counts
          fun group => by
            have := hle group
            by_cases hg : g = group
            · subst hg
              omega
            · rw [if_neg hg] at this
              omega
        refine ⟨u :: kept, hsub.cons_cons u, ?_, fun group => ?_⟩
        · rw [hremoved]
          rfl
        · have := hcount group
          rw [groupCount_cons, hgroup]
          simp
          omega

/-! ## The repair -/

theorem map_takeWhile_reverse (chars : List Bytes) :
    ((chars.reverse.takeWhile isTrailingChar).reverse).map utf8ToCodepoint =
      trailingRun (chars.map utf8ToCodepoint) := by
  rw [trailingRun, List.rtakeWhile, ← List.map_reverse, List.takeWhile_map, ← List.map_reverse]
  rfl

theorem map_dropWhile_reverse (chars : List Bytes) :
    ((chars.reverse.dropWhile isTrailingChar).reverse).map utf8ToCodepoint =
      beforeTrailingRun (chars.map utf8ToCodepoint) := by
  rw [beforeTrailingRun, List.rdropWhile, ← List.map_reverse, List.dropWhile_map,
    ← List.map_reverse]
  rfl

theorem isTrailingSymbol_foldSymbol (cp : Nat) :
    isTrailingSymbol (foldSymbol cp) = isTrailingSymbol cp := by
  simp [isTrailingSymbol, findUserControlledTrailingSymbolGroup_foldSymbol]

theorem trailingRun_map_foldSymbol (cps : List Nat) :
    trailingRun (cps.map foldSymbol) = (trailingRun cps).map foldSymbol := by
  rw [trailingRun, trailingRun, List.rtakeWhile, List.rtakeWhile, ← List.map_reverse,
    List.takeWhile_map, List.map_reverse]
  simp only [Function.comp_def, isTrailingSymbol_foldSymbol]

theorem trailingCount_map_foldSymbol (group : Nat) (cps : List Nat) :
    trailingCount group (cps.map foldSymbol) = trailingCount group cps := by
  rw [trailingCount, trailingRun_map_foldSymbol, List.countP_map, trailingCount]
  simp only [Function.comp_def, findUserControlledTrailingSymbolGroup_foldSymbol]

theorem beforeTrailingRun_map_foldSymbol (cps : List Nat) :
    beforeTrailingRun (cps.map foldSymbol) = (beforeTrailingRun cps).map foldSymbol := by
  rw [beforeTrailingRun, beforeTrailingRun, List.rdropWhile, List.rdropWhile, ← List.map_reverse,
    List.dropWhile_map, List.map_reverse]
  simp only [Function.comp_def, isTrailingSymbol_foldSymbol]

/-- Symbols put back after what was in front of them are the new end. -/
theorem trailingRun_append {cps kept : List Nat} (h : ∀ cp ∈ kept, isTrailingSymbol cp = true) :
    trailingRun (beforeTrailingRun cps ++ kept) = kept := by
  have hnone : (cps.reverse.dropWhile isTrailingSymbol).takeWhile isTrailingSymbol = [] := by
    induction cps.reverse with
    | nil => rfl
    | cons cp rest ih =>
      by_cases hcp : isTrailingSymbol cp = true
      · rw [List.dropWhile_cons_of_pos hcp]
        exact ih
      · rw [List.dropWhile_cons_of_neg hcp, List.takeWhile_cons_of_neg hcp]
  rw [trailingRun, List.rtakeWhile, List.reverse_append, beforeTrailingRun, List.rdropWhile,
    List.reverse_reverse, List.takeWhile_append_of_pos fun cp hcp => h cp (List.mem_reverse.mp hcp),
    hnone, List.append_nil, List.reverse_reverse]

theorem groupCount_trailing (group : Nat) (chars : List Bytes) :
    groupCount group (chars.reverse.takeWhile isTrailingChar) =
      trailingCount group (chars.map utf8ToCodepoint) := by
  rw [trailingCount, ← map_takeWhile_reverse, List.countP_map, List.countP_reverse]
  rfl

theorem getD_map_range (f : Nat → Nat) (n i : Nat) :
    ((List.range n).map f).getD i 0 = if i < n then f i else 0 := by
  rw [List.getD_eq_getElem?_getD, List.getElem?_map]
  split
  · next h => rw [List.getElem?_range h]; rfl
  · next h => rw [List.getElem?_eq_none (by simpa using h)]; rfl

/-- What is left of the end, for texts given by their characters. -/
theorem suppress_chars {keyChars mozcChars chars : List Bytes} (hkey : ∀ u ∈ keyChars, IsChar u)
    (hmozc : ∀ u ∈ mozcChars, IsChar u) (hchars : ∀ u ∈ chars, IsChar u) :
    ∃ kept : List Bytes, kept.Sublist (chars.reverse.takeWhile isTrailingChar) ∧
      suppressUnrequestedTrailingSymbols keyChars.flatten mozcChars.flatten chars.flatten =
        ((chars.reverse.dropWhile isTrailingChar).reverse ++ kept.reverse).flatten ∧
      ∀ group < userControlledTrailingSymbolGroups.length, groupCount group kept =
        min (trailingCount group (chars.map utf8ToCodepoint))
          (max (trailingCount group (keyChars.map utf8ToCodepoint))
            (trailingCount group (mozcChars.map utf8ToCodepoint))) := by
  rw [suppressUnrequestedTrailingSymbols, countUserControlledTrailingSymbols_flatten hkey,
    countUserControlledTrailingSymbols_flatten hmozc,
    countUserControlledTrailingSymbols_flatten hchars, splitUtf8ForSymbolRestore_flatten hchars]
  dsimp only
  rw [List.zipWith_map_left, List.zipWith_map_right, List.zipWith_self]
  have hsurplus : ∀ group, surplus
      ((List.range userControlledTrailingSymbolGroups.length).map fun g =>
        max (trailingCount g (keyChars.map utf8ToCodepoint))
          (trailingCount g (mozcChars.map utf8ToCodepoint)))
      ((List.range userControlledTrailingSymbolGroups.length).map fun g =>
        trailingCount g (chars.map utf8ToCodepoint)) group =
      if group < userControlledTrailingSymbolGroups.length then
        trailingCount group (chars.map utf8ToCodepoint) -
          max (trailingCount group (keyChars.map utf8ToCodepoint))
            (trailingCount group (mozcChars.map utf8ToCodepoint))
      else 0 := by
    intro group
    rw [surplus, getD_map_range, getD_map_range]
    split <;> omega
  obtain ⟨kept, hsub, hremoved, hcount⟩ := removeUnrequested_spec
    ((List.range userControlledTrailingSymbolGroups.length).map fun g =>
      max (trailingCount g (keyChars.map utf8ToCodepoint))
        (trailingCount g (mozcChars.map utf8ToCodepoint))) chars.reverse
    ((List.range userControlledTrailingSymbolGroups.length).map fun g =>
      trailingCount g (chars.map utf8ToCodepoint)) fun group => by
        rw [hsurplus, groupCount_trailing]
        split <;> omega
  refine ⟨kept, hsub, ?_, fun group hgroup => ?_⟩
  · have hreverse : (symbolChars chars).reverse = symbolChars chars.reverse :=
      List.map_reverse.symm
    rw [hreverse, hremoved, symbolChars, ← List.map_reverse, List.reverse_append]
    exact charBytes_symbolChars _
  · have := hcount group
    rw [hsurplus, groupCount_trailing, if_pos hgroup] at this
    omega

/-- **The repair restores styles and trims the end.** Folded to one representative a group, the
result is the output without some of the symbols at its end; of each of the five groups it keeps
as many there as the key or Mozc's value has at its own end. -/
theorem repair_restores_and_trims {key mozcValue zenzValue : Bytes} (hkey : IsUnicode key)
    (hmozc : IsUnicode mozcValue) (hzenz : IsUnicode zenzValue) :
    IsUnicode (repairUserControlledSymbols key mozcValue zenzValue) ∧
      (∃ kept, kept.Sublist (trailingRun ((utf8ToUtf32 zenzValue).map foldSymbol)) ∧
        (utf8ToUtf32 (repairUserControlledSymbols key mozcValue zenzValue)).map foldSymbol =
          beforeTrailingRun ((utf8ToUtf32 zenzValue).map foldSymbol) ++ kept) ∧
      ∀ group < userControlledTrailingSymbolGroups.length,
        trailingCount group (utf8ToUtf32 (repairUserControlledSymbols key mozcValue zenzValue)) =
          min (trailingCount group (utf8ToUtf32 zenzValue))
            (max (trailingCount group (utf8ToUtf32 key))
              (trailingCount group (utf8ToUtf32 mozcValue))) := by
  obtain ⟨keyChars, hk, rfl⟩ := (isUnicode_iff key).mp hkey
  obtain ⟨mozcChars, hm, rfl⟩ := (isUnicode_iff mozcValue).mp hmozc
  obtain ⟨zenzChars, hz, rfl⟩ := (isUnicode_iff zenzValue).mp hzenz
  obtain ⟨chars, hrestored, hchars, hfolded⟩ := restoreUserVisibleSymbolStyle_chars hk hm hz
  obtain ⟨kept, hsub, hsuppressed, hcount⟩ := suppress_chars hk hm hchars
  have hsame : (chars.map utf8ToCodepoint).map foldSymbol =
      (zenzChars.map utf8ToCodepoint).map foldSymbol := by
    rw [List.map_map, List.map_map]
    exact hfolded
  have hall : ∀ u ∈ (chars.reverse.dropWhile isTrailingChar).reverse ++ kept.reverse,
      IsChar u := by
    intro u hu
    rcases List.mem_append.mp hu with hu | hu
    · exact hchars u (List.mem_reverse.mp
        ((List.dropWhile_sublist _).mem (List.mem_reverse.mp hu)))
    · exact hchars u (List.mem_reverse.mp
        ((List.takeWhile_sublist _).mem (hsub.mem (List.mem_reverse.mp hu))))
  have hresult : repairUserControlledSymbols keyChars.flatten mozcChars.flatten zenzChars.flatten =
      ((chars.reverse.dropWhile isTrailingChar).reverse ++ kept.reverse).flatten := by
    rw [repairUserControlledSymbols, hrestored, hsuppressed]
  have hcodes : utf8ToUtf32 (repairUserControlledSymbols keyChars.flatten mozcChars.flatten
      zenzChars.flatten) = beforeTrailingRun (chars.map utf8ToCodepoint) ++
        kept.reverse.map utf8ToCodepoint := by
    rw [hresult, utf8ToUtf32_chars hall, List.map_append, map_dropWhile_reverse]
  have htrailing : ∀ cp ∈ kept.reverse.map utf8ToCodepoint, isTrailingSymbol cp = true := by
    intro cp hcp
    obtain ⟨u, hu, rfl⟩ := List.mem_map.mp hcp
    have hrun := hsub.mem (List.mem_reverse.mp hu)
    exact List.mem_takeWhile_imp (p := isTrailingChar) hrun
  refine ⟨?_, ⟨(kept.reverse.map utf8ToCodepoint).map foldSymbol, ?_, ?_⟩, fun group hgroup => ?_⟩
  · rw [hresult]
    exact isUnicode_flatten hall
  · rw [utf8ToUtf32_chars hz, ← hsame, trailingRun_map_foldSymbol, ← map_takeWhile_reverse]
    exact ((hsub.reverse).map utf8ToCodepoint).map foldSymbol
  · rw [hcodes, utf8ToUtf32_chars hz, ← hsame, List.map_append,
      beforeTrailingRun_map_foldSymbol]
  · rw [hcodes, utf8ToUtf32_chars hk, utf8ToUtf32_chars hm, utf8ToUtf32_chars hz,
      ← trailingCount_map_foldSymbol group (zenzChars.map utf8ToCodepoint), ← hsame,
      trailingCount_map_foldSymbol, ← hcount group hgroup, trailingCount,
      trailingRun_append htrailing, List.countP_map, List.countP_reverse]
    rfl

theorem repair_restores_and_trims_wave :
    trailingCount 0 (utf8ToUtf32 (repairUserControlledSymbols (utf8 "えー〜！") (utf8 "えー〜！")
      (utf8 "ええ~！！。"))) = 1 :=
  ((repair_restores_and_trims (by decide +kernel) (by decide +kernel) (by decide +kernel)).2.2 0
    (by decide)).trans (by decide +kernel)

end Mozkey.Zenz.OutputValidator
