import Mathlib.Data.List.Forall2
import Mozkey.Base.Utf8Encode
import Mozkey.Zenz.SymbolRepair

/-!
# Restoring keeps the symbols

Every pass of `RestoreUserVisibleSymbolStyle` replaces characters of one group by characters of
the same group, one for one. Folded to one representative a group, the text stays what it was.

A replacement by default copies a character from the source. It is there to be copied because a
variant is only missing while the source has more of it (`Missing`).

## Main results

* `restoreUserVisibleSymbolStyle_chars` — the characters that come out fold to those that went in
-/

namespace Mozkey.Zenz.OutputValidator

open Infra Base

/-! ## Folding -/

/-- The first variant of the group, for a symbol of a group that is restored. -/
def foldSymbol (cp : Nat) : Nat :=
  match kSymbolStyleGroups.find? fun group => group.1.any fun v => v.toNat == cp with
  | none => cp
  | some group => (group.1.head?.map Char.toNat).getD cp

/-- The variants of a group have one representative. -/
theorem foldSymbol_of_mem {group : List Char × Bool} (h : group ∈ kSymbolStyleGroups) {a b : Char}
    (ha : a ∈ group.1) (hb : b ∈ group.1) : foldSymbol a.toNat = foldSymbol b.toNat := by
  have hall : kSymbolStyleGroups.all (fun group => group.1.all fun a => group.1.all fun b =>
      foldSymbol a.toNat == foldSymbol b.toNat) = true := by decide +kernel
  have hgroup := List.all_eq_true.mp (List.all_eq_true.mp hall group h) a ha
  exact eq_of_beq (List.all_eq_true.mp hgroup b hb)

/-- Folding does not change the group of a symbol at the end. -/
theorem findUserControlledTrailingSymbolGroup_foldSymbol (cp : Nat) :
    findUserControlledTrailingSymbolGroup (foldSymbol cp) =
      findUserControlledTrailingSymbolGroup cp := by
  have hall : kSymbolStyleGroups.all (fun group => group.1.all fun v =>
      findUserControlledTrailingSymbolGroup ((group.1.head?.map Char.toNat).getD v.toNat) ==
        findUserControlledTrailingSymbolGroup v.toNat) = true := by decide +kernel
  unfold foldSymbol
  split
  · rfl
  · next group hgroup =>
    have hany := List.find?_some hgroup
    obtain ⟨v, hv, hcp⟩ := List.any_eq_true.mp hany
    rw [← beq_iff_eq.mp hcp]
    have hmem := List.mem_of_find?_eq_some hgroup
    exact eq_of_beq (List.all_eq_true.mp (List.all_eq_true.mp hall group hmem) v hv)

/-! ## Characters -/

/-- The characters of a text as the repair sees them. -/
def symbolChars (chars : List Bytes) : List SymbolChar := chars.map fun u => (utf8ToCodepoint u, u)

variable {chars sourceChars : List Bytes}

theorem splitUtf8ForSymbolRestore_flatten (h : ∀ u ∈ chars, IsChar u) :
    splitUtf8ForSymbolRestore chars.flatten = symbolChars chars := by
  have hflat : chars.flatten = chars.flatMap id ++ [] := by simp
  rw [splitUtf8ForSymbolRestore, hflat,
    @walk_tokens _ _ _ _ id (fun u : Bytes => (utf8ToCodepoint u, u)) [] chars]
  · exact if_pos rfl |>.trans (List.append_nil _)
  · intro u hu
    refine ⟨(h u hu).ne_nil, fun rest => ?_⟩
    rw [id, (h u hu).decodeOneUtf8, Option.map_some]
    dsimp only
    simp

theorem charBytes_symbolChars (chars : List Bytes) :
    charBytes (symbolChars chars) = chars.flatten := by
  rw [charBytes, symbolChars, List.map_map]
  exact congrArg List.flatten (List.map_id'' (fun _ => rfl) chars)

theorem findSymbolStyleVariantIndex_mem {cp i : Nat} {variants : List Char}
    (h : findSymbolStyleVariantIndex cp variants = some i) :
    ∃ v ∈ variants, v.toNat = cp ∧ variants[i]? = some v := by
  obtain ⟨hlt, hcp, -⟩ := List.findIdx?_eq_some_iff_getElem.mp h
  exact ⟨variants[i], List.getElem_mem hlt, beq_iff_eq.mp hcp, List.getElem?_eq_getElem hlt⟩

/-! ## One pass -/

/-- The characters are the same, or variants of one group. -/
def Restyled (variants : List Char) (u v : Bytes) : Prop :=
  u = v ∨ ∃ a ∈ variants, ∃ b ∈ variants, a.toNat = utf8ToCodepoint u ∧ b.toNat = utf8ToCodepoint v

/-- What is missing is in the source. -/
def Missing (sourceChars : List SymbolChar) (variants : List Char) (missing : List Nat) : Prop :=
  ∀ j, 0 < missing.getD j 0 → ∃ c ∈ sourceChars, findSymbolStyleVariantIndex c.1 variants = some j

theorem getD_decrementAt_le (index j : Nat) (counts : List Nat) :
    (decrementAt index counts).getD j 0 ≤ counts.getD j 0 := by
  rw [decrementAt, List.getD_eq_getElem?_getD, List.getD_eq_getElem?_getD, List.getElem?_modify]
  cases counts[j]? with
  | none => exact Nat.le_refl _
  | some n =>
    simp only [Option.map_eq_map, Option.map_some, Option.getD_some]
    split <;> omega

theorem Missing.decrementAt {sourceChars : List SymbolChar} {variants : List Char}
    {missing : List Nat} (h : Missing sourceChars variants missing) (index : Nat) :
    Missing sourceChars variants (decrementAt index missing) :=
  fun j hj => h j (Nat.lt_of_lt_of_le hj (getD_decrementAt_le index j missing))

theorem missing_initial (sourceChars zenzChars : List SymbolChar) (variants : List Char) :
    Missing sourceChars variants (List.zipWith (· - ·) (countVariants sourceChars variants)
      (countVariants zenzChars variants)) := by
  intro j hj
  rw [List.getD_eq_getElem?_getD, List.getElem?_zipWith] at hj
  simp only [countVariants, List.getElem?_map] at hj
  cases hj' : (List.range variants.length)[j]? with
  | none => rw [hj'] at hj; simp at hj
  | some k =>
    have hk : k = j := by
      obtain ⟨hlt, heq⟩ := List.getElem?_eq_some_iff.mp hj'
      simp [← heq]
    rw [hj', hk] at hj
    simp only [Option.map_some, Option.getD_some] at hj
    have hpos : 0 < sourceChars.countP fun c =>
        findSymbolStyleVariantIndex c.1 variants == some j := by omega
    obtain ⟨c, hc, hfind⟩ := List.countP_pos_iff.mp hpos
    exact ⟨c, hc, beq_iff_eq.mp hfind⟩

theorem positionalTarget_some {r : StyleRestore} {missing : List Nat} {i currentIndex target : Nat}
    (h : positionalTarget r missing i currentIndex = some target) :
    ∃ c, r.sourceChars[i]? = some c ∧
      findSymbolStyleVariantIndex c.1 r.variants = some target := by
  unfold positionalTarget at h
  split at h
  · cases h
  · next c hc =>
    split at h
    · cases h
    · next index hindex =>
      split at h
      · rw [← Option.some.inj h]
        exact ⟨c, hc, hindex⟩
      · cases h

theorem fallbackTarget_some {r : StyleRestore} {missing excess : List Nat}
    {i currentIndex cp target : Nat}
    (h : fallbackTarget r missing excess i currentIndex cp = some target) :
    0 < missing.getD target 0 := by
  unfold fallbackTarget at h
  split at h
  · have hfound := List.find?_some h
    simp only [Bool.and_eq_true, decide_eq_true_eq] at hfound
    exact hfound.1
  · cases h

/-- The bytes of a variant of the source are one of its characters. -/
theorem firstSymbolVariantBytes_of_mem {target : Nat}
    (h : ∃ u ∈ sourceChars, utf8ToCodepoint u = target) :
    firstSymbolVariantBytes (symbolChars sourceChars) target ∈ sourceChars ∧
      utf8ToCodepoint (firstSymbolVariantBytes (symbolChars sourceChars) target) = target := by
  obtain ⟨u, hu, hcode⟩ := h
  have hmem : (utf8ToCodepoint u, u) ∈ symbolChars sourceChars := List.mem_map.mpr ⟨u, hu, rfl⟩
  rw [firstSymbolVariantBytes]
  cases hfind : (symbolChars sourceChars).find? fun c => c.1 == target with
  | none =>
    have hno := List.find?_eq_none.mp hfind _ hmem
    exact absurd (beq_iff_eq.mpr hcode) hno
  | some c =>
    obtain ⟨v, hv, rfl⟩ := List.mem_map.mp (List.mem_of_find?_eq_some hfind)
    have hcode := List.find?_some hfind
    exact ⟨hv, beq_iff_eq.mp hcode⟩

/-- **The loop replaces one for one, within the group.** -/
theorem restoreFrom_chars {r : StyleRestore} (hsource : r.sourceChars = symbolChars sourceChars)
    (hchars : ∀ u ∈ sourceChars, IsChar u) :
    ∀ (chars : List Bytes) (i : Nat) (missing excess : List Nat), (∀ u ∈ chars, IsChar u) →
      Missing r.sourceChars r.variants missing →
      ∃ restored : List Bytes, restoreFrom r i missing excess (symbolChars chars) =
        restored.flatten ∧
        (∀ u ∈ restored, IsChar u) ∧ List.Forall₂ (Restyled r.variants) chars restored
  | [], i, missing, excess, _, _ => ⟨[], rfl, by simp, .nil⟩
  | u :: chars, i, missing, excess, hall, hmissing => by
    have hu := hall u List.mem_cons_self
    have hrest := (List.forall_mem_cons.mp hall).2
    -- one more character in front of what the rest of the loop makes
    have hcons : ∀ (v : Bytes) (missing' excess' : List Nat), IsChar v → Restyled r.variants u v →
        Missing r.sourceChars r.variants missing' →
        ∃ restored : List Bytes, v ++ restoreFrom r (i + 1) missing' excess' (symbolChars chars) =
            restored.flatten ∧ (∀ w ∈ restored, IsChar w) ∧
          List.Forall₂ (Restyled r.variants) (u :: chars) restored := by
      intro v missing' excess' hv hstyle hmissing'
      obtain ⟨restored, hrestored, hchar, hforall⟩ :=
        restoreFrom_chars hsource hchars chars (i + 1) missing' excess' hrest hmissing'
      refine ⟨v :: restored, by rw [hrestored, List.flatten_cons], ?_, .cons hstyle hforall⟩
      intro w hw
      rcases List.mem_cons.mp hw with rfl | hw
      · exact hv
      · exact hchar w hw
    show ∃ restored : List Bytes, restoreFrom r i missing excess
      ((utf8ToCodepoint u, u) :: symbolChars chars) = restored.flatten ∧ _
    rw [restoreFrom]
    split
    · exact hcons u _ _ hu (Or.inl rfl) hmissing
    · next currentIndex hcurrent =>
      obtain ⟨a, ha, hacode, -⟩ := findSymbolStyleVariantIndex_mem hcurrent
      split
      · next target htarget =>
        obtain ⟨c, hc, hfind⟩ := positionalTarget_some htarget
        obtain ⟨b, hb, hbcode, -⟩ := findSymbolStyleVariantIndex_mem hfind
        have hmem := List.mem_of_getElem? hc
        rw [hsource] at hmem
        obtain ⟨v, hv, rfl⟩ := List.mem_map.mp hmem
        rw [hc, Option.map_some, Option.getD_some]
        exact hcons v _ _ (hchars v hv) (Or.inr ⟨a, ha, b, hb, hacode, hbcode⟩)
          (hmissing.decrementAt target)
      · split
        · next target htarget =>
          obtain ⟨c, hc, hfind⟩ := hmissing target (fallbackTarget_some htarget)
          obtain ⟨b, hb, hbcode, hget⟩ := findSymbolStyleVariantIndex_mem hfind
          rw [hsource] at hc
          obtain ⟨v, hv, rfl⟩ := List.mem_map.mp hc
          rw [hget, Option.map_some, Option.getD_some, hsource]
          obtain ⟨hmem, hcode⟩ := firstSymbolVariantBytes_of_mem ⟨v, hv, hbcode.symm⟩
          exact hcons _ _ _ (hchars _ hmem) (Or.inr ⟨a, ha, b, hb, hacode, hcode.symm⟩)
            (hmissing.decrementAt target)
        · exact hcons u _ _ hu (Or.inl rfl) hmissing

theorem restyled_refl (variants : List Char) (chars : List Bytes) :
    List.Forall₂ (Restyled variants) chars chars :=
  List.forall₂_same.mpr fun _ _ => Or.inl rfl

theorem restoreSymbolGroupStyle_chars (hsource : ∀ u ∈ sourceChars, IsChar u)
    (hchars : ∀ u ∈ chars, IsChar u) (variants : List Char) (avoid : Bool) :
    ∃ restored : List Bytes,
      restoreSymbolGroupStyle sourceChars.flatten chars.flatten variants avoid = restored.flatten ∧
        (∀ u ∈ restored, IsChar u) ∧ List.Forall₂ (Restyled variants) chars restored := by
  have hsame : ∃ restored : List Bytes, chars.flatten = restored.flatten ∧
      (∀ u ∈ restored, IsChar u) ∧ List.Forall₂ (Restyled variants) chars restored :=
    ⟨chars, rfl, hchars, restyled_refl variants chars⟩
  unfold restoreSymbolGroupStyle
  rw [splitUtf8ForSymbolRestore_flatten hsource, splitUtf8ForSymbolRestore_flatten hchars]
  dsimp only
  split
  · exact hsame
  split
  · exact hsame
  split
  · exact hsame
  · exact restoreFrom_chars rfl hsource chars 0 _ _ hchars (missing_initial _ _ _)

theorem restoreSymbolGroupStyleFromKeyOrMozc_chars {keyChars mozcChars : List Bytes}
    (hkey : ∀ u ∈ keyChars, IsChar u) (hmozc : ∀ u ∈ mozcChars, IsChar u)
    (hchars : ∀ u ∈ chars, IsChar u) (variants : List Char) (avoid : Bool) :
    ∃ restored : List Bytes,
      restoreSymbolGroupStyleFromKeyOrMozc keyChars.flatten mozcChars.flatten chars.flatten variants
          avoid = restored.flatten ∧
        (∀ u ∈ restored, IsChar u) ∧ List.Forall₂ (Restyled variants) chars restored := by
  unfold restoreSymbolGroupStyleFromKeyOrMozc
  split
  · exact restoreSymbolGroupStyle_chars hkey hchars variants avoid
  split
  · exact restoreSymbolGroupStyle_chars hmozc hchars variants avoid
  · exact ⟨chars, rfl, hchars, restyled_refl variants chars⟩

/-! ## All passes -/

/-- The representatives of the characters. -/
def folded (chars : List Bytes) : List Nat := chars.map fun u => foldSymbol (utf8ToCodepoint u)

theorem folded_of_restyled {group : List Char × Bool} (hgroup : group ∈ kSymbolStyleGroups)
    {restored : List Bytes} (h : List.Forall₂ (Restyled group.1) chars restored) :
    folded restored = folded chars := by
  induction h with
  | nil => rfl
  | @cons u v chars restored hstyle _ ih =>
    have hone : foldSymbol (utf8ToCodepoint v) = foldSymbol (utf8ToCodepoint u) := by
      rcases hstyle with rfl | ⟨a, ha, b, hb, hau, hbv⟩
      · rfl
      · rw [← hau, ← hbv]
        exact foldSymbol_of_mem hgroup hb ha
    show foldSymbol (utf8ToCodepoint v) :: folded restored
      = foldSymbol (utf8ToCodepoint u) :: folded chars
    rw [ih, hone]

/-- **The restored text has the symbols of the old one, character by character.** -/
theorem restoreUserVisibleSymbolStyle_chars {keyChars mozcChars : List Bytes}
    (hkey : ∀ u ∈ keyChars, IsChar u) (hmozc : ∀ u ∈ mozcChars, IsChar u)
    (hchars : ∀ u ∈ chars, IsChar u) :
    ∃ restored : List Bytes,
      restoreUserVisibleSymbolStyle keyChars.flatten mozcChars.flatten chars.flatten =
          restored.flatten ∧
        (∀ u ∈ restored, IsChar u) ∧ folded restored = folded chars := by
  have hpasses : ∀ (groups : List (List Char × Bool)) (chars : List Bytes),
      (∀ group ∈ groups, group ∈ kSymbolStyleGroups) → (∀ u ∈ chars, IsChar u) →
      ∃ restored : List Bytes, groups.foldl (fun restored group =>
            restoreSymbolGroupStyleFromKeyOrMozc keyChars.flatten mozcChars.flatten restored group.1
              group.2) chars.flatten = restored.flatten ∧
        (∀ u ∈ restored, IsChar u) ∧ folded restored = folded chars := by
    intro groups
    induction groups with
    | nil =>
      intro chars _ hchars
      exact ⟨chars, rfl, hchars, rfl⟩
    | cons group groups ih =>
      intro chars hgroups hchars
      obtain ⟨middle, hmiddle, hmchars, hstyled⟩ :=
        restoreSymbolGroupStyleFromKeyOrMozc_chars hkey hmozc hchars group.1 group.2
      obtain ⟨restored, hrestored, hrchars, hsame⟩ :=
        ih middle (List.forall_mem_cons.mp hgroups).2 hmchars
      have hfirst := folded_of_restyled (hgroups group List.mem_cons_self) hstyled
      exact ⟨restored, by rw [List.foldl_cons, hmiddle, hrestored], hrchars, hsame.trans hfirst⟩
  exact hpasses kSymbolStyleGroups chars (fun _ h => h) hchars

end Mozkey.Zenz.OutputValidator
