import Mozkey.Base.Graphemes
import Mozkey.Zenz.OutputValidator

/-!
# Emoji read off the code points

An occurrence is a code point with the Emoji property, in the style that makes it an emoji: digits,
`#` and `*` as keycaps, ©, ® and ™ with U+FE0F, the others unless U+FE0E follows.

Whether a code point is one depends on at most two code points after it. So the occurrences of a
text are those of its parts, but for a keycap base at the end of a part whose U+20E3 begins the
next one (`emojiOccurrences_append`).
-/

namespace Mozkey.Zenz.OutputValidator

open Infra Base

/-! ## Occurrences -/

def isEmojiOccurrence (cp : Nat) (rest : List Nat) : Bool :=
  hasEmojiProperty cp &&
    if isKeycapBase cp then
      (if rest.head? = some 0xFE0F then rest.tail else rest).head? == some 0x20E3
    else if cp == 0x00A9 || cp == 0x00AE || cp == 0x2122 then rest.head? == some 0xFE0F
    else rest.head? != some 0xFE0E

def emojiOccurrences : List Nat → List Nat
  | [] => []
  | cp :: rest =>
    if isEmojiOccurrence cp rest then cp :: emojiOccurrences rest else emojiOccurrences rest

theorem hasEmojiScalar_eq : ∀ scalars : List Nat,
    hasEmojiScalar scalars = !(emojiOccurrences scalars).isEmpty
  | [] => rfl
  | cp :: rest => by
    have ih := hasEmojiScalar_eq rest
    rw [hasEmojiScalar, emojiOccurrences, isEmojiOccurrence]
    cases hasEmojiProperty cp with
    | false => simpa using ih
    | true =>
      cases isKeycapBase cp with
      | true =>
        simp only [Bool.not_true, Bool.false_eq_true, if_false, if_true, Bool.true_and, beq_iff_eq]
        generalize (if rest.head? = some 0xFE0F then rest.tail else rest).head? = next
        split
        · rfl
        · exact ih
      | false =>
        simp only [Bool.not_true, Bool.false_eq_true, if_false, Bool.true_and]
        split
        · simp only [beq_iff_eq]
          split
          · rfl
          · exact ih
        · simp only [bne_iff_ne, ne_eq, ite_not]
          split
          · exact ih
          · rfl

theorem isKeycapBase_iff (cp : Nat) :
    isKeycapBase cp = true ↔ (0x30 ≤ cp ∧ cp ≤ 0x39) ∨ cp = 0x23 ∨ cp = 0x2A := by
  simp [isKeycapBase, or_assoc]

theorem hasEmojiProperty_of_isKeycapBase {cp : Nat} (h : isKeycapBase cp = true) :
    hasEmojiProperty cp = true := by
  have hall : ∀ d < 10, hasEmojiProperty (0x30 + d) = true := by decide
  rcases (isKeycapBase_iff cp).mp h with ⟨hlo, hhi⟩ | rfl | rfl
  · obtain ⟨d, rfl⟩ := Nat.le.dest hlo
    exact hall d (by omega)
  · decide
  · decide

/-- A keycap base counts when U+20E3 follows, possibly after U+FE0F. -/
theorem isEmojiOccurrence_keycap {cp : Nat} (h : isKeycapBase cp = true) (rest : List Nat) :
    isEmojiOccurrence cp rest =
      ((if rest.head? = some 0xFE0F then rest.tail else rest).head? == some 0x20E3) := by
  simp [isEmojiOccurrence, hasEmojiProperty_of_isKeycapBase h, h]

theorem isEmojiOccurrence_other {cp : Nat} (h : isKeycapBase cp = false) {rest rest' : List Nat}
    (hrest : (rest.head? == some 0xFE0F) = (rest'.head? == some 0xFE0F))
    (hrest' : (rest.head? == some 0xFE0E) = (rest'.head? == some 0xFE0E)) :
    isEmojiOccurrence cp rest = isEmojiOccurrence cp rest' := by
  simp [isEmojiOccurrence, h, hrest, bne, hrest']

/-! ## Parts of a text -/

/-- The keycap base at the end of `a`, if U+20E3 begins `b`. -/
def keycapAcross (a b : List Nat) : List Nat :=
  if b.head? = some 0x20E3 then (a.getLast?.filter isKeycapBase).toList else []

theorem isEmojiOccurrence_append (cp y : Nat) (a b : List Nat)
    (hb : b.head? = some 0x20E3 → (y :: a).getLast? ≠ some 0xFE0F) :
    isEmojiOccurrence cp (y :: a ++ b) = isEmojiOccurrence cp (y :: a) := by
  cases hk : isKeycapBase cp with
  | false => exact isEmojiOccurrence_other hk rfl rfl
  | true =>
    rw [isEmojiOccurrence_keycap hk, isEmojiOccurrence_keycap hk]
    simp only [List.cons_append, List.head?_cons, List.tail_cons, Option.some.injEq]
    split
    · next hy =>
      cases a with
      | nil =>
        rw [List.nil_append]
        refine Bool.eq_iff_iff.mpr ?_
        simp only [beq_iff_eq, List.head?_nil, reduceCtorEq, iff_false]
        intro hhead
        exact hb hhead (by rw [hy]; rfl)
      | cons z a => rfl
    · rfl

theorem isEmojiOccurrence_last (cp : Nat) (b : List Nat) (htext : b.head? ≠ some 0xFE0E)
    (hemoji : b.head? ≠ some 0xFE0F) :
    isEmojiOccurrence cp b =
      (isEmojiOccurrence cp [] || isKeycapBase cp && b.head? == some 0x20E3) := by
  cases hk : isKeycapBase cp with
  | false =>
    have htext' : (b.head? == some 0xFE0E) = false := beq_false_of_ne htext
    have hemoji' : (b.head? == some 0xFE0F) = false := beq_false_of_ne hemoji
    simpa using isEmojiOccurrence_other hk hemoji' htext'
  | true =>
    simp [isEmojiOccurrence_keycap hk, hemoji]

/-- **The occurrences of a text in two parts.** -/
theorem emojiOccurrences_append : ∀ (a b : List Nat), b.head? ≠ some 0xFE0E →
    b.head? ≠ some 0xFE0F → (b.head? = some 0x20E3 → a.getLast? ≠ some 0xFE0F) →
    emojiOccurrences (a ++ b) = emojiOccurrences a ++ keycapAcross a b ++ emojiOccurrences b
  | [], b, _, _, _ => by simp [keycapAcross, emojiOccurrences]
  | [x], b, htext, hemoji, _ => by
    rw [List.singleton_append, emojiOccurrences, emojiOccurrences,
      isEmojiOccurrence_last x b htext hemoji, keycapAcross]
    simp only [emojiOccurrences, List.getLast?_singleton]
    cases hk : isKeycapBase x with
    | false => cases isEmojiOccurrence x [] <;> simp [hk]
    | true =>
      have hno : isEmojiOccurrence x [] = false := by rw [isEmojiOccurrence_keycap hk]; rfl
      by_cases hb : b.head? = some 0x20E3 <;> simp [hno, hb, hk, Option.filter]
  | x :: y :: a, b, htext, hemoji, hkeycap => by
    have ih := emojiOccurrences_append (y :: a) b htext hemoji hkeycap
    have hacross : keycapAcross (x :: y :: a) b = keycapAcross (y :: a) b := by
      simp [keycapAcross]
    have hsame := isEmojiOccurrence_append x y a b hkeycap
    rw [hacross, List.cons_append, emojiOccurrences, emojiOccurrences.eq_2 x (y :: a), ih, hsame]
    split
    · simp
    · rfl

/-! ## Keycaps that are passed over -/

/-- A keycap without U+FE0F whose U+20E3 is joined by the code point after it. -/
def passesOverKeycap : List Nat → Bool
  | base :: keycap :: next :: rest =>
    (isKeycapBase base && keycap == 0x20E3 && joinsGrapheme 0x20E3 next) ||
      passesOverKeycap (keycap :: next :: rest)
  | _ => false

theorem passesOverKeycap_tail {cp : Nat} {rest : List Nat}
    (h : passesOverKeycap (cp :: rest) = false) : passesOverKeycap rest = false := by
  cases rest with
  | nil => rfl
  | cons k rest =>
    cases rest with
    | nil => rfl
    | cons next rest =>
      rw [passesOverKeycap, Bool.or_eq_false_iff] at h
      exact h.2

/-- A passed over keycap is an occurrence. -/
theorem emojiOccurrences_ne_nil_of_passesOver : ∀ {scalars : List Nat},
    passesOverKeycap scalars = true → emojiOccurrences scalars ≠ []
  | [], h => by cases h
  | [_], h => by cases h
  | [_, _], h => by cases h
  | base :: keycap :: next :: rest, h => by
    rw [passesOverKeycap, Bool.or_eq_true] at h
    rw [emojiOccurrences]
    rcases h with h | h
    · rw [Bool.and_eq_true, Bool.and_eq_true, beq_iff_eq] at h
      obtain ⟨⟨hbase, rfl⟩, -⟩ := h
      rw [isEmojiOccurrence_keycap hbase]
      exact List.cons_ne_nil _ _
    · have ih := emojiOccurrences_ne_nil_of_passesOver h
      split
      · exact List.cons_ne_nil _ _
      · exact ih

/-- Keep such keycaps apart with an `x`. `prev` is the code point before. -/
def separate : Nat → List Nat → List Nat
  | prev, keycap :: next :: rest =>
    if isKeycapBase prev && keycap == 0x20E3 && joinsGrapheme 0x20E3 next then
      0x78 :: keycap :: separate keycap (next :: rest)
    else keycap :: separate keycap (next :: rest)
  | _, rest => rest

theorem head?_separate {prev : Nat} (h : isKeycapBase prev = false) (rest : List Nat) :
    (separate prev rest).head? = rest.head? := by
  cases rest with
  | nil => rfl
  | cons k rest =>
    cases rest with
    | nil => rfl
    | cons next rest => simp [separate, h]

/-- Nothing is put after U+FE0F, so a code point sees what it saw. -/
theorem isEmojiOccurrence_separate (cp k : Nat) (rest : List Nat) :
    isEmojiOccurrence cp (k :: separate k rest) = isEmojiOccurrence cp (k :: rest) := by
  cases hk : isKeycapBase cp with
  | false => exact isEmojiOccurrence_other hk rfl rfl
  | true =>
    rw [isEmojiOccurrence_keycap hk, isEmojiOccurrence_keycap hk]
    simp only [List.head?_cons, List.tail_cons, Option.some.injEq]
    split
    · next hvs =>
      subst hvs
      rw [head?_separate (by decide)]
    · rfl

theorem passesOverKeycap_separate : ∀ (prev : Nat) (rest : List Nat),
    passesOverKeycap (prev :: separate prev rest) = false
  | _, [] => rfl
  | _, [_] => rfl
  | prev, k :: next :: rest => by
    have ih := passesOverKeycap_separate k (next :: rest)
    rw [separate]
    split
    · next hpassed =>
      rw [Bool.and_eq_true, Bool.and_eq_true, beq_iff_eq] at hpassed
      obtain ⟨⟨-, rfl⟩, -⟩ := hpassed
      -- the `x` is no keycap base, and none stands before it
      generalize separate 0x20E3 (next :: rest) = after at ih ⊢
      cases after with
      | nil => simp [passesOverKeycap]
      | cons a after =>
        simp [passesOverKeycap, ih, show isKeycapBase 0x78 = false by decide]
    · next hkept =>
      have hhead : ∀ d after, separate k (next :: rest) = d :: after →
          k = 0x20E3 → d = next := by
        rintro d after hsep rfl
        have := @head?_separate 0x20E3 (by decide) (next :: rest)
        rw [hsep] at this
        exact Option.some.inj this
      generalize separate k (next :: rest) = after at ih hhead ⊢
      cases after with
      | nil => simp [passesOverKeycap]
      | cons a after =>
        rw [passesOverKeycap, ih, Bool.or_false, Bool.eq_false_iff]
        intro hagain
        rw [Bool.and_eq_true, Bool.and_eq_true, beq_iff_eq] at hagain
        obtain ⟨⟨hbase, rfl⟩, hjoin⟩ := hagain
        rw [hhead a after rfl rfl] at hjoin
        exact hkept (by simp [hbase, hjoin])

/-- Every keycap that is kept apart is an occurrence less. -/
theorem length_emojiOccurrences_separate : ∀ (prev : Nat) (rest : List Nat),
    (emojiOccurrences (prev :: separate prev rest)).length ≤
        (emojiOccurrences (prev :: rest)).length ∧
      (passesOverKeycap (prev :: rest) = true →
        (emojiOccurrences (prev :: separate prev rest)).length <
          (emojiOccurrences (prev :: rest)).length)
  | _, [] => ⟨Nat.le_refl _, fun h => by cases h⟩
  | _, [_] => ⟨Nat.le_refl _, fun h => by cases h⟩
  | prev, k :: next :: rest => by
    obtain ⟨ihle, ihlt⟩ := length_emojiOccurrences_separate k (next :: rest)
    rw [separate]
    split
    · next hpassed =>
      rw [Bool.and_eq_true, Bool.and_eq_true, beq_iff_eq] at hpassed
      obtain ⟨⟨hbase, rfl⟩, -⟩ := hpassed
      have hx : ∀ after, emojiOccurrences (0x78 :: after) = emojiOccurrences after := by
        intro after
        simp [emojiOccurrences, isEmojiOccurrence, show hasEmojiProperty 0x78 = false by decide]
      have hbefore : ∀ after, isEmojiOccurrence prev (0x78 :: after) = false := by
        intro after
        simp [isEmojiOccurrence_keycap hbase]
      have hwas : ∀ after, isEmojiOccurrence prev (0x20E3 :: after) = true := by
        intro after
        simp [isEmojiOccurrence_keycap hbase]
      have hlt :
          (emojiOccurrences (prev :: 0x78 :: 0x20E3 :: separate 0x20E3 (next :: rest))).length
          < (emojiOccurrences (prev :: 0x20E3 :: next :: rest)).length := by
        rw [emojiOccurrences, hbefore, emojiOccurrences.eq_def (prev :: 0x20E3 :: next :: rest)]
        simp [hwas, hx]
        omega
      exact ⟨Nat.le_of_lt hlt, fun _ => hlt⟩
    · next hkept =>
      rw [emojiOccurrences, isEmojiOccurrence_separate,
        emojiOccurrences.eq_def (prev :: k :: next :: rest)]
      dsimp only
      rw [passesOverKeycap, Bool.eq_false_iff.mpr hkept, Bool.false_or]
      split
      · rw [List.length_cons, List.length_cons]
        exact ⟨Nat.succ_le_succ ihle, fun h => Nat.succ_lt_succ (ihlt h)⟩
      · exact ⟨ihle, ihlt⟩

end Mozkey.Zenz.OutputValidator
