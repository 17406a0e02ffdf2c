import Mozkey.Base.ScriptType
import Mozkey.Base.Utf8Text

/-!
# Fronts of texts

The characters that the trie of the romaji table steps through, and the lower case it looks
keys up in. Both are read from the front, so a long enough front of a text decides how its first
characters are read (`char32s_front`, `lowerString_front`). A text without capitals is its own lower
case (`lowerString_of_not_hasCapital`).
-/

namespace Mozkey.Base

open Infra

/-! ## Characters -/

/-- `SplitFirstChar32` with its length. It fails on an ill-formed text with the character 0 and
an empty rest, so all that is left counts as one character. -/
def nextChar32 (s : Bytes) : Option ((Nat × Nat) × Nat) :=
  if s.isEmpty then none
  else
    match splitFirstChar32 s with
    | some (c, len) => some ((c, len), len)
    | none => some ((0, s.length), s.length)

/-- The characters of a text with their lengths in bytes. -/
def char32s (s : Bytes) : List (Nat × Nat) := (walk nextChar32 s).1

/-- The bytes of the first `n` characters. -/
def bytesOf (chars : List (Nat × Nat)) (n : Nat) : Nat := ((chars.take n).map (·.2)).sum

theorem trailingBytes_append : ∀ {n result : Nat} {rest : Bytes} (more : Bytes), n ≤ rest.length →
    trailingBytes n result (rest ++ more) = trailingBytes n result rest
  | 0, _, _, _, _ => rfl
  | _ + 1, _, [], _, h => absurd h (by simp)
  | n + 1, result, c :: rest, more, h => by
    rw [List.cons_append, trailingBytes, trailingBytes,
      trailingBytes_append more (by rw [List.length_cons] at h; omega)]

theorem sequenceHead_len_le {b : Nat} {head : SequenceHead} (h : sequenceHead b = some head) :
    head.len ≤ 6 := by
  unfold sequenceHead at h
  split_ifs at h <;> rw [Option.some.injEq] at h <;> subst h <;> simp

variable {s : Bytes}

/-- No sequence is longer than six bytes. -/
theorem splitFirstChar32_append (more : Bytes) (h : 6 ≤ s.length) :
    splitFirstChar32 (s ++ more) = splitFirstChar32 s := by
  cases s with
  | nil => simp at h
  | cons c rest =>
    rw [List.length_cons] at h
    rw [List.cons_append, splitFirstChar32, splitFirstChar32]
    split
    · rfl
    · cases hhead : sequenceHead c.toNat with
      | none => rfl
      | some head =>
        have hlen := sequenceHead_len_le hhead
        show sequence head (rest ++ more) = sequence head rest
        rw [sequence, sequence, trailingBytes_append more (by omega)]

theorem splitFirstChar32_len {c len : Nat} (h : splitFirstChar32 s = some (c, len)) :
    0 < len ∧ len ≤ 6 := by
  refine ⟨(splitFirstChar32_some h).1, ?_⟩
  cases s with
  | nil => cases h
  | cons b rest =>
    rw [splitFirstChar32] at h
    split at h
    · simp at h
      omega
    · split at h
      · cases h
      · next head hhead =>
        have hle := sequenceHead_len_le hhead
        obtain ⟨hlen, -⟩ := sequence_some h
        omega

theorem char32s_nil : char32s [] = [] := rfl

theorem char32s_of_some {c len : Nat} (h : splitFirstChar32 s = some (c, len)) :
    char32s s = (c, len) :: char32s (s.drop len) := by
  have hne : s ≠ [] := by
    rintro rfl
    cases h
  have hnext : nextChar32 s = some ((c, len), len) := by
    rw [nextChar32, if_neg (by simpa using hne), h]
  rw [char32s, walk_of_some hnext hne (splitFirstChar32_len h).1]
  rfl

theorem char32s_of_none (hne : s ≠ []) (h : splitFirstChar32 s = none) :
    char32s s = [(0, s.length)] := by
  have hnext : nextChar32 s = some ((0, s.length), s.length) := by
    rw [nextChar32, if_neg (by simpa using hne), h]
  rw [char32s, walk_of_some hnext hne (List.length_pos_of_ne_nil hne), List.drop_length]
  rfl

theorem bytesOf_cons (token : Nat × Nat) (chars : List (Nat × Nat)) (n : Nat) :
    bytesOf (token :: chars) (n + 1) = token.2 + bytesOf chars n := by
  simp [bytesOf]

/-- The characters take up the text. -/
theorem bytesOf_char32s : ∀ (len : Nat) (s : Bytes), s.length ≤ len → ∀ n : Nat,
    bytesOf (char32s s) n ≤ s.length ∧
      (bytesOf (char32s s) n < s.length → n < (char32s s).length)
  | _, [], _, n => by simp [char32s_nil, bytesOf]
  | 0, _ :: _, h, _ => absurd h (by simp)
  | len + 1, c :: s, h, n => by
    cases hs : splitFirstChar32 (c :: s) with
    | none =>
      rw [char32s_of_none (List.cons_ne_nil c s) hs]
      cases n with
      | zero => simp [bytesOf]
      | succ n => simp [bytesOf]
    | some token =>
      obtain ⟨cp, size⟩ := token
      obtain ⟨hpos, hle, -⟩ := splitFirstChar32_some hs
      rw [char32s_of_some hs, List.length_cons, List.length_cons]
      cases n with
      | zero => simp [bytesOf]
      | succ n =>
        have ih := bytesOf_char32s len ((c :: s).drop size) (by rw [List.length_drop]; omega) n
        rw [List.length_drop, List.length_cons] at ih
        rw [List.length_cons] at hle
        rw [bytesOf_cons]
        dsimp only
        refine ⟨by omega, fun hlt => ?_⟩
        have hlt := ih.2 (by omega)
        omega

/-- Two texts agree on what their first `n` characters are. The bytes of the first characters are
the same as well, unless these are the whole text. -/
structure FrontAgrees (n : Nat) (s s' : Bytes) : Prop where
  chars : ((char32s s).map (·.1)).take n = ((char32s s').map (·.1)).take n
  bytes : ∀ m, m ≤ n →
    bytesOf (char32s s) m = bytesOf (char32s s') m ∧ bytesOf (char32s s) m ≤ s.length ∧
        bytesOf (char32s s) m ≤ 6 * m ∨
      bytesOf (char32s s) m = s.length ∧ bytesOf (char32s s') m = s'.length

/-- **The first characters of a text are those of a long enough front.** -/
theorem char32s_front : ∀ (n : Nat) (u w w' : Bytes), 6 * n ≤ u.length →
    FrontAgrees n (u ++ w) (u ++ w')
  | 0, u, w, w', _ => by
    refine ⟨by simp, fun m hm => Or.inl ?_⟩
    simp [Nat.le_zero.mp hm, bytesOf]
  | n + 1, u, w, w', h => by
    have hne : ∀ x : Bytes, u ++ x ≠ [] := by
      intro x hnil
      rw [(List.append_eq_nil_iff.mp hnil).1, List.length_nil] at h
      omega
    have hfirst : ∀ x, splitFirstChar32 (u ++ x) = splitFirstChar32 u :=
      fun x => splitFirstChar32_append x (by omega)
    cases hs : splitFirstChar32 u with
    | none =>
      rw [hs] at hfirst
      refine ⟨?_, fun m _ => ?_⟩
      · simp [char32s_of_none (hne w) (hfirst w), char32s_of_none (hne w') (hfirst w')]
      · rw [char32s_of_none (hne w) (hfirst w), char32s_of_none (hne w') (hfirst w')]
        cases m with
        | zero => exact Or.inl ⟨rfl, Nat.zero_le _, Nat.zero_le _⟩
        | succ m => exact Or.inr ⟨by simp [bytesOf], by simp [bytesOf]⟩
    | some token =>
      obtain ⟨c, len⟩ := token
      rw [hs] at hfirst
      obtain ⟨hpos, hlen⟩ := splitFirstChar32_len hs
      have hdrop : ∀ x, (u ++ x).drop len = u.drop len ++ x :=
        fun x => List.drop_append_of_le_length (by omega)
      have ih := char32s_front n (u.drop len) w w' (by rw [List.length_drop]; omega)
      have hchars : ∀ x, char32s (u ++ x) = (c, len) :: char32s (u.drop len ++ x) := by
        intro x
        rw [char32s_of_some (hfirst x), hdrop]
      have hsize : ∀ x : Bytes, (u.drop len ++ x).length + len = (u ++ x).length := by
        intro x
        simp
        omega
      refine ⟨?_, fun m hm => ?_⟩
      · simp [hchars w, hchars w', ih.chars]
      · cases m with
        | zero => exact Or.inl ⟨rfl, Nat.zero_le _, Nat.zero_le _⟩
        | succ m =>
          have hcons : ∀ x, bytesOf (char32s (u ++ x)) (m + 1)
              = len + bytesOf (char32s (u.drop len ++ x)) m := by
            intro x
            simp [hchars x, bytesOf]
          have hw := hsize w
          have hw' := hsize w'
          rw [hcons w, hcons w']
          rcases ih.bytes m (by omega) with ⟨heq, hle, hle'⟩ | ⟨heq, heq'⟩
          · exact Or.inl ⟨by rw [heq], by omega, by omega⟩
          · exact Or.inr ⟨by omega, by omega⟩

/-! ## Lower case -/

def kOffsetFromUpperToLower : Nat := 0x20

def isUpperCase (codepoint : Nat) : Bool :=
  inRange codepoint 0x41 0x5A || inRange codepoint 0xFF21 0xFF3A

/-- The bytes of the first character in lower case. There are none when their number would
change, which ends the loop. -/
def lowerChar (s : Bytes) : Option (Bytes × Nat) :=
  match decodeUtf8 s with
  | none => none
  | some (codepoint, len) =>
    if isUpperCase codepoint then
      let utf8 := codepointToUtf8 (codepoint + kOffsetFromUpperToLower)
      if utf8.length = len then some (utf8, len) else none
    else some (s.take len, len)

def lowerString (str : Bytes) : Bytes :=
  (walk lowerChar str).1.flatten ++ (walk lowerChar str).2

theorem oneCharLen_le (c : UInt8) : 0 < oneCharLen c ∧ oneCharLen c ≤ 4 := by
  unfold oneCharLen
  split_ifs <;> simp

theorem decodeTrailing_append : ∀ {n seen base : Nat} {rest : Bytes} (more : Bytes),
    n ≤ rest.length → decodeTrailing n seen base (rest ++ more) = decodeTrailing n seen base rest
  | 0, _, _, _, _, _ => rfl
  | _ + 1, _, _, [], _, h => absurd h (by simp)
  | n + 1, seen, base, c :: rest, more, h => by
    rw [List.cons_append, decodeTrailing, decodeTrailing,
      decodeTrailing_append more (by rw [List.length_cons] at h; omega)]

theorem decodeTrailing_len : ∀ (n seen base : Nat) (rest : Bytes),
    seen ≤ (decodeTrailing n seen base rest).2 ∧ (decodeTrailing n seen base rest).2 ≤ seen + n ∧
      (decodeTrailing n seen base rest).2 ≤ seen + rest.length
  | 0, seen, _, _ => ⟨Nat.le_refl _, Nat.le_refl _, Nat.le_add_right _ _⟩
  | n + 1, seen, _, [] => ⟨Nat.le_refl _, Nat.le_add_right _ _, Nat.le_refl _⟩
  | n + 1, seen, base, c :: rest => by
    rw [decodeTrailing, List.length_cons]
    split
    · have ih := decodeTrailing_len n (seen + 1) (base * 64 + c.toNat % 64) rest
      omega
    · exact ⟨Nat.le_refl _, Nat.le_add_right _ _, Nat.le_add_right _ _⟩

theorem decodeSequence_append {needed modulus : Nat} {c : UInt8} {rest : Bytes} (more : Bytes)
    (hn : 2 ≤ needed) (h : needed ≤ rest.length + 1) :
    decodeSequence needed modulus c (rest ++ more) = decodeSequence needed modulus c rest := by
  cases rest with
  | nil => exact absurd h (by simp; omega)
  | cons second rest =>
    rw [List.length_cons] at h
    rw [List.cons_append, decodeSequence, decodeSequence]
    rw [decodeTrailing_append more (by omega)]

theorem decodeSequence_len {needed modulus : Nat} {c : UInt8} {rest : Bytes} (hn : 2 ≤ needed)
    (h : needed ≤ rest.length + 1) : 0 < (decodeSequence needed modulus c rest).2 ∧
      (decodeSequence needed modulus c rest).2 ≤ needed := by
  cases rest with
  | nil => exact absurd h (by simp; omega)
  | cons second rest =>
    have hlen := fun base => decodeTrailing_len (needed - 2) 2 base rest
    rw [decodeSequence]
    split_ifs
    · exact ⟨Nat.one_pos, by omega⟩
    · have hlen := hlen (c.toNat % modulus * 64 + second.toNat % 64)
      omega
    · exact ⟨Nat.one_pos, by omega⟩
    · have hlen := hlen (c.toNat % modulus * 64 + second.toNat % 64)
      omega

/-- No character is longer than four bytes. -/
theorem decodeUtf8_append (more : Bytes) (h : 4 ≤ s.length) :
    decodeUtf8 (s ++ more) = decodeUtf8 s := by
  cases s with
  | nil => simp at h
  | cons c rest =>
    have hone := oneCharLen_le c
    rw [List.length_cons] at h
    rw [List.cons_append, decodeUtf8, decodeUtf8, List.length_append]
    dsimp only
    rw [if_neg (show ¬rest.length + more.length + 1 < oneCharLen c by omega),
      if_neg (show ¬rest.length + 1 < oneCharLen c by omega),
      decodeSequence_append more (by omega) (by omega),
      decodeSequence_append more (by omega) (by omega),
      decodeSequence_append more (by omega) (by omega)]

theorem handleBufferTooShort_len (c : UInt8) (rest : Bytes) :
    0 < handleBufferTooShort c rest ∧ handleBufferTooShort c rest ≤ rest.length + 1 := by
  cases rest with
  | nil => exact ⟨Nat.one_pos, Nat.le_refl _⟩
  | cons second rest =>
    have hle : (rest.takeWhile isUtf8TrailingByte).length ≤ rest.length :=
      (List.takeWhile_sublist isUtf8TrailingByte).length_le
    rw [handleBufferTooShort, List.length_cons]
    split_ifs
    · omega
    · omega

theorem decodeUtf8_len {cp len : Nat} (h : decodeUtf8 s = some (cp, len)) :
    0 < len ∧ len ≤ s.length := by
  cases s with
  | nil => cases h
  | cons c rest =>
    have hshort := handleBufferTooShort_len c rest
    have hone := oneCharLen_le c
    rw [decodeUtf8] at h
    rw [List.length_cons]
    dsimp only at h
    split at h
    · simp at h
      omega
    · split at h
      · simp at h
        omega
      · next hlong =>
        split_ifs at h with h3 h2 h4
        · have hlen := @decodeSequence_len 3 0x10 c rest (by omega) (by omega)
          rw [Option.some.injEq] at h
          rw [h] at hlen
          omega
        · have hlen := @decodeSequence_len 2 0x20 c rest (by omega) (by omega)
          rw [Option.some.injEq] at h
          rw [h] at hlen
          omega
        · have hlen := @decodeSequence_len 4 0x08 c rest (by omega) (by omega)
          rw [Option.some.injEq] at h
          rw [h] at hlen
          omega
        · simp at h
          omega

theorem lowerChar_len {b : Bytes} {len : Nat} (h : lowerChar s = some (b, len)) :
    0 < len ∧ len ≤ s.length ∧ b.length = len := by
  unfold lowerChar at h
  split at h
  · cases h
  · next cp n hdec =>
    obtain ⟨hpos, hle⟩ := decodeUtf8_len hdec
    dsimp only at h
    split_ifs at h with hupper hsize
    · cases h
      exact ⟨hpos, hle, hsize⟩
    · cases h
      refine ⟨hpos, hle, ?_⟩
      simp [Nat.min_eq_left hle]

theorem lowerChar_append (more : Bytes) (h : 4 ≤ s.length) :
    lowerChar (s ++ more) = lowerChar s := by
  unfold lowerChar
  rw [decodeUtf8_append more h]
  cases hdec : decodeUtf8 s with
  | none => rfl
  | some token =>
    obtain ⟨cp, len⟩ := token
    have hle := (decodeUtf8_len hdec).2
    dsimp only
    rw [List.take_append_of_le_length hle]

theorem lowerString_of_none (h : lowerChar s = none) : lowerString s = s := by
  cases s with
  | nil => rfl
  | cons c rest =>
    rw [lowerString, walk_of_none (List.cons_ne_nil c rest) h]
    rfl

theorem lowerString_of_some {b : Bytes} {len : Nat} (h : lowerChar s = some (b, len)) :
    lowerString s = b ++ lowerString (s.drop len) := by
  obtain ⟨hpos, hle, -⟩ := lowerChar_len h
  have hne : s ≠ [] := by
    rintro rfl
    simp at hle
    omega
  simp [lowerString, walk_of_some h hne hpos]

theorem lowerString_length : ∀ (n : Nat) (s : Bytes), s.length ≤ n →
    (lowerString s).length = s.length
  | _, [], _ => rfl
  | 0, _ :: _, h => absurd h (by simp)
  | n + 1, c :: s, h => by
    cases hlower : lowerChar (c :: s) with
    | none => rw [lowerString_of_none hlower]
    | some token =>
      obtain ⟨b, len⟩ := token
      obtain ⟨hpos, hle, hb⟩ := lowerChar_len hlower
      rw [lowerString_of_some hlower, List.length_append, lowerString_length n _ (by
        rw [List.length_drop]; omega), List.length_drop, hb]
      omega

/-- **The lower case of a text begins with what a front of it decides.** -/
theorem lowerString_front (w w' : Bytes) : ∀ (n : Nat) (u : Bytes), u.length ≤ n →
    ∃ front x x', lowerString (u ++ w) = front ++ x ∧ lowerString (u ++ w') = front ++ x' ∧
      u.length ≤ front.length + 3
  | 0, u, h => ⟨[], _, _, rfl, rfl, by omega⟩
  | n + 1, u, h => by
    by_cases hshort : u.length ≤ 3
    · exact ⟨[], _, _, rfl, rfl, by omega⟩
    · have hchar : ∀ x, lowerChar (u ++ x) = lowerChar u := fun x => lowerChar_append x (by omega)
      cases hlower : lowerChar u with
      | none =>
        rw [hlower] at hchar
        exact ⟨u, w, w', lowerString_of_none (hchar w), lowerString_of_none (hchar w'), by omega⟩
      | some token =>
        obtain ⟨b, len⟩ := token
        obtain ⟨hpos, hle, hb⟩ := lowerChar_len hlower
        rw [hlower] at hchar
        have hstep : ∀ x, lowerString (u ++ x) = b ++ lowerString (u.drop len ++ x) := by
          intro x
          rw [lowerString_of_some (hchar x), List.drop_append_of_le_length hle]
        obtain ⟨front, x, x', hx, hx', hlen⟩ := lowerString_front w w' n (u.drop len) (by
          rw [List.length_drop]; omega)
        refine ⟨b ++ front, x, x', ?_, ?_, ?_⟩
        · simp [hstep w, hx]
        · simp [hstep w', hx']
        · rw [List.length_drop] at hlen
          simp
          omega

/-! ## Texts without capitals -/

/-- A full-width capital letter is written out. -/
def HasFullWidthCapital (s : Bytes) : Prop :=
  ∃ b : UInt8, inRange b.toNat 0xA1 0xBA = true ∧ [0xEF, 0xBC, b] <:+: s

def HasCapital (s : Bytes) : Prop :=
  (∃ b ∈ s, inRange b.toNat 0x41 0x5A = true) ∨ HasFullWidthCapital s

theorem HasCapital.drop {n : Nat} (h : HasCapital (s.drop n)) : HasCapital s := by
  rcases h with ⟨b, hb, hrange⟩ | ⟨b, hrange, hin⟩
  · exact Or.inl ⟨b, List.mem_of_mem_drop hb, hrange⟩
  · exact Or.inr ⟨b, hrange, hin.trans (List.drop_suffix n s).isInfix⟩

theorem isUpperCase_iff {c : Nat} :
    isUpperCase c = true ↔ 0x41 ≤ c ∧ c ≤ 0x5A ∨ 0xFF21 ≤ c ∧ c ≤ 0xFF3A := by
  simp [isUpperCase, inRange]

theorem isUpperCase_decodeTrailing {n seen base : Nat} {rest : Bytes}
    (h : isUpperCase (decodeTrailing n seen base rest).1 = true) :
    n ≤ rest.length ∧ (∀ b ∈ rest.take n, isUtf8TrailingByte b = true) ∧
      (decodeTrailing n seen base rest).1 =
        (rest.take n).foldl (fun value b => value * 64 + b.toNat % 64) base := by
  induction n generalizing seen base rest with
  | zero => exact ⟨Nat.zero_le _, by simp, rfl⟩
  | succ n ih =>
    cases rest with
    | nil => cases h
    | cons c rest =>
      rw [decodeTrailing] at h ⊢
      split at h
      · next hc =>
        obtain ⟨hlen, htrail, hvalue⟩ := ih h
        rw [if_pos hc, List.take_succ_cons, List.length_cons, List.foldl_cons]
        refine ⟨by omega, fun b hb => ?_, hvalue⟩
        rcases List.mem_cons.mp hb with rfl | hb
        · exact hc
        · exact htrail b hb
      · cases h

theorem oneCharLen_eq {b : UInt8} {needed : Nat} (h : oneCharLen b = needed) (hlong : 2 ≤ needed) :
    needed = 2 ∧ 0xC2 ≤ b.toNat ∧ b.toNat ≤ 0xDF ∨ needed = 3 ∧ 0xE0 ≤ b.toNat ∧ b.toNat ≤ 0xEF ∨
      needed = 4 ∧ 0xF0 ≤ b.toNat ∧ b.toNat ≤ 0xF4 := by
  unfold oneCharLen at h
  split_ifs at h <;> omega

theorem isValidSecondByte_iff {b second : UInt8} (h : isValidSecondByte b second = true) :
    0x80 ≤ second.toNat ∧ second.toNat ≤ 0xBF ∧ (b.toNat = 0xE0 → 0xA0 ≤ second.toNat) ∧
      (b.toNat = 0xF0 → 0x90 ≤ second.toNat) := by
  unfold isValidSecondByte at h
  simp only [inRange, beq_iff_eq] at h
  split_ifs at h <;> simp only [Bool.and_eq_true, decide_eq_true_eq] at h <;> omega

theorem isUtf8TrailingByte_iff {b : UInt8} :
    isUtf8TrailingByte b = true ↔ 0x80 ≤ b.toNat ∧ b.toNat ≤ 0xBF := by
  simp [isUtf8TrailingByte, decide_eq_true_eq]
  omega

/-- A capital takes the three bytes of a full-width letter. -/
theorem hasFullWidthCapital_of_decodeSequence {needed modulus : Nat} {b : UInt8} {rest : Bytes}
    (hneeded : oneCharLen b = needed)
    (hmodulus : needed = 2 ∧ modulus = 0x20 ∨ needed = 3 ∧ modulus = 0x10 ∨
      needed = 4 ∧ modulus = 0x08)
    (h : isUpperCase (decodeSequence needed modulus b rest).1 = true) :
    HasFullWidthCapital (b :: rest) := by
  cases rest with
  | nil => cases h
  | cons second rest =>
    rw [decodeSequence] at h
    generalize hsecond :
      (if needed = 2 then isUtf8TrailingByte second else isValidSecondByte b second) = valid at h
    cases valid with
    | false => cases h
    | true =>
      rw [Bool.not_true, if_neg Bool.false_ne_true] at h
      obtain ⟨hlen, htrail, hvalue⟩ := isUpperCase_decodeTrailing h
      rw [hvalue, isUpperCase_iff] at h
      have hlead := oneCharLen_eq hneeded (by omega)
      rcases hmodulus with ⟨rfl, rfl⟩ | ⟨rfl, rfl⟩ | ⟨rfl, rfl⟩
      · -- a character of two bytes is not written in fewer
        rw [if_pos rfl, isUtf8TrailingByte_iff] at hsecond
        simp at h
        omega
      · obtain ⟨third, rest, rfl⟩ :=
          List.exists_cons_of_length_pos (Nat.lt_of_lt_of_le Nat.one_pos hlen)
        rw [if_neg (by omega)] at hsecond
        obtain ⟨hlow, hhigh, hE0, -⟩ := isValidSecondByte_iff hsecond
        have hthird := isUtf8TrailingByte_iff.mp (htrail third List.mem_cons_self)
        simp only [Nat.reduceSub, List.take_succ_cons, List.take_zero, List.foldl_cons,
          List.foldl_nil] at h
        obtain rfl : b = 0xEF := UInt8.toNat_inj.mp (show b.toNat = 0xEF by omega)
        obtain rfl : second = 0xBC := UInt8.toNat_inj.mp (show second.toNat = 0xBC by omega)
        refine ⟨third, ?_, [], rest, rfl⟩
        simp only [inRange, Bool.and_eq_true, decide_eq_true_eq]
        simp at h
        omega
      · obtain ⟨third, rest, rfl⟩ :=
          List.exists_cons_of_length_pos (Nat.lt_of_lt_of_le Nat.two_pos hlen)
        rw [List.length_cons] at hlen
        obtain ⟨fourth, rest, rfl⟩ := List.exists_cons_of_length_pos (l := rest) (by omega)
        rw [if_neg (by omega)] at hsecond
        obtain ⟨hlow, hhigh, -, hF0⟩ := isValidSecondByte_iff hsecond
        simp at h
        omega

/-- **What is decoded as a capital is written as one.** -/
theorem hasCapital_of_decodeUtf8 {c len : Nat} (h : decodeUtf8 s = some (c, len))
    (hupper : isUpperCase c = true) : HasCapital s := by
  cases s with
  | nil => cases h
  | cons b rest =>
    rw [decodeUtf8] at h
    split at h
    · next hascii =>
      obtain ⟨rfl, -⟩ := Prod.mk.inj (Option.some.inj h)
      rw [isUpperCase_iff] at hupper
      refine Or.inl ⟨b, List.mem_cons_self, ?_⟩
      simp [inRange, decide_eq_true_eq]
      omega
    · right
      dsimp only at h
      have hfst :
          ∀ {token : Nat × Nat}, some token = some (c, len) → isUpperCase token.1 = true := by
        intro token htoken
        rw [Option.some.inj htoken]
        exact hupper
      split_ifs at h with hshort h3 h2 h4
      · obtain ⟨rfl, -⟩ := Prod.mk.inj (Option.some.inj h)
        cases hupper
      · exact hasFullWidthCapital_of_decodeSequence h3 (by omega) (hfst h)
      · exact hasFullWidthCapital_of_decodeSequence h2 (by omega) (hfst h)
      · exact hasFullWidthCapital_of_decodeSequence h4 (by omega) (hfst h)
      · obtain ⟨rfl, -⟩ := Prod.mk.inj (Option.some.inj h)
        cases hupper

theorem lowerString_of_not_hasCapital : ∀ (n : Nat) {s : Bytes}, s.length ≤ n → ¬HasCapital s →
    lowerString s = s
  | _, [], _, _ => rfl
  | 0, _ :: _, hn, _ => absurd hn (by simp)
  | n + 1, c :: s, hn, h => by
    cases hlower : lowerChar (c :: s) with
    | none => exact lowerString_of_none hlower
    | some token =>
      obtain ⟨b, len⟩ := token
      obtain ⟨hpos, -, -⟩ := lowerChar_len hlower
      have hrest : lowerString ((c :: s).drop len) = (c :: s).drop len := by
        refine lowerString_of_not_hasCapital n ?_ (fun hdrop => h hdrop.drop)
        rw [List.length_drop]
        omega
      rw [lowerString_of_some hlower, hrest]
      unfold lowerChar at hlower
      split at hlower
      · cases hlower
      · next cp size hdecode =>
        split at hlower
        · next hupper => exact absurd (hasCapital_of_decodeUtf8 hdecode hupper) h
        · obtain ⟨rfl, rfl⟩ := Prod.mk.inj (Option.some.inj hlower)
          exact List.take_append_drop size (c :: s)

end Mozkey.Base
