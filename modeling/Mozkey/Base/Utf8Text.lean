import Mathlib.Tactic.SplitIfs
import Mozkey.Base.Utf8

/-!
# Unicode texts

What `base/util.cc` and `base/strings/unicode.cc` make of well-formed UTF-8. A character is a
byte string that the strict decoder reads to its end, as a code point of Unicode. The strict
decoder accepts longer sequences as well, which the functions that go by leading bytes do not
know.

* `IsUnicode.exists_chars` — a Unicode text is a list of characters
* `utf8SubString_first`, `utf8SubString_last` — its first and last character are found by leading
  bytes
-/

namespace Mozkey.Base

open Infra

/-! ## The strict decoder -/

/-- `n` trailing bytes shift the value by `n` digits. -/
theorem trailingBytes_some : ∀ {n result v : Nat} {rest : Bytes},
    trailingBytes n result rest = some v →
    n ≤ rest.length ∧ (∀ c ∈ rest.take n, isUtf8TrailingByte c = true) ∧
      result * 64 ^ n ≤ v ∧ v < (result + 1) * 64 ^ n ∧
      ∀ more, trailingBytes n result (rest.take n ++ more) = some v
  | 0, result, v, rest, h => by
    rw [trailingBytes, Option.some.injEq] at h
    subst h
    refine ⟨Nat.zero_le _, by simp, by omega, by omega, fun more => rfl⟩
  | n + 1, result, v, [], h => by cases h
  | n + 1, result, v, c :: rest, h => by
    rw [trailingBytes] at h
    split at h
    · next hc =>
      obtain ⟨hlen, hall, hlo, hhi, hmore⟩ := trailingBytes_some h
      have hdigit : c.toNat % 64 < 64 := Nat.mod_lt _ (by omega)
      refine ⟨by rw [List.length_cons]; omega, ?_, ?_, ?_, ?_⟩
      · intro d hd
        rw [List.take_succ_cons] at hd
        rcases List.mem_cons.mp hd with rfl | hd
        · exact hc
        · exact hall d hd
      · calc result * 64 ^ (n + 1) = result * 64 * 64 ^ n := by rw [Nat.pow_succ', Nat.mul_assoc]
          _ ≤ (result * 64 + c.toNat % 64) * 64 ^ n := Nat.mul_le_mul_right _ (by omega)
          _ ≤ v := hlo
      · calc v < (result * 64 + c.toNat % 64 + 1) * 64 ^ n := hhi
          _ ≤ (result + 1) * 64 * 64 ^ n := Nat.mul_le_mul_right _ (by omega)
          _ = (result + 1) * 64 ^ (n + 1) := by rw [Nat.pow_succ', Nat.mul_assoc]
      · intro more
        simpa [trailingBytes, hc] using hmore more
    · cases h

variable {head : SequenceHead} {u : Bytes} {chars : List Bytes}

theorem sequence_some {cp len : Nat} {rest : Bytes} (h : sequence head rest = some (cp, len)) :
    len = head.len ∧ head.minValue ≤ cp ∧ trailingBytes (head.len - 1) head.result rest = some cp ∧
      ∀ more, sequence head (rest.take (head.len - 1) ++ more) = some (cp, head.len) := by
  unfold sequence at h
  split at h
  · cases h
  · next v hv =>
    split at h
    · cases h
    · next hrange =>
      rw [Option.some.injEq, Prod.mk.injEq] at h
      obtain ⟨rfl, rfl⟩ := h
      obtain ⟨-, -, -, -, hmore⟩ := trailingBytes_some hv
      have hlo : head.minValue ≤ v := by
        simp [decide_eq_true_eq, not_or] at hrange
        omega
      refine ⟨rfl, hlo, hv, fun more => ?_⟩
      rw [sequence, hmore more]
      exact if_neg hrange

theorem sequenceHead_pos {b : Nat} (h : sequenceHead b = some head) :
    0 < head.len := by
  unfold sequenceHead at h
  split_ifs at h <;> rw [Option.some.injEq] at h <;> subst h <;> exact Nat.succ_pos _

/-- A token of the decoder is read from its own bytes. -/
theorem splitFirstChar32_some {l : Bytes} {cp len : Nat}
    (h : splitFirstChar32 l = some (cp, len)) :
    0 < len ∧ len ≤ l.length ∧ ∀ more, splitFirstChar32 (l.take len ++ more) = some (cp, len) := by
  cases l with
  | nil => cases h
  | cons c rest =>
    rw [splitFirstChar32] at h
    split at h
    · next hascii =>
      cases h
      refine ⟨Nat.one_pos, by simp, fun more => ?_⟩
      simp [splitFirstChar32, hascii]
    · next hascii =>
      split at h
      · cases h
      · next head hhead =>
        have hpos := sequenceHead_pos hhead
        obtain ⟨rfl, -, htrail, hmore⟩ := sequence_some h
        obtain ⟨hlen, -⟩ := trailingBytes_some htrail
        obtain ⟨n, hn⟩ : ∃ n, head.len = n + 1 := ⟨head.len - 1, by omega⟩
        refine ⟨hpos, by rw [List.length_cons]; omega, fun more => ?_⟩
        have hm := hmore more
        rw [hn, Nat.add_sub_cancel] at hm
        simpa [hn, splitFirstChar32, hascii, hhead] using hm

theorem splitFirstChar32_local : Local splitFirstChar32 := by
  intro l cp len h
  obtain ⟨hpos, hlen, hmore⟩ := splitFirstChar32_some h
  refine ⟨hpos, hlen, fun rest => ?_⟩
  have hm := hmore (l.drop len ++ rest)
  rwa [← List.append_assoc, List.take_append_drop] at hm

/-! ## Characters -/

/-- One character of Unicode. -/
def IsChar (u : Bytes) : Prop := ∃ c, c ≤ 0x10FFFF ∧ splitFirstChar32 u = some (c, u.length)

/-- A text of Unicode characters. -/
def IsUnicode (s : Bytes) : Prop := isValidUtf8 s = true ∧ ∀ c ∈ utf8ToUtf32 s, c ≤ 0x10FFFF

instance (s : Bytes) : Decidable (IsUnicode s) := inferInstanceAs (Decidable (_ ∧ _))

theorem IsChar.ne_nil (h : IsChar u) : u ≠ [] := by
  rintro rfl
  obtain ⟨c, -, hc⟩ := h
  cases hc

theorem IsChar.split (h : IsChar u) : ∃ c, c ≤ 0x10FFFF ∧
    ∀ rest, splitFirstChar32 (u ++ rest) = some (c, u.length) := by
  obtain ⟨c, hc, hu⟩ := h
  refine ⟨c, hc, fun rest => ?_⟩
  obtain ⟨-, -, hmore⟩ := splitFirstChar32_some hu
  have hm := hmore rest
  rwa [List.take_length] at hm

theorem isUnicode_nil : IsUnicode [] := by decide

theorem isUnicode_cons {rest : Bytes} (hu : IsChar u) :
    IsUnicode (u ++ rest) ↔ IsUnicode rest := by
  obtain ⟨c, hc, hsplit⟩ := hu.split
  have hwalk := walk_token hu.ne_nil rest (hsplit rest)
  unfold IsUnicode isValidUtf8 utf8ToUtf32
  rw [hwalk]
  simp [hc]

theorem isUnicode_flatten : ∀ {chars : List Bytes}, (∀ u ∈ chars, IsChar u) →
    IsUnicode chars.flatten
  | [], _ => isUnicode_nil
  | u :: chars, h => by
    simpa [isUnicode_cons (h u List.mem_cons_self)] using isUnicode_flatten (List.forall_mem_cons.mp
      h).2

/-- The first character of a text. -/
theorem IsUnicode.exists_first {s : Bytes} (h : IsUnicode s) (hne : s ≠ []) :
    ∃ u rest, s = u ++ rest ∧ IsChar u ∧ IsUnicode rest := by
  obtain ⟨hvalid, hrange⟩ := h
  cases hs : splitFirstChar32 s with
  | none =>
    rw [isValidUtf8, walk_of_none hne hs, List.isEmpty_iff] at hvalid
    exact absurd hvalid hne
  | some token =>
    obtain ⟨cp, len⟩ := token
    obtain ⟨hpos, hlen, hmore⟩ := splitFirstChar32_some hs
    have hcp : cp ≤ 0x10FFFF := by
      refine hrange cp ?_
      rw [utf8ToUtf32, walk_of_some hs hne hpos]
      exact List.mem_cons_self
    have hchar : IsChar (s.take len) := by
      refine ⟨cp, hcp, ?_⟩
      rw [List.length_take, Nat.min_eq_left hlen]
      have hm := hmore []
      rwa [List.append_nil] at hm
    refine ⟨s.take len, s.drop len, (List.take_append_drop len s).symm, hchar, ?_⟩
    rw [← isUnicode_cons hchar, List.take_append_drop]
    exact ⟨hvalid, hrange⟩

/-- **A Unicode text is a list of characters.** -/
theorem IsUnicode.exists_chars : ∀ {n : Nat} {s : Bytes}, s.length ≤ n → IsUnicode s →
    ∃ chars : List Bytes, (∀ u ∈ chars, IsChar u) ∧ s = chars.flatten
  | _, [], _, _ => ⟨[], by simp, rfl⟩
  | 0, _ :: _, hn, _ => absurd hn (by simp)
  | n + 1, c :: s, hn, h => by
    obtain ⟨u, rest, hs, hu, hrest⟩ := h.exists_first (List.cons_ne_nil c s)
    have hpos : 0 < u.length := List.length_pos_of_ne_nil hu.ne_nil
    have hlen : rest.length ≤ n := by
      have hcount := congrArg List.length hs
      rw [List.length_append, List.length_cons] at hcount
      simp at hn
      omega
    obtain ⟨chars, hchars, rfl⟩ := hrest.exists_chars hlen
    refine ⟨u :: chars, ?_, hs⟩
    intro v hv
    rcases List.mem_cons.mp hv with rfl | hv
    · exact hu
    · exact hchars v hv

theorem isUnicode_iff (s : Bytes) :
    IsUnicode s ↔ ∃ chars : List Bytes, (∀ u ∈ chars, IsChar u) ∧ s = chars.flatten := by
  constructor
  · exact IsUnicode.exists_chars (Nat.le_refl _)
  · rintro ⟨chars, hchars, rfl⟩
    exact isUnicode_flatten hchars

theorem IsUnicode.append {a b : Bytes} (ha : IsUnicode a) (hb : IsUnicode b) :
    IsUnicode (a ++ b) := by
  obtain ⟨as, has, rfl⟩ := (isUnicode_iff a).mp ha
  obtain ⟨bs, hbs, rfl⟩ := (isUnicode_iff b).mp hb
  rw [← List.flatten_append]
  refine isUnicode_flatten fun u hu => ?_
  rcases List.mem_append.mp hu with hu | hu
  · exact has u hu
  · exact hbs u hu

theorem isUnicode_flatMap {α : Type} {f : α → Bytes} : ∀ {l : List α},
    (∀ a ∈ l, IsUnicode (f a)) → IsUnicode (l.flatMap f)
  | [], _ => isUnicode_nil
  | a :: l, h => by
    simpa using (h a List.mem_cons_self).append (isUnicode_flatMap (List.forall_mem_cons.mp h).2)

/-! ## The part that can be read -/

/-- The code point of a character in front of anything. -/
theorem IsChar.split_codepoint (h : IsChar u) (rest : Bytes) :
    splitFirstChar32 (u ++ rest) = some (utf8ToCodepoint u, u.length) := by
  obtain ⟨c, hc⟩ := h.split
  have hu := hc.2 []
  rw [List.append_nil] at hu
  rw [hc.2 rest, utf8ToCodepoint, hu]

/-- **What can be read of a text is a list of characters.** -/
theorem exists_readable_chars : ∀ {n : Nat} {s : Bytes}, s.length ≤ n →
    (∀ c ∈ utf8ToUtf32 s, c ≤ 0x10FFFF) → ∃ chars : List Bytes, (∀ u ∈ chars, IsChar u) ∧
      s = chars.flatten ++ (walk splitFirstChar32 s).2 ∧ utf8ToUtf32 s = chars.map utf8ToCodepoint
  | _, [], _, _ => ⟨[], by simp, rfl, rfl⟩
  | 0, _ :: _, hn, _ => absurd hn (by simp)
  | n + 1, c :: s, hn, h => by
    cases hs : splitFirstChar32 (c :: s) with
    | none =>
      have hwalk := walk_of_none (List.cons_ne_nil c s) hs
      exact ⟨[], by simp, by simp [hwalk], by simp [utf8ToUtf32, hwalk]⟩
    | some token =>
      obtain ⟨cp, len⟩ := token
      obtain ⟨hpos, hlen, hmore⟩ := splitFirstChar32_some hs
      have hwalk := walk_of_some hs (List.cons_ne_nil c s) hpos
      rw [utf8ToUtf32, hwalk] at h
      have hm := hmore []
      rw [List.append_nil] at hm
      have hchar : IsChar ((c :: s).take len) := by
        refine ⟨cp, h cp List.mem_cons_self, ?_⟩
        rw [List.length_take, Nat.min_eq_left hlen, hm]
      have hshort : ((c :: s).drop len).length ≤ n := by
        rw [List.length_drop]
        omega
      obtain ⟨chars, hchars, hs', hcps⟩ :=
        exists_readable_chars hshort (List.forall_mem_cons.mp h).2
      refine ⟨(c :: s).take len :: chars, ?_, ?_, ?_⟩
      · intro v hv
        rcases List.mem_cons.mp hv with rfl | hv
        · exact hchar
        · exact hchars v hv
      · simp [hwalk, ← hs']
      · have hcp : utf8ToCodepoint ((c :: s).take len) = cp := by rw [utf8ToCodepoint, hm]
        rw [utf8ToUtf32] at hcps
        simp [utf8ToUtf32, hwalk, hcps, hcp]

/-! ## Validity of a concatenation -/

theorem walk_flatten {pieces : List Bytes} (h : ∀ s ∈ pieces, isValidUtf8 s = true) :
    isValidUtf8 pieces.flatten = true ∧
      utf8ToUtf32 pieces.flatten = pieces.flatMap utf8ToUtf32 := by
  induction pieces with
  | nil => exact ⟨rfl, rfl⟩
  | cons s pieces ih =>
    obtain ⟨hvalid, hpoints⟩ := ih (List.forall_mem_cons.mp h).2
    have hs : (walk splitFirstChar32 s).2 = [] :=
      List.isEmpty_iff.mp (h s List.mem_cons_self)
    have hwalk := walk_append splitFirstChar32_local pieces.flatten s.length s (Nat.le_refl _) hs
    rw [List.flatten_cons, isValidUtf8, utf8ToUtf32, hwalk]
    refine ⟨hvalid, ?_⟩
    rw [List.flatMap_cons, ← hpoints]
    rfl

/-! ## Characters by their leading bytes -/

/-- The table of lengths agrees with the decoder as far as Unicode goes. -/
theorem oneCharLen_of_sequenceHead {c : UInt8} {cp : Nat} {rest : Bytes}
    (hhead : sequenceHead c.toNat = some head) (hcp : cp ≤ 0x10FFFF) (hlo : head.minValue ≤ cp)
    (htrail : trailingBytes (head.len - 1) head.result rest = some cp) :
    oneCharLen c = head.len := by
  obtain ⟨-, -, hle, hlt, -⟩ := trailingBytes_some htrail
  unfold sequenceHead at hhead
  unfold oneCharLen
  split_ifs at hhead <;> rw [Option.some.injEq] at hhead <;> subst hhead <;>
    simp only at * <;> split_ifs <;> omega

theorem sequenceHead_ascii {b : Nat} (h : sequenceHead b = some head) :
    0xC0 ≤ b := by
  unfold sequenceHead at h
  split_ifs at h <;> omega

/-- A leading byte and its trailing bytes. -/
theorem IsChar.bytes (h : IsChar u) : ∃ c tail, u = c :: tail ∧
    oneCharLen c = u.length ∧ isUtf8TrailingByte c = false ∧
    ∀ d ∈ tail, isUtf8TrailingByte d = true := by
  obtain ⟨cp, hcp, hu⟩ := h
  cases u with
  | nil => cases hu
  | cons c tail =>
    refine ⟨c, tail, rfl, ?_⟩
    rw [splitFirstChar32] at hu
    split at hu
    · next hascii =>
      rw [Option.some.injEq, Prod.mk.injEq, List.length_cons] at hu
      have htail : tail = [] := List.length_eq_zero_iff.mp (by omega)
      subst htail
      refine ⟨?_, ?_, by simp⟩
      · rw [oneCharLen, if_pos (by omega)]
        rfl
      · rw [isUtf8TrailingByte, Bool.and_eq_false_iff, decide_eq_false_iff_not]
        exact Or.inl (by omega)
    · split at hu
      · cases hu
      · next head hhead =>
        obtain ⟨hlen, hlo, htrail, -⟩ := sequence_some hu
        obtain ⟨-, hall, -⟩ := trailingBytes_some htrail
        rw [List.length_cons] at hlen
        refine ⟨?_, ?_, ?_⟩
        · simp [oneCharLen_of_sequenceHead hhead hcp hlo htrail, ← hlen]
        · have hge := sequenceHead_ascii hhead
          rw [isUtf8TrailingByte, Bool.and_eq_false_iff, decide_eq_false_iff_not,
            decide_eq_false_iff_not]
          exact Or.inr (by omega)
        · intro d hd
          refine hall d ?_
          rw [List.take_of_length_le (by omega)]
          exact hd

theorem IsChar.next (h : IsChar u) (rest : Bytes) :
    nextUtf8Char (u ++ rest) = some (u, u.length) := by
  obtain ⟨c, tail, rfl, hlen, -⟩ := h.bytes
  rw [List.cons_append, nextUtf8Char, hlen, ← List.cons_append, List.take_left]

theorem IsChar.charsLen_eq (h : IsChar u) : charsLen u = 1 := by
  obtain ⟨c, tail, rfl, -, hc, htail⟩ := h.bytes
  have hzero : charsLen tail = 0 := by
    rw [charsLen, List.countP_eq_zero]
    intro d hd
    rw [htail d hd]
    decide
  rw [charsLen, List.countP_cons, ← charsLen, hzero, hc]
  rfl

theorem charsLen_flatten : ∀ {chars : List Bytes}, (∀ u ∈ chars, IsChar u) →
    charsLen chars.flatten = chars.length
  | [], _ => rfl
  | u :: chars, h => by
    have ih := charsLen_flatten (List.forall_mem_cons.mp h).2
    rw [charsLen] at ih ⊢
    rw [List.flatten_cons, List.countP_append, ih, ← charsLen,
      (h u List.mem_cons_self).charsLen_eq, List.length_cons]
    omega

theorem splitStringToUtf8Chars_flatten (h : ∀ u ∈ chars, IsChar u) :
    splitStringToUtf8Chars chars.flatten = chars := by
  have hwalk : walk nextUtf8Char (chars.flatMap id ++ []) = (chars.map id ++ [], []) :=
    walk_tokens [] chars fun u hu => ⟨(h u hu).ne_nil, (h u hu).next⟩
  rw [List.append_nil, List.flatMap_id, List.map_id] at hwalk
  simp [splitStringToUtf8Chars, hwalk]

theorem splitStringToUtf8Chars_append (h : ∀ u ∈ chars, IsChar u) (rest : Bytes) :
    splitStringToUtf8Chars (chars.flatten ++ rest) = chars ++ splitStringToUtf8Chars rest := by
  have hwalk : walk nextUtf8Char (chars.flatMap id ++ rest)
      = (chars.map id ++ (walk nextUtf8Char rest).1, (walk nextUtf8Char rest).2) :=
    walk_tokens rest chars fun u hu => ⟨(h u hu).ne_nil, (h u hu).next⟩
  rw [List.flatMap_id, List.map_id] at hwalk
  rw [splitStringToUtf8Chars, hwalk]
  rfl

/-- Characters of the readable part, whatever follows it. -/
theorem utf8SubString_readable (h : ∀ u ∈ chars, IsChar u) (rest : Bytes) {start len : Nat}
    (hlen : start + len ≤ chars.length) :
    utf8SubString (chars.flatten ++ rest) start len = ((chars.drop start).take len).flatten := by
  rw [utf8SubString, splitStringToUtf8Chars_append h,
    List.drop_append_of_le_length (by omega),
    List.take_append_of_le_length (by rw [List.length_drop]; omega)]

/-- Every byte is in a character, well-formed or not. -/
theorem flatten_walk_nextUtf8Char : ∀ (n : Nat) (s : Bytes), s.length ≤ n →
    (walk nextUtf8Char s).1.flatten = s
  | _, [], _ => rfl
  | 0, _ :: _, hn => absurd hn (by simp)
  | n + 1, c :: s, hn => by
    have hpos : 0 < oneCharLen c := by
      unfold oneCharLen
      split_ifs <;> omega
    have hnext : nextUtf8Char (c :: s) = some ((c :: s).take (oneCharLen c), oneCharLen c) := rfl
    have hshort : ((c :: s).drop (oneCharLen c)).length ≤ n := by
      rw [List.length_drop]
      omega
    simp [walk_of_some hnext (List.cons_ne_nil c s) hpos, flatten_walk_nextUtf8Char n _ hshort]

theorem flatten_splitStringToUtf8Chars (s : Bytes) : (splitStringToUtf8Chars s).flatten = s :=
  flatten_walk_nextUtf8Char s.length s (Nat.le_refl _)

theorem utf8SubString_part (s : Bytes) (start len : Nat) : utf8SubString s start len <:+: s := by
  refine ⟨((splitStringToUtf8Chars s).take start).flatten,
    (((splitStringToUtf8Chars s).drop start).drop len).flatten, ?_⟩
  rw [utf8SubString, ← List.flatten_append, ← List.flatten_append, List.append_assoc,
    List.take_append_drop, List.take_append_drop, flatten_splitStringToUtf8Chars]

/-- **The first character of a text.** -/
theorem utf8SubString_first (hu : IsChar u) (h : ∀ v ∈ chars, IsChar v) :
    utf8SubString (u :: chars).flatten 0 1 = u := by
  have hall : ∀ v ∈ u :: chars, IsChar v := by
    intro v hv
    rcases List.mem_cons.mp hv with rfl | hv
    · exact hu
    · exact h v hv
  rw [utf8SubString, splitStringToUtf8Chars_flatten hall]
  simp

/-- **The last character of a text.** -/
theorem utf8SubString_last (hu : IsChar u) (h : ∀ v ∈ chars, IsChar v) :
    utf8SubString (chars ++ [u]).flatten (charsLen (chars ++ [u]).flatten - 1) 1 = u := by
  have hall : ∀ v ∈ chars ++ [u], IsChar v := by
    intro v hv
    rcases List.mem_append.mp hv with hv | hv
    · exact h v hv
    · rw [List.mem_singleton] at hv
      exact hv ▸ hu
  rw [utf8SubString, splitStringToUtf8Chars_flatten hall, charsLen_flatten hall]
  simp

end Mozkey.Base

/-!
## Cutting a text

A text of Unicode characters has as many code points as leading bytes, and is cut into parts that
are texts again.
-/

namespace Mozkey.Base

open Infra

theorem IsUnicode.exists_characters {text : Bytes} (h : IsUnicode text) :
    ∃ chars : List Bytes, (∀ u ∈ chars, IsChar u) ∧ text = chars.flatten ∧
      utf8ToUtf32 text = chars.map utf8ToCodepoint := by
  obtain ⟨chars, hchars, heq, hpoints⟩ := exists_readable_chars (Nat.le_refl _) h.2
  have hrest : (walk splitFirstChar32 text).2 = [] := List.isEmpty_iff.mp h.1
  rw [hrest, List.append_nil] at heq
  exact ⟨chars, hchars, heq, hpoints⟩

/-- As many code points as leading bytes. -/
theorem length_utf8ToUtf32 {s : Bytes} (h : IsUnicode s) : (utf8ToUtf32 s).length = charsLen s := by
  obtain ⟨chars, hchars, rfl, hpoints⟩ := h.exists_characters
  simp [hpoints, charsLen_flatten hchars]

@[simp] theorem charsLen_nil : charsLen [] = 0 := rfl

theorem charsLen_append (a b : Bytes) : charsLen (a ++ b) = charsLen a + charsLen b :=
  List.countP_append

theorem charsLen_pos {c : UInt8} (rest : Bytes) (h : isUtf8TrailingByte c = false) :
    0 < charsLen (c :: rest) := by
  rw [charsLen, List.countP_cons_of_pos (by simp [h])]
  omega

theorem IsUnicode.eq_nil_of_charsLen {s : Bytes} (h : IsUnicode s) (hzero : charsLen s = 0) :
    s = [] := by
  obtain ⟨chars, hchars, rfl, -⟩ := h.exists_characters
  rw [charsLen_flatten hchars, List.length_eq_zero_iff] at hzero
  rw [hzero]
  rfl

/-- The part of a text from one character to another is a text. -/
theorem IsUnicode.utf8SubString {s : Bytes} (h : IsUnicode s) (start len : Nat) :
    IsUnicode (utf8SubString s start len) ∧
      charsLen (utf8SubString s start len) = min len (charsLen s - start) := by
  obtain ⟨chars, hchars, rfl, -⟩ := h.exists_characters
  have hpart : ∀ u ∈ (chars.drop start).take len, IsChar u := fun u hu =>
    hchars u (List.mem_of_mem_drop (List.mem_of_mem_take hu))
  rw [Base.utf8SubString, splitStringToUtf8Chars_flatten hchars]
  refine ⟨isUnicode_flatten hpart, ?_⟩
  simp [charsLen_flatten hpart, charsLen_flatten hchars]

/-- **Two adjoining parts are one.** -/
theorem utf8SubString_append (s : Bytes) (start len more : Nat) :
    utf8SubString s start len ++ utf8SubString s (start + len) more =
      utf8SubString s start (len + more) := by
  rw [utf8SubString, utf8SubString, utf8SubString, ← List.flatten_append, ← List.drop_drop,
    List.take_add]

theorem mem_walk_nextUtf8Char : ∀ (n : Nat) {s u : Bytes}, s.length ≤ n →
    u ∈ (walk nextUtf8Char s).1 → u ≠ []
  | _, [], u, _, h => by cases h
  | 0, _ :: _, _, hn, _ => absurd hn (by simp)
  | n + 1, c :: s, u, hn, h => by
    have hpos : 0 < oneCharLen c := by
      unfold oneCharLen
      split_ifs <;> omega
    have hnext : nextUtf8Char (c :: s) = some ((c :: s).take (oneCharLen c), oneCharLen c) := rfl
    have hshort : ((c :: s).drop (oneCharLen c)).length ≤ n := by
      rw [List.length_drop]
      omega
    rw [walk_of_some hnext (List.cons_ne_nil c s) hpos] at h
    rcases List.mem_cons.mp h with rfl | h
    · intro hnil
      rw [List.take_eq_nil_iff] at hnil
      rcases hnil with hzero | hnil
      · omega
      · cases hnil
    · exact mem_walk_nextUtf8Char n hshort h

/-- **A text is cut off if and only if it has more characters.** -/
theorem utf8SubString_eq_iff {s : Bytes} {n : Nat} :
    utf8SubString s 0 n = s ↔ (splitStringToUtf8Chars s).length ≤ n := by
  rw [utf8SubString, List.drop_zero]
  constructor
  · intro h
    by_contra hlt
    have hparts : ((splitStringToUtf8Chars s).take n).flatten
        ++ ((splitStringToUtf8Chars s).drop n).flatten = s := by
      simp [← List.flatten_append, flatten_splitStringToUtf8Chars]
    rw [h, List.append_right_eq_self] at hparts
    cases hdrop : (splitStringToUtf8Chars s).drop n with
    | nil => exact hlt (List.drop_eq_nil_iff.mp hdrop)
    | cons u rest =>
      rw [hdrop, List.flatten_cons, List.append_eq_nil_iff] at hparts
      have hmem : u ∈ splitStringToUtf8Chars s :=
        List.mem_of_mem_drop (hdrop ▸ List.mem_cons_self)
      exact mem_walk_nextUtf8Char _ (Nat.le_refl _) hmem hparts.1
  · intro h
    rw [List.take_of_length_le h, flatten_splitStringToUtf8Chars]

/-- The whole text. -/
theorem IsUnicode.utf8SubString_all {s : Bytes} (h : IsUnicode s) {len : Nat}
    (hlen : charsLen s ≤ len) : Base.utf8SubString s 0 len = s := by
  obtain ⟨chars, hchars, rfl, -⟩ := h.exists_characters
  rw [charsLen_flatten hchars] at hlen
  simp [Base.utf8SubString, splitStringToUtf8Chars_flatten hchars, List.take_of_length_le hlen]

end Mozkey.Base
