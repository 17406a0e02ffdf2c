import Mozkey.Base.ScriptType
import Mozkey.Base.Utf8Encode

/-!
# Encoding and decoding

`SplitFirstChar32`, `SplitLastChar32` and `CodepointToUtf8` of `base/util.cc`, and the iterators
over a text.

* `codec_bijective_iff` — the decoders invert the encoder but where it takes five bytes for six
-/

namespace Mozkey.Base

open Infra

def utf32ToUtf8 (str : List Nat) : Bytes := str.flatMap codepointToUtf8

/-- What `ConstChar32ReverseIterator` yields in at most so many steps. -/
def reverseChar32s : Nat → Bytes → List Nat
  | 0, _ => []
  | fuel + 1, s =>
    match splitLastChar32 s with
    | none => []
    | some (rest, c) => c :: reverseChar32s fuel rest

/-! ## Tokens -/

/-- Bytes that are read as one code point. -/
def IsToken (u : Bytes) (c : Nat) : Prop := splitFirstChar32 u = some (c, u.length)

namespace IsToken

variable {u v : Bytes} {c : Nat}

theorem injective (hu : IsToken u c) (hv : IsToken v c) : u = v :=
  (eq_sequenceOf hu).2.trans (eq_sequenceOf hv).2.symm

theorem ne_nil (h : IsToken u c) : u ≠ [] := by
  rintro rfl
  cases h

theorem append (h : IsToken u c) (rest : Bytes) :
    splitFirstChar32 (u ++ rest) = some (c, u.length) :=
  (splitFirstChar32_local _ _ _ h).2.2 rest

/-- Only the first byte is no trailing byte. -/
theorem bytes (h : IsToken u c) : ∃ b tail, u = b :: tail ∧ isUtf8TrailingByte b = false ∧
    ∀ d ∈ tail, isUtf8TrailingByte d = true := by
  obtain ⟨hrange, rfl⟩ := eq_sequenceOf h
  have hlead : ∀ base value, 0xC0 ≤ base → base + value < 256 →
      isUtf8TrailingByte (leading base value) = false := by
    intro base value hbase hbyte
    simp [isUtf8TrailingByte, leading_toNat hbyte, decide_eq_false_iff_not]
    omega
  have htail : ∀ n, ∀ d ∈ trailings n c, isUtf8TrailingByte d = true :=
    fun n d hd => isTrailing_of_mem_trailings hd
  unfold sequenceOf
  split
  · refine ⟨_, [], rfl, ?_, by simp⟩
    simp [isUtf8TrailingByte, decide_eq_false_iff_not]
    omega
  split
  · exact ⟨_, _, rfl, hlead _ _ (by omega) (by omega), htail 1⟩
  split
  · exact ⟨_, _, rfl, hlead _ _ (by omega) (by omega), htail 2⟩
  split
  · exact ⟨_, _, rfl, hlead _ _ (by omega) (by omega), htail 3⟩
  split
  · exact ⟨_, _, rfl, hlead _ _ (by omega) (by omega), htail 4⟩
  · exact ⟨_, _, rfl, hlead _ _ (by omega) (by omega), htail 5⟩

/-- **The last character is found from behind.** -/
theorem splitLast (h : IsToken u c) (t : Bytes) : splitLastChar32 (t ++ u) = some (t, c) := by
  obtain ⟨b, tail, rfl, hb, htail⟩ := h.bytes
  have htrail : (t ++ b :: tail).reverse.takeWhile isUtf8TrailingByte = tail.reverse := by
    rw [List.reverse_append, List.reverse_cons, List.append_assoc,
      List.takeWhile_append_of_pos fun d hd => htail d (List.mem_reverse.mp hd),
      List.singleton_append, List.takeWhile_cons_of_neg (by rw [hb]; exact Bool.false_ne_true),
      List.append_nil]
  have hrest : (t ++ b :: tail).take ((t ++ b :: tail).length - (tail.length + 1)) = t := by simp
  rw [splitLastChar32, htrail, List.length_reverse, if_neg (by simp; omega)]
  dsimp only
  rw [hrest, List.drop_left, h]
  exact if_pos rfl

end IsToken

/-- A valid text is a list of tokens. -/
theorem exists_isToken {s : Bytes} (h : isValidUtf8 s = true) :
    ∃ tokens : List (Nat × Bytes), s = tokens.flatMap Prod.snd ∧
      utf8ToUtf32 s = tokens.map Prod.fst ∧ ∀ token ∈ tokens, IsToken token.2 token.1 := by
  have hself : SelfRead splitFirstChar32 := fun l c len => splitFirstChar32_some
  obtain ⟨tokens, hs, hread, htokens⟩ := exists_tokens hself s.length s (Nat.le_refl _)
    (List.isEmpty_iff.mp h)
  refine ⟨tokens, hs, hread, fun token htoken => ?_⟩
  have hfirst := (htokens token htoken).2 []
  rwa [List.append_nil] at hfirst

theorem tokens_injective : ∀ {tokens tokens' : List (Nat × Bytes)},
    (∀ token ∈ tokens, IsToken token.2 token.1) → (∀ token ∈ tokens', IsToken token.2 token.1) →
    tokens.map Prod.fst = tokens'.map Prod.fst →
    tokens.flatMap Prod.snd = tokens'.flatMap Prod.snd
  | [], [], _, _, _ => rfl
  | token :: tokens, token' :: tokens', h, h', hsame => by
    obtain ⟨hcode, hsame⟩ := List.cons.inj hsame
    obtain ⟨hfirst, hrest⟩ := List.forall_mem_cons.mp h
    obtain ⟨hfirst', hrest'⟩ := List.forall_mem_cons.mp h'
    rw [hcode] at hfirst
    simp [hfirst.injective hfirst', tokens_injective hrest hrest' hsame]

/-- The iterator from behind. -/
theorem reverseChar32s_tokens : ∀ {fuel : Nat} (tokens : List (Nat × Bytes)),
    (∀ token ∈ tokens, IsToken token.2 token.1) → tokens.length ≤ fuel →
    reverseChar32s fuel (tokens.reverse.flatMap Prod.snd) = tokens.map Prod.fst
  | 0, [], _, _ => rfl
  | 0, _ :: _, _, hfuel => absurd hfuel (by simp)
  | fuel + 1, [], _, _ => rfl
  | fuel + 1, token :: tokens, h, hfuel => by
    rw [List.reverse_cons, List.flatMap_append, List.flatMap_singleton, reverseChar32s,
      (h token List.mem_cons_self).splitLast, List.map_cons]
    dsimp only
    rw [reverseChar32s_tokens tokens (List.forall_mem_cons.mp h).2
      (Nat.le_of_succ_le_succ hfuel)]

theorem length_tokens_le {tokens : List (Nat × Bytes)}
    (h : ∀ token ∈ tokens, IsToken token.2 token.1) :
    tokens.length ≤ (tokens.flatMap Prod.snd).length := by
  induction tokens with
  | nil => exact Nat.le_refl 0
  | cons token tokens ih =>
    have hpos := List.length_pos_of_ne_nil (h token List.mem_cons_self).ne_nil
    have hrest := ih (List.forall_mem_cons.mp h).2
    rw [List.flatMap_cons, List.length_append, List.length_cons]
    omega

/-- Tokens are written as they are read, but for those that are shortened. -/
theorem utf32ToUtf8_tokens {tokens : List (Nat × Bytes)}
    (h : ∀ token ∈ tokens, IsToken token.2 token.1) (hzero : 0 ∉ tokens.map Prod.fst) :
    utf32ToUtf8 (tokens.map Prod.fst) = tokens.flatMap Prod.snd ↔
      ∀ c ∈ tokens.map Prod.fst, ¬IsShortened c := by
  induction tokens with
  | nil => simp [utf32ToUtf8]
  | cons token tokens ih =>
    rw [List.map_cons, List.mem_cons, not_or] at hzero
    have htoken := h token List.mem_cons_self
    have hrest := ih (List.forall_mem_cons.mp h).2 hzero.2
    rw [utf32ToUtf8] at hrest
    rw [List.map_cons, List.forall_mem_cons, utf32ToUtf8, List.flatMap_cons, List.flatMap_cons]
    by_cases hshort : IsShortened token.1
    · refine iff_of_false (fun heq => ?_) fun hall => hall.1 hshort
      obtain ⟨b, tail, b', tail', hb, hb', hne⟩ := head_of_shortened hshort
      rw [(eq_sequenceOf htoken).2, hb, hb', List.cons_append, List.cons_append] at heq
      exact hne (List.cons.inj heq).1.symm
    · simpa [codepointToUtf8_of_split htoken (Ne.symm hzero.1) hshort, hrest] using (and_iff_right
        hshort).symm

/-! ## The codec -/

/-- What is written for a code point is read back from both ends. -/
def ReadsBack (c : Nat) : Prop :=
  (∀ s, splitFirstChar32 (codepointToUtf8 c ++ s) = some (c, (codepointToUtf8 c).length)) ∧
    ∀ t, splitLastChar32 (t ++ codepointToUtf8 c) = some (t, c)

theorem readsBack_iff {c : Nat} (hpos : 0 < c) (hc : c ≤ 0x7FFFFFFF) :
    ReadsBack c ↔ ¬IsShortened c := by
  constructor
  · rintro ⟨hfirst, -⟩ hshort
    obtain ⟨b, tail, b', tail', hb, hb', hne⟩ := head_of_shortened hshort
    have hself := hfirst []
    rw [List.append_nil] at hself
    rw [(eq_sequenceOf hself).2, hb] at hb'
    exact hne (List.cons.inj hb').1
  · intro hshort
    have htoken : IsToken (codepointToUtf8 c) c := by
      rw [codepointToUtf8_eq (by omega) (by omega) hshort]
      exact splitFirstChar32_sequenceOf (by omega)
    exact ⟨htoken.append, htoken.splitLast⟩

/-- What decoding and encoding make of a valid text. -/
structure Decodes (s : Bytes) : Prop where
  /-- It is read from behind in the reverse order. -/
  reverse : ∀ fuel, s.length ≤ fuel → reverseChar32s fuel s = (utf8ToUtf32 s).reverse
  unique : ∀ s', isValidUtf8 s' = true → utf8ToUtf32 s' = utf8ToUtf32 s → s' = s

/-- A text is written as it is read. -/
def WrittenBack (s : Bytes) : Prop := utf32ToUtf8 (utf8ToUtf32 s) = s

theorem decodes_of_valid {s : Bytes} (h : isValidUtf8 s = true) : Decodes s := by
  obtain ⟨tokens, rfl, hread, htokens⟩ := exists_isToken h
  refine ⟨fun fuel hfuel => ?_, fun s' h' hsame => ?_⟩
  · have hlen := length_tokens_le htokens
    have hrev := @reverseChar32s_tokens fuel tokens.reverse
      (fun token ht => htokens token (List.mem_reverse.mp ht)) (by rw [List.length_reverse]; omega)
    rw [List.reverse_reverse, List.map_reverse] at hrev
    rw [hrev, hread]
  · obtain ⟨tokens', rfl, hread', htokens'⟩ := exists_isToken h'
    rw [hread, hread'] at hsame
    rw [tokens_injective htokens' htokens hsame]

/-- **The decoders invert the encoder, and the encoder the decoders, exactly where no code point
is written with five bytes instead of six.** -/
theorem codec_bijective_iff {c : Nat} (hpos : 0 < c) (hc : c ≤ 0x7FFFFFFF) (s : Bytes) :
    (ReadsBack c ↔ ¬IsShortened c) ∧
      (isValidUtf8 s = true ↔ (walk splitFirstChar32 s).2 = []) ∧
      (isValidUtf8 s = true → Decodes s ∧
        (0 ∉ utf8ToUtf32 s → (WrittenBack s ↔ ∀ c ∈ utf8ToUtf32 s, ¬IsShortened c))) := by
  refine ⟨readsBack_iff hpos hc, List.isEmpty_iff, fun h => ⟨decodes_of_valid h, fun hzero => ?_⟩⟩
  obtain ⟨tokens, hs, hread, htokens⟩ := exists_isToken h
  rw [hread] at hzero ⊢
  rw [WrittenBack, hread, hs]
  exact utf32ToUtf8_tokens htokens hzero

theorem codec_bijective_iff_a : ReadsBack 0x3042 ∧ Decodes (utf8 "あ") ∧ WrittenBack (utf8 "あ") := by
  obtain ⟨hback, -, htext⟩ := @codec_bijective_iff 0x3042 (by decide) (by decide) (utf8 "あ")
  obtain ⟨hdecodes, hwritten⟩ := htext (by decide +kernel)
  exact ⟨hback.mpr (by decide), hdecodes, (hwritten (by decide +kernel)).mpr (by decide +kernel)⟩

/-- 0x4000000 is written with five bytes, which are redundant. -/
theorem shortened_not_read :
    splitFirstChar32 (codepointToUtf8 0x4000000) = none ∧
      splitLastChar32 (codepointToUtf8 0x4000000) = none ∧
      isValidUtf8 [0xFC, 0x84, 0x80, 0x80, 0x80, 0x80] = true ∧
      ¬WrittenBack [0xFC, 0x84, 0x80, 0x80, 0x80, 0x80] := by
  refine ⟨by decide +kernel, by decide +kernel, by decide +kernel, ?_⟩
  rw [WrittenBack]
  decide +kernel

end Mozkey.Base
