import Mozkey.Base.Utf8Text

/-!
# Encoding a code point

What `CodepointToUtf8` writes is one character, which the strict decoder reads as the same code
point, and every character but U+0000 is what is written for its code point.
-/

namespace Mozkey.Base

open Infra

theorem leading_toNat {base value : Nat} (h : base + value < 256) :
    (leading base value).toNat = base + value := by
  simpa [leading] using Nat.mod_eq_of_lt h

theorem trailing_toNat (value : Nat) : (trailing value).toNat = 0x80 + value % 64 := by
  rw [trailing, UInt8.toNat_ofNat']
  exact Nat.mod_eq_of_lt (by omega)

theorem trailing_isTrailing (value : Nat) : isUtf8TrailingByte (trailing value) = true := by
  simp [isUtf8TrailingByte, trailing_toNat, decide_eq_true_eq]
  omega

theorem trailing_of_isTrailing {b : UInt8} (h : isUtf8TrailingByte b = true) {value : Nat}
    (hvalue : value % 64 = b.toNat % 64) : trailing value = b := by
  rw [isUtf8TrailingByte, Bool.and_eq_true, decide_eq_true_eq, decide_eq_true_eq] at h
  refine UInt8.toNat_inj.mp ?_
  rw [trailing_toNat]
  omega

/-! ## The sequence of a code point -/

/-- The last `n` digits of a code point. -/
def trailings : Nat → Nat → Bytes
  | 0, _ => []
  | n + 1, c => trailing (c / 64 ^ n) :: trailings n c

/-- The sequence that the strict decoder reads as a code point. -/
def sequenceOf (c : Nat) : Bytes :=
  if c < 0x80 then [UInt8.ofNat c]
  else if c < 0x800 then leading 0xC0 (c / 64 ^ 1) :: trailings 1 c
  else if c < 0x10000 then leading 0xE0 (c / 64 ^ 2) :: trailings 2 c
  else if c < 0x200000 then leading 0xF0 (c / 64 ^ 3) :: trailings 3 c
  else if c < 0x4000000 then leading 0xF8 (c / 64 ^ 4) :: trailings 4 c
  else leading 0xFC (c / 64 ^ 5) :: trailings 5 c

/-- The code points that are read from six bytes and written with five. -/
def IsShortened (c : Nat) : Prop := 0x4000000 ≤ c ∧ c < 0x8000000

instance (c : Nat) : Decidable (IsShortened c) := inferInstanceAs (Decidable (_ ∧ _))

variable {c : Nat} {u : Bytes}

theorem isTrailing_of_mem_trailings {b : UInt8} : ∀ {n : Nat}, b ∈ trailings n c →
    isUtf8TrailingByte b = true
  | n + 1, h => by
    rw [trailings] at h
    rcases List.mem_cons.mp h with rfl | h
    · exact trailing_isTrailing _
    · exact isTrailing_of_mem_trailings h

/-- The trailing bytes shift their digits in. -/
theorem trailingBytes_trailings : ∀ n result c : Nat,
    trailingBytes n result (trailings n c) = some (result * 64 ^ n + c % 64 ^ n)
  | 0, result, c => by rw [trailingBytes, Nat.pow_zero, Nat.mul_one, Nat.mod_one, Nat.add_zero]
  | n + 1, result, c => by
    have hbits : (0x80 + c / 64 ^ n % 64) % 64 = c / 64 ^ n % 64 := by omega
    rw [trailings, trailingBytes, if_pos (trailing_isTrailing _), trailing_toNat, hbits,
      trailingBytes_trailings n, Nat.mod_pow_succ, Nat.pow_succ]
    refine congrArg some ?_
    rw [Nat.add_mul, Nat.mul_assoc, Nat.mul_comm 64, Nat.mul_comm (c / 64 ^ n % 64), Nat.add_assoc,
      Nat.add_comm (64 ^ n * _)]

/-- The bytes that are read are the digits of what they are read as. -/
theorem trailingBytes_digits : ∀ {n result v : Nat} {rest : Bytes}, rest.length = n →
    trailingBytes n result rest = some v → v / 64 ^ n = result ∧ rest = trailings n v
  | 0, result, v, rest, hlen, h => by
    obtain rfl := List.length_eq_zero_iff.mp hlen
    rw [trailingBytes, Option.some.injEq] at h
    exact ⟨by rw [h, Nat.pow_zero, Nat.div_one], rfl⟩
  | n + 1, result, v, [], hlen, h => by cases hlen
  | n + 1, result, v, c :: rest, hlen, h => by
    rw [trailingBytes] at h
    split at h
    · next hc =>
      obtain ⟨hhigh, hrest⟩ := trailingBytes_digits (Nat.succ.inj hlen) h
      refine ⟨by rw [Nat.pow_succ, ← Nat.div_div_eq_div_mul, hhigh]; omega, ?_⟩
      rw [trailings, trailing_of_isTrailing hc (by rw [hhigh]; omega), ← hrest]
    · cases h

/-- **What is read as a code point is its sequence.** -/
theorem eq_sequenceOf (h : splitFirstChar32 u = some (c, u.length)) :
    c < 0x80000000 ∧ u = sequenceOf c := by
  cases u with
  | nil => cases h
  | cons b tail =>
    rw [splitFirstChar32] at h
    split at h
    · next hascii =>
      rw [Option.some.injEq, Prod.mk.injEq, List.length_cons] at h
      obtain rfl : tail = [] := List.length_eq_zero_iff.mp (by omega)
      obtain ⟨rfl, -⟩ := h
      rw [sequenceOf, if_pos hascii, UInt8.ofNat_toNat]
      exact ⟨by omega, rfl⟩
    · split at h
      · cases h
      · next head hhead =>
        obtain ⟨hlen, hlo, htrail, -⟩ := sequence_some h
        rw [List.length_cons] at hlen
        obtain ⟨hhigh, htail⟩ := trailingBytes_digits (by omega) htrail
        have hfirst : ∀ base value, base + value = b.toNat → leading base value = b := by
          intro base value hbase
          have hbyte := b.toNat_lt
          refine UInt8.toNat_inj.mp ?_
          rw [leading_toNat (by omega), hbase]
        unfold sequenceHead at hhead
        -- the length of the sequence and the size of the code point say the same
        split_ifs at hhead with h1 h2 h3 h4 h5 h6 <;> rw [Option.some.injEq] at hhead <;>
          subst hhead <;> dsimp only at hlo hhigh htail <;> refine ⟨by omega, ?_⟩ <;>
          rw [sequenceOf, htail]
        · rw [if_neg (by omega), if_pos (by omega), hfirst 0xC0 _ (by omega)]
        · rw [if_neg (by omega), if_neg (by omega), if_pos (by omega), hfirst 0xE0 _ (by omega)]
        · rw [if_neg (by omega), if_neg (by omega), if_neg (by omega), if_pos (by omega),
            hfirst 0xF0 _ (by omega)]
        · rw [if_neg (by omega), if_neg (by omega), if_neg (by omega), if_neg (by omega),
            if_pos (by omega), hfirst 0xF8 _ (by omega)]
        · rw [if_neg (by omega), if_neg (by omega), if_neg (by omega), if_neg (by omega),
            if_neg (by omega), hfirst 0xFC _ (by omega)]

/-- A sequence is read by itself. -/
theorem splitFirstChar32_take {s : Bytes} {len : Nat} (h : splitFirstChar32 s = some (c, len)) :
    splitFirstChar32 (s.take len) = some (c, (s.take len).length) := by
  obtain ⟨-, hle, hmore⟩ := splitFirstChar32_some h
  rw [List.length_take, Nat.min_eq_left hle]
  simpa using hmore []

theorem splitFirstChar32_of_head {n base minValue maxValue : Nat}
    (hhead : sequenceHead (base + c / 64 ^ n) = some ⟨n + 1, minValue, maxValue, c / 64 ^ n⟩)
    (hbyte : base + c / 64 ^ n < 256) (hmin : minValue ≤ c) (hmax : c ≤ maxValue) :
    splitFirstChar32 (leading base (c / 64 ^ n) :: trailings n c) = some (c, n + 1) := by
  have hascii : ¬base + c / 64 ^ n < 0x80 := by
    intro hlt
    rw [sequenceHead, if_pos (by omega)] at hhead
    cases hhead
  have hin : ¬(decide (c < minValue) || decide (maxValue < c)) = true := by
    simp [decide_eq_true_eq]
    omega
  rw [splitFirstChar32, leading_toNat hbyte, if_neg hascii, hhead]
  dsimp only
  rw [sequence, Nat.add_sub_cancel, trailingBytes_trailings, Nat.div_add_mod']
  exact if_neg hin

/-- **The sequence of a code point is read as the code point.** -/
theorem splitFirstChar32_sequenceOf (hc : c < 0x80000000) :
    splitFirstChar32 (sequenceOf c) = some (c, (sequenceOf c).length) := by
  unfold sequenceOf
  split
  · next h =>
    have hbyte : (UInt8.ofNat c).toNat = c := by
      rw [UInt8.toNat_ofNat']
      exact Nat.mod_eq_of_lt (by omega)
    simp [splitFirstChar32, hbyte, h]
  -- every other sequence has its own head
  split
  · have hbits : (0xC0 + c / 64 ^ 1) % 0x20 = c / 64 ^ 1 := by omega
    exact splitFirstChar32_of_head (by
      rw [sequenceHead, if_neg (by omega), if_pos (by omega), hbits])
      (by omega) (by omega) (by omega)
  split
  · have hbits : (0xE0 + c / 64 ^ 2) % 0x10 = c / 64 ^ 2 := by omega
    exact splitFirstChar32_of_head (by
      rw [sequenceHead, if_neg (by omega), if_neg (by omega), if_pos (by omega), hbits])
      (by omega) (by omega) (by omega)
  split
  · have hbits : (0xF0 + c / 64 ^ 3) % 0x08 = c / 64 ^ 3 := by omega
    exact splitFirstChar32_of_head (by
      rw [sequenceHead, if_neg (by omega), if_neg (by omega), if_neg (by omega), if_pos (by omega),
        hbits])
      (by omega) (by omega) (by omega)
  split
  · have hbits : (0xF8 + c / 64 ^ 4) % 0x04 = c / 64 ^ 4 := by omega
    exact splitFirstChar32_of_head (by
      rw [sequenceHead, if_neg (by omega), if_neg (by omega), if_neg (by omega), if_neg (by omega),
        if_pos (by omega), hbits])
      (by omega) (by omega) (by omega)
  · have hbits : (0xFC + c / 64 ^ 5) % 0x02 = c / 64 ^ 5 := by omega
    exact splitFirstChar32_of_head (by
      rw [sequenceHead, if_neg (by omega), if_neg (by omega), if_neg (by omega), if_neg (by omega),
        if_neg (by omega), if_pos (by omega), hbits])
      (by omega) (by omega) (by omega)

/-! ## The encoder -/

theorem codepointToUtf8_eq (hpos : c ≠ 0) (hc : c < 0x80000000) (h : ¬IsShortened c) :
    codepointToUtf8 c = sequenceOf c := by
  unfold IsShortened at h
  have hfour : c < 0x4000000 → c / 16777216 % 4 = c / 16777216 := fun _ => by omega
  have hfive : c / 1073741824 % 2 = c / 1073741824 := by omega
  unfold codepointToUtf8 sequenceOf
  split_ifs <;> try omega
  · rfl
  · simp [trailings]
  · simp [trailings]
  · simp [trailings]
  · simp [hfour (by omega), trailings]
  · simp [hfive, trailings]

/-- The first byte shows that a sequence was shortened. -/
theorem head_of_shortened (h : IsShortened c) : ∃ b rest b' rest',
    sequenceOf c = b :: rest ∧ codepointToUtf8 c = b' :: rest' ∧ b ≠ b' := by
  obtain ⟨hlow, hhigh⟩ := h
  refine ⟨leading 0xFC (c / 64 ^ 5), trailings 5 c, leading 0xF8 (c / 16777216 % 4),
    [trailing (c / 262144), trailing (c / 4096), trailing (c / 64), trailing c], ?_, ?_,
    fun heq => ?_⟩
  · rw [sequenceOf, if_neg (by omega), if_neg (by omega), if_neg (by omega), if_neg (by omega),
      if_neg (by omega)]
  · rw [codepointToUtf8, if_neg (by omega), if_neg (by omega), if_neg (by omega),
      if_neg (by omega), if_neg (by omega), if_pos hhigh]
  · have hbytes := congrArg UInt8.toNat heq
    rw [leading_toNat (by omega), leading_toNat (by omega)] at hbytes
    omega

/-- **An encoded code point is one character.** -/
theorem splitFirstChar32_codepointToUtf8 (hpos : 0 < c) (hc : c < 0x200000) :
    splitFirstChar32 (codepointToUtf8 c) = some (c, (codepointToUtf8 c).length) := by
  have hshort : ¬IsShortened c := fun h => by
    have := h.1
    omega
  rw [codepointToUtf8_eq (by omega) (by omega) hshort]
  exact splitFirstChar32_sequenceOf (by omega)

theorem isUnicode_codepointToUtf8 (hc : c ≤ 0x10FFFF) :
    IsUnicode (codepointToUtf8 c) := by
  rcases Nat.eq_zero_or_pos c with rfl | hpos
  · exact isUnicode_nil
  · have hchar : IsChar (codepointToUtf8 c) :=
      ⟨c, hc, splitFirstChar32_codepointToUtf8 hpos (by omega)⟩
    have hone := (isUnicode_cons hchar).mpr isUnicode_nil
    rwa [List.append_nil] at hone

theorem isUnicode_flatMap_codepointToUtf8 {codepoints : List Nat}
    (h : ∀ c ∈ codepoints, c ≤ 0x10FFFF) : IsUnicode (codepoints.flatMap codepointToUtf8) :=
  isUnicode_flatMap fun c hc => isUnicode_codepointToUtf8 (h c hc)

/-- The code points that were encoded are read, but U+0000. -/
theorem utf8ToUtf32_flatMap_codepointToUtf8 : ∀ {codepoints : List Nat},
    (∀ c ∈ codepoints, c < 0x200000) →
    utf8ToUtf32 (codepoints.flatMap codepointToUtf8) = codepoints.filter (· ≠ 0)
  | [], _ => rfl
  | c :: codepoints, h => by
    have ih := utf8ToUtf32_flatMap_codepointToUtf8 (List.forall_mem_cons.mp h).2
    rw [List.flatMap_cons]
    by_cases hzero : c = 0
    · rw [hzero, codepointToUtf8, if_pos rfl, List.nil_append, ih,
        List.filter_cons_of_neg (by simp)]
    · have hsplit := splitFirstChar32_codepointToUtf8 (Nat.pos_of_ne_zero hzero)
        (h c List.mem_cons_self)
      have hne : codepointToUtf8 c ≠ [] := by
        intro hnil
        rw [hnil] at hsplit
        cases hsplit
      obtain ⟨-, -, hmore⟩ := splitFirstChar32_some hsplit
      have hread := hmore (codepoints.flatMap codepointToUtf8)
      rw [List.take_length] at hread
      rw [utf8ToUtf32, walk_token hne _ hread, List.filter_cons_of_pos (by simp [hzero]), ← ih]
      rfl

/-! ## Characters and their code points -/

theorem utf8ToUtf32_chars : ∀ {chars : List Bytes}, (∀ u ∈ chars, IsChar u) →
    utf8ToUtf32 chars.flatten = chars.map utf8ToCodepoint
  | [], _ => rfl
  | u :: chars, h => by
    have hu := h u List.mem_cons_self
    have hwalk := walk_token hu.ne_nil chars.flatten (hu.split_codepoint _)
    simp [utf8ToUtf32, hwalk, ← utf8ToUtf32_chars (List.forall_mem_cons.mp h).2]

/-- An ASCII byte is a character of its own. -/
theorem IsUnicode.ascii_mem {s : Bytes} (h : IsUnicode s) {b : UInt8} (hb : b ∈ s)
    (hascii : b.toNat < 0x80) : b.toNat ∈ utf8ToUtf32 s := by
  obtain ⟨chars, hchars, rfl⟩ := (isUnicode_iff s).mp h
  obtain ⟨u, hu, hbu⟩ := List.mem_flatten.mp hb
  obtain ⟨c, tail, rfl, -, -, htail⟩ := (hchars u hu).bytes
  rw [utf8ToUtf32_chars hchars]
  rcases List.mem_cons.mp hbu with rfl | hbtail
  · refine List.mem_map.mpr ⟨b :: tail, hu, ?_⟩
    rw [utf8ToCodepoint, splitFirstChar32, if_pos hascii]
  · have htrail := htail b hbtail
    simp [isUtf8TrailingByte, decide_eq_true_eq] at htrail
    omega

/-- A sequence is what is written for its code point, but for those of six bytes that are written
with five. -/
theorem codepointToUtf8_of_split {cp : Nat} (h : splitFirstChar32 u = some (cp, u.length))
    (hpos : cp ≠ 0) (hshort : ¬IsShortened cp) :
    codepointToUtf8 cp = u := by
  obtain ⟨hrange, rfl⟩ := eq_sequenceOf h
  exact codepointToUtf8_eq hpos hrange hshort

theorem IsChar.eq_sequenceOf (h : IsChar u) : u = sequenceOf (utf8ToCodepoint u) := by
  obtain ⟨cp, -, hu⟩ := h
  have hcode : utf8ToCodepoint u = cp := by rw [utf8ToCodepoint, hu]
  rw [hcode]
  exact (Base.eq_sequenceOf hu).2

/-- **A character is what is written for its code point.** -/
theorem IsChar.eq_codepointToUtf8 (h : IsChar u) (hpos : utf8ToCodepoint u ≠ 0) :
    codepointToUtf8 (utf8ToCodepoint u) = u := by
  obtain ⟨cp, hcp, hu⟩ := h
  have hcode : utf8ToCodepoint u = cp := by rw [utf8ToCodepoint, hu]
  rw [hcode] at hpos ⊢
  exact codepointToUtf8_of_split hu hpos fun hshort => absurd hshort.1 (by omega)

theorem IsChar.codepoint_injective {v : Bytes} (hu : IsChar u) (hv : IsChar v)
    (h : utf8ToCodepoint u = utf8ToCodepoint v) : u = v := by
  rw [hu.eq_sequenceOf, h, ← hv.eq_sequenceOf]

/-! ## The lenient decoder -/

theorem decodeOneUtf8_selfRead : SelfRead Base.decodeOneUtf8 := by
  intro s c len h
  cases s with
  | nil => cases h
  | cons b rest =>
    have hsequence :
        ∀ {n result : Nat}, (trailingBytes n result rest).map (·, n + 1) = some (c, len) →
        0 < len ∧ len ≤ (b :: rest).length ∧
          ∀ more, (trailingBytes n result ((rest.take n) ++ more)).map (·, n + 1) = some (c, len) ∧
            len = n + 1 := by
      intro n result hread
      obtain ⟨v, hv, heq⟩ := Option.map_eq_some_iff.mp hread
      cases heq
      obtain ⟨hle, -, -, -, hmore⟩ := trailingBytes_some hv
      refine ⟨Nat.succ_pos n, Nat.succ_le_succ hle, fun more => ⟨?_, rfl⟩⟩
      simp [hmore more]
    rw [Base.decodeOneUtf8] at h
    split at h
    · next hascii =>
      cases h
      refine ⟨Nat.one_pos, by simp, fun more => ?_⟩
      rw [List.take_succ_cons, List.cons_append, Base.decodeOneUtf8]
      exact if_pos hascii
    · next hascii =>
      split at h
      · next hhead =>
        obtain ⟨hpos, hle, hmore⟩ := hsequence h
        refine ⟨hpos, hle, fun more => ?_⟩
        obtain ⟨hread, hlen⟩ := hmore more
        simp [hlen, Base.decodeOneUtf8, hascii, hhead, hread]
      · next hhead =>
        split at h
        · next hhead' =>
          obtain ⟨hpos, hle, hmore⟩ := hsequence h
          refine ⟨hpos, hle, fun more => ?_⟩
          obtain ⟨hread, hlen⟩ := hmore more
          simp [hlen, Base.decodeOneUtf8, hascii, hhead, hhead', hread]
        · next hhead' =>
          split at h
          · next hhead'' =>
            obtain ⟨hpos, hle, hmore⟩ := hsequence h
            refine ⟨hpos, hle, fun more => ?_⟩
            obtain ⟨hread, hlen⟩ := hmore more
            simp [hlen, Base.decodeOneUtf8, hascii, hhead, hhead', hhead'', hread]
          · cases h

/-- On characters the lenient decoder reads what the strict one reads. -/
theorem IsChar.decodeOneUtf8 (h : IsChar u) (rest : Bytes) :
    Base.decodeOneUtf8 (u ++ rest) = some (utf8ToCodepoint u, u.length) := by
  obtain ⟨cp, hcp, hu⟩ := h
  have hsplit := IsChar.split_codepoint ⟨cp, hcp, hu⟩ rest
  have hcode : utf8ToCodepoint u = cp := by rw [utf8ToCodepoint, hu]
  cases u with
  | nil => cases hu
  | cons c tail =>
    rw [List.cons_append] at hsplit ⊢
    rw [splitFirstChar32] at hsplit
    rw [Base.decodeOneUtf8]
    split at hsplit
    · next hascii =>
      simpa [hascii] using hsplit
    · next hascii =>
      split at hsplit
      · cases hsplit
      · next head hhead =>
        obtain ⟨hlen, hlo, htrail, -⟩ := sequence_some hsplit
        rw [hcode] at hlo
        rw [if_neg hascii]
        unfold sequenceHead at hhead
        split_ifs at hhead with h1 h2 h3 h4 h5 h6 <;> rw [Option.some.injEq] at hhead <;>
          subst hhead <;> dsimp only at hlo hlen htrail
        · rw [if_pos (by simp; omega), htrail, hlen]
          rfl
        · rw [if_neg (by simp; omega), if_pos (by simp; omega), htrail, hlen]
          rfl
        · rw [if_neg (by simp; omega), if_neg (by simp; omega), if_pos (by simp; omega), htrail,
            hlen]
          rfl
        · omega
        · omega

end Mozkey.Base
