import Mozkey.Base.Utf8Encode

/-!
# Keys and values of the system dictionary

`dictionary/system/codec.cc`, the two encodings of a text as bytes. Keys are UTF-8 with Hiragana in
the place of control codes and letters. Values have a code of their own, with markers that keep zero
bytes out.

* `codecs_faithful` — both are undone by their decoders, have the lengths that are said, and are
  prefix codes
-/

namespace Mozkey.Dictionary

open Infra Base

/-! ## Keys -/

/-- The code point whose place is taken. -/
def swapCode (code : Nat) : Nat :=
  let offset :=
    if (0x0001 ≤ code ∧ code ≤ 0x001F) ∨ (0x3041 ≤ code ∧ code ≤ 0x305F) then 0x3041 - 0x0001
    else if (0x0040 ≤ code ∧ code ≤ 0x0075) ∨ (0x3060 ≤ code ∧ code ≤ 0x3095) then
      0x3060 - 0x0040
    else if (0x0076 ≤ code ∧ code ≤ 0x0077) ∨ (0x30FB ≤ code ∧ code ≤ 0x30FC) then
      0x30FB - 0x0076
    else 0
  if code < 0x80 then code + offset else code - offset

def encodeDecodeKeyImpl (src : Bytes) : Bytes :=
  (utf8ToUtf32 src).flatMap fun code => codepointToUtf8 (swapCode code)

/-- What a code point changes in the size. -/
def sizeChange (code : Nat) : Int :=
  if (0x3041 ≤ code ∧ code ≤ 0x3095) ∨ (0x30FB ≤ code ∧ code ≤ 0x30FC) then -2
  else if (0x0001 ≤ code ∧ code ≤ 0x001F) ∨ (0x0040 ≤ code ∧ code ≤ 0x0077) then 2
  else 0

def getEncodedDecodedKeyLengthImpl (src : Bytes) : Int :=
  (utf8ToUtf32 src).foldl (fun size code => size + sizeChange code) src.length

def encodeKey (src : Bytes) : Bytes := encodeDecodeKeyImpl src

def decodeKey (src : Bytes) : Bytes := encodeDecodeKeyImpl src

def getEncodedKeyLength (src : Bytes) : Int := getEncodedDecodedKeyLengthImpl src

def getDecodedKeyLength (src : Bytes) : Int := getEncodedDecodedKeyLengthImpl src

/-! ## Values -/

def kValueCharMarkAscii : Nat := 0xFC
def kValueCharMarkXX00 : Nat := 0xFD
def kValueCharMarkOtherUcs2 : Nat := 0xFE
def kValueCharMarkCodepoint : Nat := 0xFF
def kValueKanjiOffset : Nat := 0x01
def kValueHiraganaOffset : Nat := 0x4B
def kValueKatakanaOffset : Nat := 0x9F

/-- The bytes of a code point. -/
def encodeValueChar (c : Nat) : Bytes :=
  if 0x3041 ≤ c ∧ c < 0x3095 then [UInt8.ofNat (c - 0x3041 + kValueHiraganaOffset)]
  else if 0x30A1 ≤ c ∧ c < 0x30FD then [UInt8.ofNat (c - 0x30A1 + kValueKatakanaOffset)]
  else if c < 0x10000 ∧
    c / 0x100 % 0x100 = 0 then [UInt8.ofNat kValueCharMarkAscii, UInt8.ofNat (c % 0x100)]
  else if c < 0x10000 ∧
    c % 0x100 = 0 then [UInt8.ofNat kValueCharMarkXX00, UInt8.ofNat (c / 0x100 % 0x100)]
  else if 0x4E00 ≤ c ∧ c < 0x9800 then
    [UInt8.ofNat ((c - 0x4E00) / 0x100 + kValueKanjiOffset), UInt8.ofNat (c % 0x100)]
  else if 0x10000 ≤ c ∧ c ≤ 0x10FFFF then
    let left := c / 0x10000 % 0x100
    let middle := c / 0x100 % 0x100
    let right := c % 0x100
    -- the two highest bits say which of the lower bytes are zero
    let flags := (if middle = 0 then 0x80 else 0) + (if right = 0 then 0x40 else 0)
    [UInt8.ofNat kValueCharMarkCodepoint, UInt8.ofNat (left + flags)] ++
      (if middle ≠ 0 then [UInt8.ofNat middle] else []) ++
      (if right ≠ 0 then [UInt8.ofNat right] else [])
  else
    [UInt8.ofNat kValueCharMarkOtherUcs2, UInt8.ofNat (c / 0x100 % 0x100), UInt8.ofNat (c % 0x100)]

def encodeValue (src : Bytes) : Bytes := (utf8ToUtf32 src).flatMap encodeValueChar

/-- Two bytes, the higher one first. -/
def decodeUcs2 : Bytes → Option Nat
  | high :: low :: _ => some (high.toNat * 0x100 + low.toNat)
  | _ => none

/-- The code point after a marker, with the flags in its first byte. -/
def decodeCodepoint : Bytes → Option (Nat × Nat)
  | [] => none
  | left :: rest =>
    let high := left.toNat % 0x20 * 0x10000
    let hasMiddle := left.toNat / 0x80 % 2 = 0
    let hasRight := left.toNat / 0x40 % 2 = 0
    if hasMiddle ∧ hasRight then (decodeUcs2 rest).map fun low => (high + low, 4)
    else if hasMiddle then rest.head?.map fun middle => (high + middle.toNat * 0x100, 3)
    else if hasRight then rest.head?.map fun right => (high + right.toNat, 3)
    else some (high, 2)

/-- The first code point and the number of its bytes. There is none where bytes behind the end
would be read. -/
def decodeValueChar : Bytes → Option (Nat × Nat)
  | [] => none
  | first :: rest =>
    let cc := first.toNat
    if kValueHiraganaOffset ≤ cc ∧ cc < kValueKatakanaOffset then
      some (0x3041 + cc - kValueHiraganaOffset, 1)
    else if kValueKatakanaOffset ≤ cc ∧ cc < kValueCharMarkAscii then
      some (0x30A1 + cc - kValueKatakanaOffset, 1)
    else if cc = kValueCharMarkAscii then rest.head?.map fun b => (b.toNat, 2)
    else if cc = kValueCharMarkXX00 then rest.head?.map fun b => (b.toNat * 0x100, 2)
    else if cc = kValueCharMarkCodepoint then decodeCodepoint rest
    else if cc = kValueCharMarkOtherUcs2 then (decodeUcs2 rest).map fun c => (c, 3)
    -- only the bytes below the offset of Hiragana are left
    else rest.head?.map fun b => (cc * 0x100 + 0x4E00 - kValueKanjiOffset * 0x100 + b.toNat, 2)

def decodeValue (src : Bytes) : Option Bytes :=
  match walk decodeValueChar src with
  | (codes, []) => some (codes.flatMap codepointToUtf8)
  | _ => none

/-- A valid text without U+0000. -/
structure IsText (s : Bytes) : Prop where
  unicode : IsUnicode s
  nonzero : 0 ∉ utf8ToUtf32 s

/-! ## Texts and their code points -/

variable {s t : Bytes} {c : Nat}

theorem IsText.range (h : IsText s) (hc : c ∈ utf8ToUtf32 s) : 0 < c ∧ c ≤ 0x10FFFF :=
  ⟨Nat.pos_of_ne_zero fun hzero => h.nonzero (hzero ▸ hc), h.unicode.2 c hc⟩

/-- A text is what is written for its code points. -/
theorem IsText.eq_flatMap (h : IsText s) : (utf8ToUtf32 s).flatMap codepointToUtf8 = s := by
  obtain ⟨chars, hchars, rfl⟩ := (isUnicode_iff s).mp h.unicode
  have hnonzero := h.nonzero
  rw [utf8ToUtf32_chars hchars] at hnonzero ⊢
  rw [List.flatMap_def, List.map_map]
  congr 1
  refine (List.map_congr_left fun u hu => ?_).trans (List.map_id _)
  exact (hchars u hu).eq_codepointToUtf8 fun hzero => hnonzero (hzero ▸ List.mem_map_of_mem hu)

/-- A code point is read back, whatever follows. -/
theorem read_codepointToUtf8 (hpos : 0 < c) (hc : c ≤ 0x10FFFF) : codepointToUtf8 c ≠ [] ∧
    ∀ rest, splitFirstChar32 (codepointToUtf8 c ++ rest) =
      some (c, (codepointToUtf8 c).length) := by
  have hsplit := splitFirstChar32_codepointToUtf8 hpos (show c < 0x200000 by omega)
  refine ⟨fun hnil => ?_, fun rest => ?_⟩
  · rw [hnil] at hsplit
    cases hsplit
  · exact (splitFirstChar32_local _ _ _ hsplit).2.2 rest

theorem flatMap_codepointToUtf8_prefix_iff {xs ys : List Nat}
    (hxs : ∀ c ∈ xs, 0 < c ∧ c ≤ 0x10FFFF) (hys : ∀ c ∈ ys, 0 < c ∧ c ≤ 0x10FFFF) :
    xs.flatMap codepointToUtf8 <+: ys.flatMap codepointToUtf8 ↔ xs <+: ys :=
  flatMap_prefix_iff fun c hc =>
    have hrange := hc.elim (hxs c) (hys c)
    read_codepointToUtf8 hrange.1 hrange.2

/-- One text is the front of another when its code points are. -/
theorem IsText.prefix_iff (hs : IsText s) (ht : IsText t) :
    s <+: t ↔ utf8ToUtf32 s <+: utf8ToUtf32 t := by
  conv_lhs => rw [← hs.eq_flatMap, ← ht.eq_flatMap]
  exact flatMap_codepointToUtf8_prefix_iff (fun _ => hs.range) (fun _ => ht.range)

/-! ## Swapping code points -/

theorem swapCode_swapCode (c : Nat) : swapCode (swapCode c) = c := by
  unfold swapCode
  dsimp only
  split_ifs <;> omega

theorem swapCode_range (h : 0 < c ∧ c ≤ 0x10FFFF) : 0 < swapCode c ∧ swapCode c ≤ 0x10FFFF := by
  unfold swapCode
  dsimp only
  split_ifs <;> omega

theorem length_codepointToUtf8 (hpos : 0 < c) (hc : c ≤ 0x10FFFF) :
    (codepointToUtf8 c).length =
      if c < 0x80 then 1 else if c < 0x800 then 2 else if c < 0x10000 then 3 else 4 := by
  unfold codepointToUtf8
  split_ifs
  all_goals first | omega | rfl

theorem length_swapCode (h : 0 < c ∧ c ≤ 0x10FFFF) :
    ((codepointToUtf8 (swapCode c)).length : Int) = (codepointToUtf8 c).length + sizeChange c := by
  have hswap := swapCode_range h
  rw [length_codepointToUtf8 h.1 h.2, length_codepointToUtf8 hswap.1 hswap.2]
  unfold sizeChange swapCode
  dsimp only
  split_ifs <;> omega

/-! ## Keys -/

theorem encodeKey_eq (s : Bytes) :
    encodeKey s = ((utf8ToUtf32 s).map swapCode).flatMap codepointToUtf8 := by
  rw [encodeKey, encodeDecodeKeyImpl, List.flatMap_map]

theorem IsText.swap_range (h : IsText s) :
    ∀ c ∈ (utf8ToUtf32 s).map swapCode, 0 < c ∧ c ≤ 0x10FFFF := by
  intro c hc
  obtain ⟨d, hd, rfl⟩ := List.mem_map.mp hc
  exact swapCode_range (h.range hd)

theorem IsText.utf8ToUtf32_encodeKey (h : IsText s) :
    utf8ToUtf32 (encodeKey s) = (utf8ToUtf32 s).map swapCode := by
  rw [encodeKey_eq, utf8ToUtf32_flatMap_codepointToUtf8, List.filter_eq_self.mpr]
  · intro c hc
    rw [decide_eq_true_eq]
    exact Nat.pos_iff_ne_zero.mp (h.swap_range c hc).1
  · intro c hc
    have hrange := h.swap_range c hc
    omega

theorem IsText.decodeKey_encodeKey (h : IsText s) : decodeKey (encodeKey s) = s := by
  have hcodes : (utf8ToUtf32 (encodeKey s)).map swapCode = utf8ToUtf32 s := by
    rw [h.utf8ToUtf32_encodeKey, List.map_map]
    refine (List.map_congr_left fun c _ => ?_).trans (List.map_id _)
    exact swapCode_swapCode c
  change encodeKey (encodeKey s) = s
  rw [encodeKey_eq, hcodes, h.eq_flatMap]

/-- The encoding of a key is a text as well. -/
theorem IsText.encodeKey (h : IsText s) : IsText (encodeKey s) where
  unicode := by
    rw [encodeKey_eq]
    exact isUnicode_flatMap_codepointToUtf8 fun c hc => (h.swap_range c hc).2
  nonzero hzero := by
    rw [h.utf8ToUtf32_encodeKey] at hzero
    exact Nat.lt_irrefl 0 (h.swap_range 0 hzero).1

theorem foldl_sizeChange : ∀ {codes : List Nat} (size : Int),
    (∀ c ∈ codes, 0 < c ∧ c ≤ 0x10FFFF) →
    codes.foldl (fun size c => size + sizeChange c)
      (size + (codes.flatMap codepointToUtf8).length) =
      size + ((codes.map swapCode).flatMap codepointToUtf8).length
  | [], _, _ => rfl
  | c :: codes, size, h => by
    have hrest := foldl_sizeChange (size + (codepointToUtf8 (swapCode c)).length)
      (List.forall_mem_cons.mp h).2
    have hfirst := length_swapCode (h c List.mem_cons_self)
    rw [List.foldl_cons, List.map_cons, List.flatMap_cons, List.flatMap_cons, List.length_append,
      List.length_append, Nat.cast_add, Nat.cast_add, ← Int.add_assoc size, ← Int.add_assoc size,
      ← hrest]
    congr 1
    omega

theorem IsText.length_encodeKey (h : IsText s) :
    getEncodedKeyLength s = (Dictionary.encodeKey s).length := by
  have hsize := foldl_sizeChange 0 fun _ => h.range
  rw [Int.zero_add, Int.zero_add, h.eq_flatMap, ← encodeKey_eq] at hsize
  exact hsize

theorem IsText.encodeKey_prefix_iff (hs : IsText s) (ht : IsText t) :
    Dictionary.encodeKey s <+: Dictionary.encodeKey t ↔ s <+: t := by
  rw [hs.encodeKey.prefix_iff ht.encodeKey, hs.utf8ToUtf32_encodeKey, ht.utf8ToUtf32_encodeKey,
    hs.prefix_iff ht]
  constructor
  · intro h
    have hmap := h.map swapCode
    rwa [List.map_map, List.map_map, (funext swapCode_swapCode : swapCode ∘ swapCode = id),
      List.map_id, List.map_id] at hmap
  · exact fun h => h.map swapCode

/-! ## Values -/

theorem decodeCodepoint_encode (h : 0x10000 ≤ c ∧ c ≤ 0x10FFFF) (rest : Bytes) :
    decodeCodepoint (UInt8.ofNat (c / 0x10000 % 0x100 +
        ((if c / 0x100 % 0x100 = 0 then 0x80 else 0) + (if c % 0x100 = 0 then 0x40 else 0))) ::
      ((if c / 0x100 % 0x100 ≠ 0 then [UInt8.ofNat (c / 0x100 % 0x100)] else []) ++
        ((if c % 0x100 ≠ 0 then [UInt8.ofNat (c % 0x100)] else []) ++ rest))) =
      some (c, 2 + (if c / 0x100 % 0x100 ≠ 0 then 1 else 0) +
        (if c % 0x100 ≠ 0 then 1 else 0)) := by
  have hmiddle := toNat_ofNat_byte (show c / 0x100 % 0x100 < 0x100 by omega)
  have hright := toNat_ofNat_byte (show c % 0x100 < 0x100 by omega)
  have hleft : ∀ flags, flags < 0xC1 →
      (UInt8.ofNat (c / 0x10000 % 0x100 + flags)).toNat = c / 0x10000 % 0x100 + flags := by
    intro flags hflags
    exact toNat_ofNat_byte (by omega)
  by_cases hm : c / 0x100 % 0x100 = 0
  · by_cases hr : c % 0x100 = 0
    · rw [if_pos hm, if_pos hr, if_neg (not_not.mpr hm), if_neg (not_not.mpr hr), decodeCodepoint]
      rw [hleft _ (by omega), if_neg (by omega), if_neg (by omega), if_neg (by omega),
        Option.some.injEq, Prod.mk.injEq, if_neg (not_not.mpr hm), if_neg (not_not.mpr hr)]
      omega
    · rw [if_pos hm, if_neg hr, if_neg (not_not.mpr hm), if_pos hr, decodeCodepoint]
      rw [hleft _ (by omega), if_neg (by omega), if_neg (by omega), if_pos (by omega)]
      simp only [List.nil_append, List.cons_append, List.head?_cons, Option.map_some, hright]
      simp [if_neg (not_not.mpr hm), hr]
      omega
  · by_cases hr : c % 0x100 = 0
    · rw [if_neg hm, if_pos hr, if_pos hm, if_neg (not_not.mpr hr), decodeCodepoint]
      rw [hleft _ (by omega), if_neg (by omega), if_pos (by omega)]
      simp only [List.cons_append, List.head?_cons, Option.map_some, hmiddle]
      simp [hm, if_neg (not_not.mpr hr)]
      omega
    · rw [if_neg hm, if_neg hr, if_pos hm, if_pos hr, decodeCodepoint]
      rw [hleft _ (by omega), if_pos (by omega)]
      simp only [List.cons_append, List.nil_append, decodeUcs2, Option.map_some, hmiddle, hright]
      simp [hm, hr]
      omega

/-- **A code point is read from its code, whatever follows.** -/
theorem decodeValueChar_encodeValueChar (h : 0 < c ∧ c ≤ 0x10FFFF) (rest : Bytes) :
    decodeValueChar (encodeValueChar c ++ rest) = some (c, (encodeValueChar c).length) := by
  have hmiddle := toNat_ofNat_byte (show c / 0x100 % 0x100 < 0x100 by omega)
  have hright := toNat_ofNat_byte (show c % 0x100 < 0x100 by omega)
  unfold encodeValueChar
  split
  · next hrange =>
    have hbyte := toNat_ofNat_byte (show c - 0x3041 + kValueHiraganaOffset < 0x100 by
      unfold kValueHiraganaOffset; omega)
    rw [List.singleton_append, decodeValueChar, hbyte]
    unfold kValueHiraganaOffset kValueKatakanaOffset
    rw [if_pos (by omega), List.length_singleton, Option.some.injEq, Prod.mk.injEq]
    omega
  split
  · next hrange =>
    have hbyte := toNat_ofNat_byte (show c - 0x30A1 + kValueKatakanaOffset < 0x100 by
      unfold kValueKatakanaOffset; omega)
    rw [List.singleton_append, decodeValueChar, hbyte]
    unfold kValueHiraganaOffset kValueKatakanaOffset kValueCharMarkAscii
    rw [if_neg (by omega), if_pos (by omega), List.length_singleton, Option.some.injEq,
      Prod.mk.injEq]
    omega
  split
  · next hlow =>
    simp only [List.cons_append, decodeValueChar, List.head?_cons, Option.map_some, hright]
    rw [if_neg (by decide), if_neg (by decide), if_pos (by decide), Option.some.injEq,
      Prod.mk.injEq]
    exact ⟨by omega, rfl⟩
  split
  · next hhigh =>
    simp only [List.cons_append, decodeValueChar, List.head?_cons, Option.map_some, hmiddle]
    rw [if_neg (by decide), if_neg (by decide), if_neg (by decide), if_pos (by decide),
      Option.some.injEq, Prod.mk.injEq]
    exact ⟨by omega, rfl⟩
  split
  · next hkanji =>
    have hbyte := toNat_ofNat_byte (show (c - 0x4E00) / 0x100 + kValueKanjiOffset < 0x100 by
      unfold kValueKanjiOffset; omega)
    simp only [List.cons_append, decodeValueChar, List.head?_cons, Option.map_some, hright, hbyte]
    unfold kValueKanjiOffset kValueHiraganaOffset kValueKatakanaOffset kValueCharMarkAscii
      kValueCharMarkXX00 kValueCharMarkCodepoint kValueCharMarkOtherUcs2
    rw [if_neg (by omega), if_neg (by omega), if_neg (by omega), if_neg (by omega),
      if_neg (by omega), if_neg (by omega), Option.some.injEq, Prod.mk.injEq]
    exact ⟨by omega, rfl⟩
  split
  · next hucs4 =>
    dsimp only
    rw [List.append_assoc, List.append_assoc, List.cons_append, List.cons_append, List.nil_append,
      decodeValueChar]
    have hmark : (UInt8.ofNat kValueCharMarkCodepoint).toNat = kValueCharMarkCodepoint := rfl
    rw [hmark, if_neg (by decide), if_neg (by decide), if_neg (by decide), if_neg (by decide),
      if_pos rfl, decodeCodepoint_encode hucs4, Option.some.injEq, Prod.mk.injEq]
    refine ⟨rfl, ?_⟩
    split_ifs <;> rfl
  · next hother =>
    simp only [List.cons_append, decodeValueChar, decodeUcs2, Option.map_some, hright, hmiddle]
    rw [if_neg (by decide), if_neg (by decide), if_neg (by decide), if_neg (by decide),
      if_neg (by decide), if_pos (by decide), Option.some.injEq, Prod.mk.injEq]
    exact ⟨by omega, rfl⟩

theorem encodeValueChar_ne_nil (c : Nat) : encodeValueChar c ≠ [] := by
  unfold encodeValueChar
  dsimp only
  split_ifs <;> exact List.cons_ne_nil _ _

theorem ofNat_ne_zero {n : Nat} (hpos : 0 < n) (h : n < 0x100) : UInt8.ofNat n ≠ 0 := by
  intro hzero
  have hvalue := toNat_ofNat_byte h
  simp [hzero] at hvalue
  omega

/-- No byte of a code is zero. The bytes that could be zero are left out. -/
theorem zero_not_mem_encodeValueChar (h : 0 < c ∧ c ≤ 0x10FFFF) : 0 ∉ encodeValueChar c := by
  unfold encodeValueChar kValueHiraganaOffset kValueKatakanaOffset kValueKanjiOffset
  dsimp only
  have hmark : ∀ n, 0 < n ∧ n < 0x100 → (0 : UInt8) ≠ UInt8.ofNat n :=
    fun n hn => (ofNat_ne_zero hn.1 hn.2).symm
  split
  · simp only [List.mem_singleton]
    exact hmark _ (by omega)
  split
  · simp only [List.mem_singleton]
    exact hmark _ (by omega)
  split
  · simp only [List.mem_cons, List.not_mem_nil, or_false, not_or]
    exact ⟨hmark _ (by decide), hmark _ (by omega)⟩
  split
  · simp only [List.mem_cons, List.not_mem_nil, or_false, not_or]
    exact ⟨hmark _ (by decide), hmark _ (by omega)⟩
  split
  · simp only [List.mem_cons, List.not_mem_nil, or_false, not_or]
    exact ⟨hmark _ (by omega), hmark _ (by omega)⟩
  split
  · simp only [List.mem_append, List.mem_cons, List.not_mem_nil, or_false, not_or]
    refine ⟨⟨⟨hmark _ (by decide), hmark _ ?_⟩, ?_⟩, ?_⟩
    · split_ifs <;> omega
    · split
      · next hmiddle =>
        rw [List.mem_singleton]
        exact hmark _ (by omega)
      · exact List.not_mem_nil
    · split
      · next hright =>
        rw [List.mem_singleton]
        exact hmark _ (by omega)
      · exact List.not_mem_nil
  · simp only [List.mem_cons, List.not_mem_nil, or_false, not_or]
    exact ⟨hmark _ (by decide), hmark _ (by omega), hmark _ (by omega)⟩

theorem IsText.decodeValue_encodeValue (h : IsText s) : decodeValue (encodeValue s) = some s := by
  have hwalk : walk decodeValueChar (encodeValue s) = (utf8ToUtf32 s, []) := by
    have htokens : walk decodeValueChar ((utf8ToUtf32 s).flatMap encodeValueChar ++ []) =
        ((utf8ToUtf32 s).map id ++ [], []) :=
      walk_tokens [] _ fun c hc =>
        ⟨encodeValueChar_ne_nil c, decodeValueChar_encodeValueChar (h.range hc)⟩
    rwa [List.append_nil, List.append_nil, List.map_id] at htokens
  rw [decodeValue, hwalk]
  exact congrArg some h.eq_flatMap

theorem IsText.zero_not_mem_encodeValue (h : IsText s) : 0 ∉ encodeValue s := by
  intro hzero
  obtain ⟨c, hc, hmem⟩ := List.mem_flatMap.mp hzero
  exact zero_not_mem_encodeValueChar (h.range hc) hmem

theorem IsText.encodeValue_prefix_iff (hs : IsText s) (ht : IsText t) :
    encodeValue s <+: encodeValue t ↔ s <+: t := by
  rw [hs.prefix_iff ht]
  exact flatMap_prefix_iff fun c hc =>
    ⟨encodeValueChar_ne_nil c, decodeValueChar_encodeValueChar (hc.elim hs.range ht.range)⟩

/-! ## Both codes -/

/-- **The codes of keys and values are faithful prefix codes.** -/
theorem codecs_faithful (hs : IsText s) :
    (decodeKey (encodeKey s) = s ∧ getEncodedKeyLength s = (encodeKey s).length ∧
      getDecodedKeyLength (encodeKey s) = s.length) ∧
    (decodeValue (encodeValue s) = some s ∧ 0 ∉ encodeValue s) ∧
    ∀ t, IsText t → (encodeKey s <+: encodeKey t ↔ s <+: t) ∧
      (encodeValue s <+: encodeValue t ↔ s <+: t) := by
  refine ⟨⟨hs.decodeKey_encodeKey, hs.length_encodeKey, ?_⟩,
    ⟨hs.decodeValue_encodeValue, hs.zero_not_mem_encodeValue⟩,
    fun t ht => ⟨hs.encodeKey_prefix_iff ht, hs.encodeValue_prefix_iff ht⟩⟩
  have hlen := hs.encodeKey.length_encodeKey
  have hback : encodeKey (encodeKey s) = s := hs.decodeKey_encodeKey
  rw [hback] at hlen
  exact hlen

theorem codecs_faithful_kana : (decodeKey (encodeKey (utf8 "あa")) = utf8 "あa" ∧
    getEncodedKeyLength (utf8 "あa") = (encodeKey (utf8 "あa")).length ∧
      getDecodedKeyLength (encodeKey (utf8 "あa")) = (utf8 "あa").length) ∧
    (decodeValue (encodeValue (utf8 "あa")) = some (utf8 "あa") ∧ 0 ∉ encodeValue (utf8 "あa")) ∧
    ∀ t, IsText t → (encodeKey (utf8 "あa") <+: encodeKey t ↔ utf8 "あa" <+: t) ∧
      (encodeValue (utf8 "あa") <+: encodeValue t ↔ utf8 "あa" <+: t) :=
  codecs_faithful ⟨⟨by decide, by decide⟩, by decide⟩

end Mozkey.Dictionary
