import Mozkey.Infra.Bytes
import Mozkey.Infra.Walk

/-!
# UTF-8

`base/util.cc` and `base/strings/unicode.cc`, the part the Zenz code uses.

Three decoders exist side by side. `SplitFirstChar32` refuses redundant sequences and accepts
up to six bytes. `decodeOneUtf8` (written out three times under `session/`) only checks that
trailing bytes follow. `utf8_internal::Decode` follows the Unicode tables and replaces what is
ill-formed. A code point is a number, and `c & 0x3F` of a trailing byte is its value modulo 64.
-/

namespace Mozkey.Base

open Infra

/-- `(c & 0xc0) == 0x80` -/
def isUtf8TrailingByte (c : UInt8) : Bool := 0x80 ≤ c.toNat && c.toNat < 0xC0

/-- Shift the values of `n` trailing bytes into `result`. -/
def trailingBytes : Nat → Nat → Bytes → Option Nat
  | 0, result, _ => some result
  | _ + 1, _, [] => none
  | n + 1, result, c :: rest =>
    if isUtf8TrailingByte c then trailingBytes n (result * 64 + c.toNat % 64) rest else none

/-! ## The strict decoder -/

/-- What a leading byte says of its sequence, and the bits it gives to the value. -/
structure SequenceHead where
  len : Nat
  minValue : Nat
  maxValue : Nat
  result : Nat

def sequenceHead (leadingByte : Nat) : Option SequenceHead :=
  -- a trailing byte
  if leadingByte < 0xC0 then none
  else if leadingByte < 0xE0 then some ⟨2, 0x80, 0x7FF, leadingByte % 0x20⟩
  else if leadingByte < 0xF0 then some ⟨3, 0x800, 0xFFFF, leadingByte % 0x10⟩
  else if leadingByte < 0xF8 then some ⟨4, 0x10000, 0x1FFFFF, leadingByte % 0x08⟩
  else if leadingByte < 0xFC then some ⟨5, 0x200000, 0x3FFFFFF, leadingByte % 0x04⟩
  else if leadingByte < 0xFE then some ⟨6, 0x4000000, 0x7FFFFFFF, leadingByte % 0x02⟩
  else none

/-- The trailing bytes of a sequence. A value outside the range is redundant. -/
def sequence (head : SequenceHead) (rest : Bytes) : Option (Nat × Nat) :=
  match trailingBytes (head.len - 1) head.result rest with
  | none => none
  | some cp =>
    if cp < head.minValue || head.maxValue < cp then none else some (cp, head.len)

/-- The first code point and the length of its sequence. -/
def splitFirstChar32 : Bytes → Option (Nat × Nat)
  | [] => none
  | c :: rest =>
    if c.toNat < 0x80 then some (c.toNat, 1)
    else
      match sequenceHead c.toNat with
      | none => none
      | some head => sequence head rest

/-- Reading stops at the first sequence that is not one. -/
def utf8ToUtf32 (s : Bytes) : List Nat := (walk splitFirstChar32 s).1

def isValidUtf8 (s : Bytes) : Bool := (walk splitFirstChar32 s).2.isEmpty

/-! ## The lenient decoder -/

def decodeOneUtf8 : Bytes → Option (Nat × Nat)
  | [] => none
  | c :: rest =>
    let b := c.toNat
    if b < 0x80 then some (b, 1)
    else if 0xC0 ≤ b && b < 0xE0 then (trailingBytes 1 (b % 0x20) rest).map (·, 2)
    else if 0xE0 ≤ b && b < 0xF0 then (trailingBytes 2 (b % 0x10) rest).map (·, 3)
    else if 0xF0 ≤ b && b < 0xF8 then (trailingBytes 3 (b % 0x08) rest).map (·, 4)
    else none

/-! ## Encoding -/

def leading (base value : Nat) : UInt8 := UInt8.ofNat (base + value)

def trailing (value : Nat) : UInt8 := UInt8.ofNat (0x80 + value % 64)

/-- Nothing is written for U+0000. -/
def codepointToUtf8 (c : Nat) : Bytes :=
  if c = 0 then []
  else if c < 0x80 then [UInt8.ofNat c]
  else if c < 0x800 then [leading 0xC0 (c / 64), trailing c]
  else if c < 0x10000 then [leading 0xE0 (c / 4096), trailing (c / 64), trailing c]
  else if c < 0x200000 then
    [leading 0xF0 (c / 262144), trailing (c / 4096), trailing (c / 64), trailing c]
  else if c < 0x8000000 then
    [leading 0xF8 (c / 16777216 % 4), trailing (c / 262144), trailing (c / 4096),
      trailing (c / 64), trailing c]
  else
    [leading 0xFC (c / 1073741824 % 2), trailing (c / 16777216), trailing (c / 262144),
      trailing (c / 4096), trailing (c / 64), trailing c]

/-! ## Characters by their leading bytes -/

/-- Every byte that is not a trailing byte begins a character. -/
def charsLen (s : Bytes) : Nat := s.countP fun c => !isUtf8TrailingByte c

/-- The table of lengths. Bytes that begin no sequence have length 1. -/
def oneCharLen (c : UInt8) : Nat :=
  if c.toNat < 0xC2 then 1
  else if c.toNat < 0xE0 then 2
  else if c.toNat < 0xF0 then 3
  else if c.toNat < 0xF5 then 4
  else 1

/-- The first character. A character that is cut off ends with the text. -/
def nextUtf8Char : Bytes → Option (Bytes × Nat)
  | [] => none
  | c :: rest => some ((c :: rest).take (oneCharLen c), oneCharLen c)

def splitStringToUtf8Chars (s : Bytes) : List Bytes := (walk nextUtf8Char s).1

/-- `length` characters from the character at `start`. -/
def utf8SubString (src : Bytes) (start length : Nat) : Bytes :=
  (((splitStringToUtf8Chars src).drop start).take length).flatten

/-! ## Graphemes -/

/-- The first code point, 0 when there is none. -/
def utf8ToCodepoint (s : Bytes) : Nat :=
  match splitFirstChar32 s with
  | none => 0
  | some (cp, _) => cp

/-- The character goes with what is before it. `prev` is the code point before it. -/
def joinsGrapheme (prev codepoint : Nat) : Bool :=
  let isDakuten := codepoint == 0x3099 || codepoint == 0x309A
  let isSvs := 0xFE00 ≤ codepoint && codepoint ≤ 0xFE0F
  let isIvs := 0xE0100 ≤ codepoint && codepoint ≤ 0xE01EF
  let isTextPresentationSequence := codepoint == 0xFE0E
  let isEmojiPresentationSequence := codepoint == 0xFE0F
  let isEmojiModifierSequence := 0x1F3FB ≤ codepoint && codepoint ≤ 0x1F3FF
  let isEmojiTagSequence := (0xE0020 ≤ codepoint && codepoint ≤ 0xE007E) || codepoint == 0xE007F
  let isEmojiKeycapSequence := prev == 0xFE0F && codepoint == 0x20E3
  let isEmojiZwjSequence := codepoint == 0x200D || prev == 0x200D
  isDakuten || isSvs || isIvs || isTextPresentationSequence || isEmojiPresentationSequence ||
    isEmojiModifierSequence || isEmojiTagSequence || isEmojiKeycapSequence || isEmojiZwjSequence

def isRegionalIndicator (codepoint : Nat) : Bool := 0x1F1E6 ≤ codepoint && codepoint ≤ 0x1F1FF

/-- The loop over the characters: the graphemes so far, without the last one, and the last one. -/
def joinGraphemes : Nat → Option Bytes → List Bytes → List Bytes
  | _, none, [] => []
  | _, some last, [] => [last]
  | _, none, grapheme :: rest => joinGraphemes (utf8ToCodepoint grapheme) (some grapheme) rest
  | prev, some last, grapheme :: rest =>
    let codepoint := utf8ToCodepoint grapheme
    -- a third regional indicator begins a new flag
    if isRegionalIndicator prev && isRegionalIndicator codepoint then
      joinGraphemes 0 (some (last ++ grapheme)) rest
    else if joinsGrapheme prev codepoint then
      joinGraphemes codepoint (some (last ++ grapheme)) rest
    else last :: joinGraphemes codepoint (some grapheme) rest

def splitStringToUtf8Graphemes (s : Bytes) : List Bytes :=
  let graphemes := splitStringToUtf8Chars s
  if graphemes.length ≤ 1 then graphemes else joinGraphemes 0 none graphemes

end Mozkey.Base
