import Mozkey.Base.Utf8
import Mathlib.Data.List.DropRight

/-!
# Script types

`Util::GetScriptType` of a code point and of a string, in `base/util.cc`. The string version
reads its characters with the decoder of `base/strings/internal/utf8_internal.cc`.
-/

namespace Mozkey.Base

open Infra

inductive ScriptType where
  | unknownScript
  | katakana
  | hiragana
  | kanji
  | number
  | alphabet
  | emoji
deriving DecidableEq

def inRange (w a b : Nat) : Bool := a ≤ w && w ≤ b

def getScriptType (codepoint : Nat) : ScriptType :=
  if inRange codepoint 0x0030 0x0039 || inRange codepoint 0xFF10 0xFF19 then .number
  else if inRange codepoint 0x0041 0x005A || inRange codepoint 0x0061 0x007A ||
      inRange codepoint 0xFF21 0xFF3A || inRange codepoint 0xFF41 0xFF5A then .alphabet
  else if codepoint == 0x3005 || inRange codepoint 0x3400 0x4DBF ||
      inRange codepoint 0x4E00 0x9FFF || inRange codepoint 0xF900 0xFAFF ||
      inRange codepoint 0x20000 0x2A6DF || inRange codepoint 0x2A700 0x2B73F ||
      inRange codepoint 0x2B740 0x2B81F || inRange codepoint 0x2F800 0x2FA1F then .kanji
  else if inRange codepoint 0x3041 0x309F || codepoint == 0x1B001 then .hiragana
  else if inRange codepoint 0x30A1 0x30FF || inRange codepoint 0x31F0 0x31FF ||
      inRange codepoint 0xFF65 0xFF9F || codepoint == 0x1B000 then .katakana
  else if inRange codepoint 0x02300 0x023F3 || inRange codepoint 0x02700 0x027BF ||
      inRange codepoint 0x1F000 0x1F02F || inRange codepoint 0x1F030 0x1F09F ||
      inRange codepoint 0x1F0A0 0x1F0FF || inRange codepoint 0x1F100 0x1F2FF ||
      inRange codepoint 0x1F200 0x1F2FF || inRange codepoint 0x1F300 0x1F5FF ||
      inRange codepoint 0x1F600 0x1F64F || inRange codepoint 0x1F680 0x1F6FF ||
      inRange codepoint 0x1F700 0x1F77F || codepoint == 0x26CE then .emoji
  else .unknownScript

/-! ## The replacing decoder -/

def kReplacementCharacter : Nat := 0xFFFD

/-- The table of second bytes. No byte may follow a byte that leads nothing. -/
def isValidSecondByte (leadingByte secondByte : UInt8) : Bool :=
  let n := leadingByte.toNat
  if n < 0xC2 || 0xF4 < n then false
  else if n == 0xE0 then inRange secondByte.toNat 0xA0 0xBF
  else if n == 0xED then inRange secondByte.toNat 0x80 0x9F
  else if n == 0xF0 then inRange secondByte.toNat 0x90 0xBF
  else if n == 0xF4 then inRange secondByte.toNat 0x80 0x8F
  else inRange secondByte.toNat 0x80 0xBF

/-- The number of bytes that are taken when the text ends inside a character. -/
def handleBufferTooShort (leadingByte : UInt8) : Bytes → Nat
  | [] => 1
  | second :: rest =>
    if isValidSecondByte leadingByte second then 2 + (rest.takeWhile isUtf8TrailingByte).length
    else 1

/-- The remaining `n` bytes of a character of which `seen` bytes were taken. -/
def decodeTrailing : Nat → Nat → Nat → Bytes → Nat × Nat
  | 0, seen, base, _ => (base, seen)
  | _ + 1, seen, _, [] => (kReplacementCharacter, seen)
  | n + 1, seen, base, c :: rest =>
    if isUtf8TrailingByte c then decodeTrailing n (seen + 1) (base * 64 + c.toNat % 64) rest
    else (kReplacementCharacter, seen)

def decodeSequence (needed modulus : Nat) (leadingByte : UInt8) : Bytes → Nat × Nat
  | [] => (kReplacementCharacter, 1)
  | second :: rest =>
    let valid :=
      if needed = 2 then isUtf8TrailingByte second else isValidSecondByte leadingByte second
    if !valid then (kReplacementCharacter, 1)
    else
      decodeTrailing (needed - 2) 2 (leadingByte.toNat % modulus * 64 + second.toNat % 64) rest

/-- The first code point, and how many bytes it takes. -/
def decodeUtf8 : Bytes → Option (Nat × Nat)
  | [] => none
  | c :: rest =>
    if c.toNat < 0x80 then some (c.toNat, 1)
    else
      let needed := oneCharLen c
      if rest.length + 1 < needed then
        some (kReplacementCharacter, handleBufferTooShort c rest)
      else if needed = 3 then some (decodeSequence 3 0x10 c rest)
      else if needed = 2 then some (decodeSequence 2 0x20 c rest)
      else if needed = 4 then some (decodeSequence 4 0x08 c rest)
      else some (kReplacementCharacter, 1)

/-! ## Strings -/

/-- The types that remain possible after one more code point. -/
def possibleScriptTypes (bs : List ScriptType) (codepoint : Nat) : List ScriptType :=
  -- sound marks and the middle dot are hiragana or katakana as well
  if codepoint == 0x30FC || codepoint == 0x30FB || inRange codepoint 0x3099 0x309C then
    bs.filter fun t => t = .hiragana || t = .katakana
  -- periods are numbers as well, if they do not come first
  else if (codepoint == 0xFF0E || codepoint == 0x2E) && bs == [.number] then bs
  else bs.filter fun t => t = getScriptType codepoint

def getScriptTypeOfString (str : Bytes) : ScriptType :=
  let all : List ScriptType :=
    [.unknownScript, .katakana, .hiragana, .kanji, .number, .alphabet, .emoji]
  match (walk decodeUtf8 str).1.foldl possibleScriptTypes all with
  | [t] => t
  | _ => .unknownScript

def containsScriptType (str : Bytes) (type : ScriptType) : Bool :=
  (walk decodeUtf8 str).1.any fun codepoint => type = getScriptType codepoint

/-!
## Form types and characters

`Util::GetFormType` in `base/util.cc`, and the iteration over the characters of a string in
`base/strings/unicode.h`.
-/

inductive FormType where
  | unknownForm
  | halfWidth
  | fullWidth
  /-- What `GetFormType` says of an empty string. -/
  | formTypeSize
deriving DecidableEq

def getFormType (codepoint : Nat) : FormType :=
  if inRange codepoint 0x0020 0x007F || inRange codepoint 0x27E6 0x27ED ||
      inRange codepoint 0x2985 0x2986 then .halfWidth
  else if codepoint == 0x00A2 || codepoint == 0x00A3 || codepoint == 0x00A5 ||
      codepoint == 0x00A6 || codepoint == 0x00AC || codepoint == 0x00AF then .halfWidth
  else if codepoint == 0x20A9 || inRange codepoint 0xFF61 0xFF9F ||
      inRange codepoint 0xFFA0 0xFFBE || inRange codepoint 0xFFC2 0xFFCF ||
      inRange codepoint 0xFFD2 0xFFD7 || inRange codepoint 0xFFDA 0xFFDC ||
      inRange codepoint 0xFFE8 0xFFEE then .halfWidth
  else .fullWidth

/-- The loop of `GetFormType`. -/
def commonFormType : FormType → List Nat → FormType
  | result, [] => result
  | result, codepoint :: rest =>
    let type := getFormType codepoint
    if type = .unknownForm || (result != .formTypeSize && type != result) then .unknownForm
    else commonFormType type rest

def getFormTypeOfString (str : Bytes) : FormType := commonFormType .formTypeSize (utf8ToUtf32 str)

/-! ## The characters of a string -/

/-- A character, as `Utf8CharIterator` shows it. -/
structure UnicodeChar where
  char32 : Nat
  utf8 : Bytes
deriving DecidableEq

/-- What is ill-formed is replaced. -/
def UnicodeChar.ok (c : UnicodeChar) : Bool :=
  c.char32 != kReplacementCharacter || c.utf8 == [0xEF, 0xBF, 0xBD]

def nextUnicodeChar (str : Bytes) : Option (UnicodeChar × Nat) :=
  (decodeUtf8 str).map fun (codepoint, size) => (⟨codepoint, str.take size⟩, size)

/-- `Utf8AsChars32` -/
def unicodeChars (str : Bytes) : List UnicodeChar := (walk nextUnicodeChar str).1

/-- `AtLeastCharsLen(str, 2) == 1` -/
def isOneChar (str : Bytes) : Bool := (walk nextUtf8Char str).1.length = 1

/-!
## The ends of texts

Functions of `base/util.cc` that look at the first or the last character of a text, and brackets.
-/

def getFirstScriptType (str : Bytes) : ScriptType :=
  match decodeUtf8 str with
  | none => getScriptType 0
  | some (codepoint, _) => getScriptType codepoint

def isAscii (str : Bytes) : Bool := str.all fun c => c.toNat < 0x80

/-- `SplitLastChar32`: what is left of the text, and its last character. -/
def splitLastChar32 (s : Bytes) : Option (Bytes × Nat) :=
  let trailing := (s.reverse.takeWhile isUtf8TrailingByte).length
  if trailing = s.length then none
  else
    let rest := s.take (s.length - (trailing + 1))
    match splitFirstChar32 (s.drop rest.length) with
    | some (lastChar32, len) => if len = trailing + 1 then some (rest, lastChar32) else none
    | none => none

def isAsciiSpace (c : UInt8) : Bool := c = 0x20 || inRange c.toNat 0x09 0x0D

/-- `absl::StripTrailingAsciiWhitespace` -/
def stripTrailingAsciiWhitespace (str : Bytes) : Bytes := str.rdropWhile isAsciiSpace

/-! ## Brackets -/

def kSortedBrackets : List Bytes :=
  ["()", "[]", "\x7b\x7d", "«»", "‘’", "“”", "‹›", "〈〉", "《》", "「」", "『』", "【】", "〔〕", "〘〙", "〚〛",
    "〝〟", "（）", "［］", "｛｝", "｢｣"].map utf8

def openBracket (pair : Bytes) : Bytes := pair.take (pair.length / 2)

def closeBracket (pair : Bytes) : Bytes := pair.drop (pair.length / 2)

/-- `IsOpenBracket`: the bracket that closes `key`. -/
def isOpenBracket (key : Bytes) : Option Bytes :=
  (kSortedBrackets.find? fun pair => openBracket pair = key).map closeBracket

end Mozkey.Base
