import Mozkey.Infra.Bytes
import Mozkey.Infra.Find

/-!
# The feedback TSV

`session/zenz_feedback_store.cc`, the part that turns records into bytes and back.

A row is six TAB-separated columns and a line feed. Every column is escaped, so a TAB, CR or LF
of the text never reaches the file as a separator. Rows of the older version have no leading
`v2`, carry a raw context that is never used, and are read as class `legacy`.

`IsValidUtf8ForFeedback` asks the operating system on Windows and accepts everything
elsewhere, so it is a parameter of the platform.
-/

namespace Mozkey.Zenz

open Infra

/-- What the operating system decides about text. -/
structure Platform where
  isValidUtf8ForFeedback : Bytes → Bool

def tab : UInt8 := byte '\t'
def cr : UInt8 := byte '\r'
def lf : UInt8 := byte '\n'
def backslash : UInt8 := byte '\\'

/-! ## Escaping -/

def escapeTsvByte (c : UInt8) : Bytes :=
  if c = tab then utf8 "\\t"
  else if c = cr then utf8 "\\r"
  else if c = lf then utf8 "\\n"
  else if c = backslash then utf8 "\\\\"
  else [c]

def escapeTsv (s : Bytes) : Bytes := s.flatMap escapeTsvByte

/-- The byte an escape sequence stands for. An unknown one stands for its second byte. -/
def unescapeTsvByte (c : UInt8) : UInt8 :=
  if c = byte 't' then tab
  else if c = byte 'r' then cr
  else if c = byte 'n' then lf
  else c

/-- The loop of `UnescapeTsv` with its flag `escaping`. -/
def unescapeTsvFrom : Bool → Bytes → Bytes
  | false, [] => []
  | true, [] => [backslash]
  | false, c :: rest =>
    if c = backslash then unescapeTsvFrom true rest else c :: unescapeTsvFrom false rest
  | true, c :: rest => unescapeTsvByte c :: unescapeTsvFrom false rest

def unescapeTsv (s : Bytes) : Bytes := unescapeTsvFrom false s

def splitTab (line : Bytes) : List Bytes := fields tab line

def utf8Bom : Bytes := [0xEF, 0xBB, 0xBF]

def stripUtf8BomFromFirstField : List Bytes → List Bytes
  | [] => []
  | first :: rest => (if utf8Bom.isPrefixOf first then first.drop utf8Bom.length else first) :: rest

/-! ## Records -/

def containsUnsafeTsvTextChar (s : Bytes) : Bool := s.any fun c => c == tab || c == cr || c == lf

def isKnownContextClass (contextClass : Bytes) : Bool :=
  contextClass == utf8 "empty" ||
  contextClass == utf8 "japanese_only" ||
  contextClass == utf8 "japanese_with_punctuation" ||
  contextClass == utf8 "mixed_japanese_ascii" ||
  contextClass == utf8 "symbol_or_other" ||
  contextClass == utf8 "ascii_or_digit" ||
  contextClass == utf8 "sensitive_like" ||
  contextClass == utf8 "legacy"

def normalizeContextClass (contextClass : Bytes) : Bytes :=
  if contextClass.isEmpty then utf8 "empty" else contextClass

structure ParsedFeedbackRecord where
  action : Bytes
  key : Bytes
  contextClass : Bytes
  value : Bytes
  reason : Bytes
deriving DecidableEq

def kMaxKeyBytes : Nat := 512
def kMaxContextClassBytes : Nat := 64
def kMaxValueBytes : Nat := 512
def kMaxReasonBytes : Nat := 128

def isSafeFeedbackRecord (pl : Platform) (record : ParsedFeedbackRecord) : Bool :=
  if record.action != utf8 "accepted" && record.action != utf8 "accepted_rollback" &&
      record.action != utf8 "rejected" then false
  else if record.key.isEmpty || record.value.isEmpty then false
  else if !isKnownContextClass record.contextClass then false
  else if kMaxKeyBytes < record.key.length ||
      kMaxContextClassBytes < record.contextClass.length ||
      kMaxValueBytes < record.value.length || kMaxReasonBytes < record.reason.length then false
  else if containsUnsafeTsvTextChar record.action || containsUnsafeTsvTextChar record.key ||
      containsUnsafeTsvTextChar record.contextClass || containsUnsafeTsvTextChar record.value ||
      containsUnsafeTsvTextChar record.reason then false
  else pl.isValidUtf8ForFeedback record.key && pl.isValidUtf8ForFeedback record.contextClass &&
    pl.isValidUtf8ForFeedback record.value && pl.isValidUtf8ForFeedback record.reason

/-- `record` if it is safe. -/
def safeRecord (pl : Platform) (record : ParsedFeedbackRecord) : Option ParsedFeedbackRecord :=
  if isSafeFeedbackRecord pl record then some record else none

/-- `v2  accepted|accepted_rollback|rejected  key  context_class  value  reason` -/
def v2Record (fields : List Bytes) : ParsedFeedbackRecord where
  action := unescapeTsv (fields.getD 1 [])
  key := unescapeTsv (fields.getD 2 [])
  contextClass := normalizeContextClass (unescapeTsv (fields.getD 3 []))
  value := unescapeTsv (fields.getD 4 [])
  reason := if 6 ≤ fields.length then unescapeTsv (fields.getD 5 []) else []

/-- `accepted|rejected  key  context  value  reason`. The context is not looked at. -/
def v1Record (fields : List Bytes) : ParsedFeedbackRecord where
  action := unescapeTsv (fields.getD 0 [])
  key := unescapeTsv (fields.getD 1 [])
  contextClass := utf8 "legacy"
  value := unescapeTsv (fields.getD 3 [])
  reason := if 5 ≤ fields.length then unescapeTsv (fields.getD 4 []) else []

def parseFeedbackRecord (pl : Platform) (fields : List Bytes) : Option ParsedFeedbackRecord :=
  if 5 ≤ fields.length && fields.getD 0 [] == utf8 "v2" then safeRecord pl (v2Record fields)
  else if 4 ≤ fields.length &&
      (fields.getD 0 [] == utf8 "accepted" || fields.getD 0 [] == utf8 "rejected") then
    safeRecord pl (v1Record fields)
  else none

/-! ## Streams -/

/-- The bytes `WriteRecordToStream` writes. -/
def writeRecordToStream (record : ParsedFeedbackRecord) : Bytes :=
  utf8 "v2" ++ [tab] ++ escapeTsv record.action ++ [tab] ++ escapeTsv record.key ++ [tab] ++
    escapeTsv (normalizeContextClass record.contextClass) ++ [tab] ++ escapeTsv record.value ++
    [tab] ++ escapeTsv record.reason ++ [lf]

/-- What was returned and what was written, on a stream that does not fail. -/
def writeRecordsToStream (pl : Platform) : List ParsedFeedbackRecord → Bool × Bytes
  | [] => (true, [])
  | record :: rest =>
    if !isSafeFeedbackRecord pl record then (false, [])
    else
      let (ok, written) := writeRecordsToStream pl rest
      (ok, writeRecordToStream record ++ written)

def parseLine (pl : Platform) (line : Bytes) : Option ParsedFeedbackRecord :=
  parseFeedbackRecord pl (stripUtf8BomFromFirstField (splitTab line))

/-- The loop over the lines, with `ok` and the records collected so far. -/
def loadLines (pl : Platform) (strict : Bool) :
    Bool → List ParsedFeedbackRecord → List Bytes → Bool × List ParsedFeedbackRecord
  | ok, records, [] => (ok || !strict, records)
  | ok, records, line :: rest =>
    if line.isEmpty then loadLines pl strict ok records rest
    else
      match parseLine pl line with
      | none => if strict then (false, records) else loadLines pl strict false records rest
      | some record => loadLines pl strict ok (records ++ [record]) rest

def loadRecordsFromStream (pl : Platform) (strict : Bool) (input : Bytes) :
    Bool × List ParsedFeedbackRecord :=
  loadLines pl strict true [] (lines lf input)

end Mozkey.Zenz
