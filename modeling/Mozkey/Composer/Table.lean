import Mozkey.Infra.Find
import Mozkey.Base.Utf8Front
import Mozkey.Infra.Loop
import Mozkey.Infra.Trie

/-!
# The romaji table

`composer/table.cc`. A rule turns its input into a result and a pending text, which stands in front
of what is typed next. A rule is not added when its pending text would be turned by the rules into
its own input again. That check is a loop without a bound, so it is run with fuel.
-/

/-!
## Special keys

`composer/special_key.cc`. A rule writes a special key between braces. The table replaces it by a
code point of the private use area, and those are taken out again where a text is displayed.
-/

namespace Mozkey.Composer

open Infra Base

def kSpecialKeyBegin : Nat := 0xF000
def kSpecialKeyEnd : Nat := 0xF8FF

def kSpecialKeyOpen : Bytes := [0x0F]
def kSpecialKeyClose : Bytes := [0x0E]

def isSpecialKey (c : Nat) : Bool := kSpecialKeyBegin ≤ c && c ≤ kSpecialKeyEnd

structure Block where
  openPos : Nat
  closePos : Nat

def findBlock (input opening closing : Bytes) : Option Block :=
  match find opening input 0 with
  | none => none
  | some openPos =>
    match find closing input openPos with
    | none => none
    | some closePos => some ⟨openPos, closePos⟩

/-- Every block is replaced by what `callback` makes of its key. A brace in braces stands for
itself. The loop does not go round more often than there are bytes. -/
def parseBlockFrom {σ : Type} (callback : σ → Bytes → Bytes × σ) : Nat → σ → Bytes → Bytes × σ
  | 0, s, _ => ([], s)
  | fuel + 1, s, input =>
    match findBlock input (utf8 "\x7b") (utf8 "\x7d") with
    | none => (input, s)
    | some block =>
      let key := (input.drop (block.openPos + 1)).take (block.closePos - block.openPos - 1)
      let replaced := if key = utf8 "\x7b" then (utf8 "\x7b", s) else callback s key
      let rest := parseBlockFrom callback fuel replaced.2 (input.drop (block.closePos + 1))
      (input.take block.openPos ++ replaced.1 ++ rest.1, rest.2)

def parseBlock {σ : Type} (callback : σ → Bytes → Bytes × σ) (s : σ) (input : Bytes) : Bytes × σ :=
  parseBlockFrom callback input.length s input

/-- The keys that were registered, with their code points as texts. -/
abbrev SpecialKeyMap := List (Bytes × Bytes)

/-- A key is registered with the next code point. The last one serves for all that do not fit. -/
def SpecialKeyMap.registerKey (map : SpecialKeyMap) (key : Bytes) : Bytes × SpecialKeyMap :=
  match map.lookup key with
  | some specialKey => (specialKey, map)
  | none =>
    let keycode := min (kSpecialKeyBegin + map.length) kSpecialKeyEnd
    (codepointToUtf8 keycode, map ++ [(key, codepointToUtf8 keycode)])

def SpecialKeyMap.register (map : SpecialKeyMap) (input : Bytes) : Bytes × SpecialKeyMap :=
  parseBlock SpecialKeyMap.registerKey map input

/-- The text behind a special key that it begins with. -/
def trimLeadingSpecialKey (input : Bytes) : Bytes :=
  let leading :=
    match splitFirstChar32 input with
    | some (firstChar, len) => if isSpecialKey firstChar then some len else none
    | none => none
  match leading with
  | some len => input.drop len
  | none =>
    if !kSpecialKeyOpen.isPrefixOf input then input
    else
      match find kSpecialKeyClose input 1 with
      | none => input
      | some closePos => input.drop (closePos + 1)

/-- The text without the blocks of unregistered keys. -/
def deleteBlocksFrom : Nat → Bytes → Bytes
  | 0, _ => []
  | fuel + 1, input =>
    match findBlock input kSpecialKeyOpen kSpecialKeyClose with
    | none => input
    | some block =>
      input.take block.openPos ++ deleteBlocksFrom fuel (input.drop (block.closePos + 1))

def deleteSpecialKeys (input : Bytes) : Bytes :=
  let output := deleteBlocksFrom input.length input
  let codepoints := utf8ToUtf32 output
  if codepoints.any isSpecialKey then
    (codepoints.filter fun c => !isSpecialKey c).flatMap codepointToUtf8
  else output

def kNewChunkPrefix : Bytes := utf8 "\t"

/-- The bits of `TableAttributes`. -/
structure TableAttributes where
  newChunk : Bool := false
  noTransliteration : Bool := false
  directInput : Bool := false
  endChunk : Bool := false
  displayAmbiguousResult : Bool := false
  deriving DecidableEq, Repr

structure Entry where
  input : Bytes
  result : Bytes
  pending : Bytes
  attributes : TableAttributes
  deriving DecidableEq, Repr

structure Table where
  entries : Trie Nat Entry
  caseSensitive : Bool
  specialKeyMap : SpecialKeyMap

/-- The four keys that are registered in every table. -/
def Table.new : Table where
  entries := Trie.empty
  caseSensitive := false
  specialKeyMap :=
    [utf8 "?", utf8 "*", utf8 "<", utf8 "!"].foldl (fun map key => (map.registerKey key).2) []

/-! ## Looking up -/

/-- What `LookUpPrefix` finds. The length is in bytes. -/
structure PrefixMatch where
  entry : Option Entry
  keyLength : Nat
  fixed : Bool

def Table.normalize (table : Table) (input : Bytes) : Bytes :=
  if table.caseSensitive then input else lowerString input

def Table.lookUp (table : Table) (input : Bytes) : Option Entry :=
  table.entries.lookUp ((char32s (table.normalize input)).map (·.1))

def Table.lookUpPrefix (table : Table) (input : Bytes) : PrefixMatch :=
  let chars := char32s (table.normalize input)
  let found := table.entries.lookUpPrefix (chars.map (·.1))
  ⟨found.data, bytesOf chars found.length, found.fixed⟩

def Table.hasSubRules (table : Table) (input : Bytes) : Bool :=
  table.entries.hasSubTrie ((char32s (table.normalize input)).map (·.1))

def Table.hasNewChunkEntry (table : Table) (input : Bytes) : Bool :=
  if input.isEmpty then false
  else 1 < (table.lookUpPrefix (kNewChunkPrefix ++ input)).keyLength

/-! ## Adding rules -/

/-- One round of `IsLoopingEntry`. -/
def Table.loopingStep (table : Table) (input key : Bytes) : Bytes ⊕ Bool :=
  if input.isPrefixOf key then .inr true
  else
    let found := table.lookUpPrefix key
    match found.entry with
    | none => .inr false
    | some entry =>
      let next := entry.pending ++ key.drop found.keyLength
      if next.isEmpty then .inr false else .inl next

def Table.isLoopingEntry (fuel : Nat) (table : Table) (input pending : Bytes) : Option Bool :=
  if input.isEmpty || pending.isEmpty then some false
  else run (table.loopingStep input) fuel pending

/-- The arguments of `AddRuleWithAttributes`. -/
structure Rule where
  escapedInput : Bytes
  output : Bytes
  escapedPending : Bytes
  attributes : TableAttributes := {}
  deriving DecidableEq, Repr

def kMaxInputOrPendingSize : Nat := 300
def kMaxOutputSize : Nat := 1024

def Rule.isTooLong (rule : Rule) : Bool :=
  kMaxInputOrPendingSize ≤ rule.escapedInput.length || kMaxOutputSize ≤ rule.output.length ||
    kMaxInputOrPendingSize ≤ rule.escapedPending.length

/-- The input and the pending text with their special keys replaced. -/
def Table.register (table : Table) (rule : Rule) : Table × Bytes × Bytes :=
  let (input, keys) := table.specialKeyMap.register rule.escapedInput
  let (pending, keys) := SpecialKeyMap.register keys rule.escapedPending
  ({ table with specialKeyMap := keys }, input, pending)

/-- A capital letter in an input makes the table case-sensitive. -/
def hasCapitalLetter (input : Bytes) : Bool :=
  (utf8ToUtf32 (deleteSpecialKeys input)).any fun c => inRange c 0x41 0x5A

def Table.insert (table : Table) (entry : Entry) : Table :=
  { table with
    entries := table.entries.addEntry entry ((char32s entry.input).map (·.1))
    caseSensitive := table.caseSensitive || hasCapitalLetter entry.input }

/-- `AddRuleWithAttributes` behind its treatment of `NEW_CHUNK`: the table, and whether the rule was
added. There is no table when the check for a loop did not end. -/
def Table.addOneRule (fuel : Nat) (table : Table) (rule : Rule) : Option (Table × Bool) :=
  if rule.isTooLong then some (table, false)
  else
    let (table, input, pending) := table.register rule
    match table.isLoopingEntry fuel input pending with
    | none => none
    | some true => some (table, false)
    | some false => some (table.insert ⟨input, rule.output, pending, rule.attributes⟩, true)

def Table.addRuleWithAttributes (fuel : Nat) (table : Table) (rule : Rule) :
    Option (Table × Bool) :=
  if rule.attributes.newChunk then
    match table.addOneRule fuel
        { rule with escapedInput := kNewChunkPrefix ++ rule.escapedInput, attributes := {} } with
    | none => none
    | some (table, _) => table.addOneRule fuel rule
  else table.addOneRule fuel rule

/-! ## Loading -/

def chopReturns (line : Bytes) : Bytes :=
  (line.reverse.dropWhile fun c => c = byte '\r' || c = byte '\n').reverse

def parseAttributes (input : Bytes) : TableAttributes :=
  let names := fields (byte ' ') input
  { newChunk := names.contains (utf8 "NewChunk")
    noTransliteration := names.contains (utf8 "NoTransliteration")
    directInput := names.contains (utf8 "DirectInput")
    endChunk := names.contains (utf8 "EndChunk")
    displayAmbiguousResult := names.contains (utf8 "DisplayAmbiguousResult") }

/-- The rule of a line. An empty line, a comment and a format error have none. -/
def parseLine (line : Bytes) : Option Rule :=
  match fields (byte '\t') (chopReturns line) with
  | [input, output, pending, attributes] =>
    some ⟨input, output, pending, parseAttributes attributes⟩
  | [input, output, pending] => some ⟨input, output, pending, {}⟩
  | [input, output] => some ⟨input, output, [], {}⟩
  | _ => none

/-- `std::getline` also gives what is behind the last newline. -/
def parseRules (text : Bytes) : List Rule := (fields (byte '\n') text).filterMap parseLine

def Table.addRules (fuel : Nat) : Table → List Rule → Option Table
  | table, [] => some table
  | table, rule :: rules =>
    match table.addRuleWithAttributes fuel rule with
    | none => none
    | some (table, _) => table.addRules fuel rules

def Table.loadFromString (fuel : Nat) (table : Table) (text : Bytes) : Option Table :=
  table.addRules fuel (parseRules text)

end Mozkey.Composer
