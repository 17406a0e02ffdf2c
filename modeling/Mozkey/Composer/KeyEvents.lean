import Mozkey.Composer.Positions

/-!
# Key events

`composer/composer.cc`, where a key event becomes an input of the composition, with
`composer/composition_input.cc`, the mode switching handler and what is used of the key event
utilities. A read behind the end of the modifier keys and of the first character of an empty text
are failures.
-/

set_option linter.dupNamespace false

namespace Mozkey.Composer

open Infra Base

/-! ## Events -/

/-- `KeyEvent::SpecialKey` -/
inductive SpecialKey where
  | noSpecialkey | digit | on | off | space | enter | left | right | up | down | escape | del
  | backspace | henkan | muhenkan | kana | home | endKey | tab | f1 | f2 | f3 | f4 | f5 | f6 | f7
  | f8 | f9 | f10 | f11 | f12 | pageUp | pageDown | insert | f13 | f14 | f15 | f16 | f17 | f18
  | f19 | f20 | f21 | f22 | f23 | f24 | eisu | numpad0 | numpad1 | numpad2 | numpad3 | numpad4
  | numpad5 | numpad6 | numpad7 | numpad8 | numpad9 | multiply | add | separator | subtract
  | decimal | divide | equals | textInput | hankaku | kanji | katakana | capsLock | undefinedKey
  | comma | clear | virtualLeft | virtualRight | virtualEnter | virtualUp | virtualDown
  | imeAction | numSpecialkeys
  deriving DecidableEq

/-- `SpecialKey_Name` -/
def SpecialKey.name : SpecialKey → Bytes
  | .noSpecialkey => utf8 "NO_SPECIALKEY"
  | .digit => utf8 "DIGIT"
  | .on => utf8 "ON"
  | .off => utf8 "OFF"
  | .space => utf8 "SPACE"
  | .enter => utf8 "ENTER"
  | .left => utf8 "LEFT"
  | .right => utf8 "RIGHT"
  | .up => utf8 "UP"
  | .down => utf8 "DOWN"
  | .escape => utf8 "ESCAPE"
  | .del => utf8 "DEL"
  | .backspace => utf8 "BACKSPACE"
  | .henkan => utf8 "HENKAN"
  | .muhenkan => utf8 "MUHENKAN"
  | .kana => utf8 "KANA"
  | .home => utf8 "HOME"
  | .endKey => utf8 "END"
  | .tab => utf8 "TAB"
  | .f1 => utf8 "F1"
  | .f2 => utf8 "F2"
  | .f3 => utf8 "F3"
  | .f4 => utf8 "F4"
  | .f5 => utf8 "F5"
  | .f6 => utf8 "F6"
  | .f7 => utf8 "F7"
  | .f8 => utf8 "F8"
  | .f9 => utf8 "F9"
  | .f10 => utf8 "F10"
  | .f11 => utf8 "F11"
  | .f12 => utf8 "F12"
  | .pageUp => utf8 "PAGE_UP"
  | .pageDown => utf8 "PAGE_DOWN"
  | .insert => utf8 "INSERT"
  | .f13 => utf8 "F13"
  | .f14 => utf8 "F14"
  | .f15 => utf8 "F15"
  | .f16 => utf8 "F16"
  | .f17 => utf8 "F17"
  | .f18 => utf8 "F18"
  | .f19 => utf8 "F19"
  | .f20 => utf8 "F20"
  | .f21 => utf8 "F21"
  | .f22 => utf8 "F22"
  | .f23 => utf8 "F23"
  | .f24 => utf8 "F24"
  | .eisu => utf8 "EISU"
  | .numpad0 => utf8 "NUMPAD0"
  | .numpad1 => utf8 "NUMPAD1"
  | .numpad2 => utf8 "NUMPAD2"
  | .numpad3 => utf8 "NUMPAD3"
  | .numpad4 => utf8 "NUMPAD4"
  | .numpad5 => utf8 "NUMPAD5"
  | .numpad6 => utf8 "NUMPAD6"
  | .numpad7 => utf8 "NUMPAD7"
  | .numpad8 => utf8 "NUMPAD8"
  | .numpad9 => utf8 "NUMPAD9"
  | .multiply => utf8 "MULTIPLY"
  | .add => utf8 "ADD"
  | .separator => utf8 "SEPARATOR"
  | .subtract => utf8 "SUBTRACT"
  | .decimal => utf8 "DECIMAL"
  | .divide => utf8 "DIVIDE"
  | .equals => utf8 "EQUALS"
  | .textInput => utf8 "TEXT_INPUT"
  | .hankaku => utf8 "HANKAKU"
  | .kanji => utf8 "KANJI"
  | .katakana => utf8 "KATAKANA"
  | .capsLock => utf8 "CAPS_LOCK"
  | .undefinedKey => utf8 "UNDEFINED_KEY"
  | .comma => utf8 "COMMA"
  | .clear => utf8 "CLEAR"
  | .virtualLeft => utf8 "VIRTUAL_LEFT"
  | .virtualRight => utf8 "VIRTUAL_RIGHT"
  | .virtualEnter => utf8 "VIRTUAL_ENTER"
  | .virtualUp => utf8 "VIRTUAL_UP"
  | .virtualDown => utf8 "VIRTUAL_DOWN"
  | .imeAction => utf8 "IME_ACTION"
  | .numSpecialkeys => utf8 "NUM_SPECIALKEYS"

inductive ModifierKey where
  | ctrl | alt | shift | keyDown | keyUp | leftCtrl | leftAlt | leftShift | rightCtrl | rightAlt
  | rightShift | caps
  deriving DecidableEq

def ModifierKey.value : ModifierKey → UInt32
  | .ctrl => 1
  | .alt => 2
  | .shift => 4
  | .keyDown => 8
  | .keyUp => 16
  | .leftCtrl => 32
  | .leftAlt => 64
  | .leftShift => 128
  | .rightCtrl => 256
  | .rightAlt => 512
  | .rightShift => 1024
  | .caps => 2048

inductive InputStyle where
  | followMode | asIs | directInput
  deriving DecidableEq

inductive CompositionMode where
  | direct | hiragana | fullKatakana | halfAscii | fullAscii | halfKatakana | numOfCompositions
  deriving DecidableEq

/-- `commands::KeyEvent`, without the probable keys and `activated`. -/
structure KeyEvent where
  keyCode : Option UInt32 := none
  modifiers : Option UInt32 := none
  specialKey : Option SpecialKey := none
  modifierKeys : List ModifierKey := []
  keyString : Option Bytes := none
  inputStyle : InputStyle := .followMode
  mode : Option CompositionMode := none
  timestampMsec : Option Int64 := none

def getModifiers (key : KeyEvent) : UInt32 :=
  match key.modifiers with
  | some modifiers => modifiers
  | none => key.modifierKeys.foldl (fun modifiers k => modifiers ||| k.value) 0

def hasCaps (modifiers : UInt32) : Bool := modifiers &&& ModifierKey.caps.value ≠ 0

/-- `KeyParser::GetSpecialKeyString` -/
def getSpecialKeyString : SpecialKey → Bytes
  | .del => utf8 "delete"
  | .kana => utf8 "hiragana"
  | .hankaku => utf8 "hankaku/zenkaku"
  | key => lowerString (key.name.filter fun c => c ≠ 0x5F)

/-! ## Inputs -/

/-- `SpecialKeyMap::Parse`. A key that is not registered stands between two control characters. -/
def SpecialKeyMap.parse (map : SpecialKeyMap) (input : Bytes) : Bytes :=
  (parseBlock (fun map key =>
    match List.lookup key map with
    | some specialKey => (specialKey, map)
    | none => (kSpecialKeyOpen ++ key ++ kSpecialKeyClose, map)) map input).1

def Table.parseSpecialKey (table : Table) (input : Bytes) : Bytes := table.specialKeyMap.parse input

/-- The raw text of an event. -/
def KeyEvent.raw (table : Table) (key : KeyEvent) : Option Bytes :=
  match key.keyCode with
  | some code => some (codepointToUtf8 code.toNat)
  | none =>
    match key.keyString with
    | some text => some text
    | none =>
      match key.specialKey with
      | some special =>
        some (table.parseSpecialKey (utf8 "\x7b" ++ getSpecialKeyString special ++ utf8 "\x7d"))
      | none => none

/-- There is no input when the event is empty. -/
def CompositionInput.init (table : Table) (key : KeyEvent) (isNewInput : Bool) :
    Option CompositionInput :=
  match key.raw table with
  | none => none
  | some raw =>
    some
      { raw
        conversion := key.keyString.getD []
        isNewInput
        isAsis := key.inputStyle = .asIs || key.inputStyle = .directInput }

/-! ## Modes -/

inductive TransliterationType where
  | hiragana | fullKatakana | halfAscii | halfAsciiUpper | halfAsciiLower | halfAsciiCapitalized
  | fullAscii | fullAsciiUpper | fullAsciiLower | fullAsciiCapitalized | halfKatakana | numT13nTypes
  deriving DecidableEq

def getTransliterator : TransliterationType → Transliterator
  | .halfAscii | .halfAsciiUpper | .halfAsciiLower | .halfAsciiCapitalized => .halfAscii
  | .fullAscii | .fullAsciiUpper | .fullAsciiLower | .fullAsciiCapitalized => .fullAscii
  | .halfKatakana => .halfKatakana
  | .fullKatakana => .fullKatakana
  | .hiragana => .hiragana
  | .numT13nTypes => .conversionString

def getTransliterationTypeFromCompositionMode : CompositionMode → TransliterationType
  | .hiragana => .hiragana
  | .fullKatakana => .fullKatakana
  | .halfAscii => .halfAscii
  | .fullAscii => .fullAscii
  | .halfKatakana => .halfKatakana
  | .direct | .numOfCompositions => .hiragana

namespace ModeSwitchingHandler

inductive ModeSwitching where
  | noChange | revertToPreviousMode | preferredAlphanumeric | halfAlphanumeric | fullAlphanumeric

structure Rule where
  displayMode : ModeSwitching
  inputMode : ModeSwitching

def isDriveLetter : Bytes → Bool
  | [c, colon, backslash] =>
    ((0x41 ≤ c.toNat && c.toNat ≤ 0x5A) || (0x61 ≤ c.toNat && c.toNat ≤ 0x7A)) &&
      colon = 0x3A && backslash = 0x5C
  | _ => false

def getModeSwitchingRule (key : Bytes) : Rule :=
  if key = utf8 "google" || key = utf8 "Google" || key = utf8 "Chrome" || key = utf8 "chrome" ||
      key = utf8 "Android" || key = utf8 "android" then
    ⟨.preferredAlphanumeric, .revertToPreviousMode⟩
  else if key = utf8 "http" || key = utf8 "www." || key = [0x5C, 0x5C] then
    ⟨.halfAlphanumeric, .halfAlphanumeric⟩
  else if isDriveLetter key then ⟨.halfAlphanumeric, .halfAlphanumeric⟩
  else ⟨.noChange, .noChange⟩

end ModeSwitchingHandler

/-- `LOCAL` is ignored. -/
def CharChunk.setTransliterator (c : CharChunk) (t12r : Transliterator) : CharChunk :=
  if t12r = .localT12r then c else { c with transliterator := t12r }

/-- The chunks from the one at the first position to the one at the second position. -/
def Composition.setTransliterator (forms : CharacterForms) (comp : Composition)
    (positionFrom positionTo : Nat) (t12r : Transliterator) : Composition :=
  if positionTo < positionFrom then comp
  else
    match getChunkAt forms comp.chunks positionFrom .localT12r,
      getChunkAt forms comp.chunks positionTo .localT12r with
    | some first, some last =>
      { comp with
        chunks := comp.chunks.mapIdx fun i c =>
          if first.left.length ≤ i && i ≤ last.left.length then c.setTransliterator t12r else c }
    | _, _ => comp

/-! ## The composer -/

inductive ShiftKeyModeSwitch where
  | off | asciiInputMode | katakanaInputMode
  deriving DecidableEq

inductive PreeditMethod where
  | roman | kana
  deriving DecidableEq

/-- What is used of `config::Config`. -/
structure ComposerConfig where
  shiftKeyModeSwitch : ShiftKeyModeSwitch := .asciiInputMode
  autoSwitchCompositionMode : Bool := true
  preeditMethod : PreeditMethod := .roman

structure Composer where
  table : SharedTable
  composition : Composition
  position : Nat := 0
  inputMode : TransliterationType := .hiragana
  outputMode : TransliterationType := .hiragana
  comebackInputMode : TransliterationType := .hiragana
  shiftedSequenceCount : Nat := 0
  isInShiftedAsciiRevertContext : Bool := false
  isNewInput : Bool := true
  maxLength : Nat := 256
  timestampMsec : Int64 := 0
  timeoutThresholdMsec : Int64 := 0
  config : ComposerConfig := {}

/-- What a key event can end with, other than a result. -/
inductive KeyFailure where
  /-- `modifier_keys(i)` is read behind the end. -/
  | noSuchModifier
  /-- `front()` of an empty text -/
  | noFront
  | typing (failure : Failure)
  deriving DecidableEq

namespace Composer

def enableInsert (forms : CharacterForms) (composer : Composer) : Bool :=
  composer.composition.getLength forms < composer.maxLength

def setInputMode (composer : Composer) (mode : TransliterationType) : Composer :=
  { composer with
    comebackInputMode := mode
    inputMode := mode
    shiftedSequenceCount := 0
    isInShiftedAsciiRevertContext := false
    isNewInput := true
    composition := composer.composition.setInputMode (getTransliterator mode) }

def setTemporaryInputMode (composer : Composer) (mode : TransliterationType) : Composer :=
  { composer with
    comebackInputMode := composer.inputMode
    inputMode := mode
    shiftedSequenceCount := 0
    isInShiftedAsciiRevertContext := false
    isNewInput := true
    composition := composer.composition.setInputMode (getTransliterator mode) }

def setOutputMode (forms : CharacterForms) (composer : Composer) (mode : TransliterationType) :
    Composer :=
  let composition := composer.composition.setTransliterator forms 0
    (composer.composition.getLength forms) (getTransliterator mode)
  { composer with outputMode := mode, composition, position := composition.getLength forms }

def isUpper (c : UInt8) : Bool := 0x41 ≤ c.toNat && c.toNat ≤ 0x5A

def isLower (c : UInt8) : Bool := 0x61 ≤ c.toNat && c.toNat ≤ 0x7A

def applyTemporaryInputMode (composer : Composer) (input : Bytes) (capsLocked : Bool) :
    Except KeyFailure Composer :=
  match input with
  | [] => .error .noFront
  | key :: _ =>
    let switchMode := composer.config.shiftKeyModeSwitch
    if oneCharLen key ≠ 1 then
      let composer := { composer with isInShiftedAsciiRevertContext := false }
      .ok (if composer.comebackInputMode ≠ composer.inputMode then
        composer.setInputMode composer.comebackInputMode else composer)
    else
      let alphaWithShift := (!capsLocked && isUpper key) || (capsLocked && isLower key)
      let alphaWithoutShift := (capsLocked && isUpper key) || (!capsLocked && isLower key)
      if alphaWithShift then
        let composer := { composer with isInShiftedAsciiRevertContext := false }
        let composer : Composer :=
          match switchMode with
          | .asciiInputMode =>
            if composer.inputMode = .halfAscii || composer.inputMode = .fullAscii then composer
            else composer.setTemporaryInputMode .halfAscii
          | .katakanaInputMode =>
            if composer.inputMode = .hiragana then composer.setTemporaryInputMode .fullKatakana
            else composer
          | .off => composer
        .ok { composer with shiftedSequenceCount := composer.shiftedSequenceCount + 1 }
      else if alphaWithoutShift then
        let composer :=
          if 1 < composer.shiftedSequenceCount && switchMode = .asciiInputMode then
            { composer.setInputMode composer.comebackInputMode with
              isInShiftedAsciiRevertContext := true }
          else composer
        let composer :=
          if switchMode = .katakanaInputMode then composer.setInputMode composer.comebackInputMode
          else composer
        .ok { composer with shiftedSequenceCount := 0 }
      else
        .ok { composer with shiftedSequenceCount := 0, isInShiftedAsciiRevertContext := false }

/-- The composer, and whether the input was inserted. -/
def processCompositionInput (forms : CharacterForms) (fuel : Nat) (composer : Composer)
    (input : CompositionInput) : Except KeyFailure (Composer × Bool) :=
  if !composer.enableInsert forms then .ok (composer, false)
  else
    match composer.composition.insertInput forms fuel composer.position input with
    | .error failure => .error (.typing failure)
    | .ok (composition, position) =>
      .ok ({ composer with composition, position, isNewInput := false }, true)

inductive InternalCommand where
  | rewind | stopKeyToggling

def InternalCommand.key : InternalCommand → Bytes
  | .rewind => utf8 "\x7b<\x7d"
  | .stopKeyToggling => utf8 "\x7b!\x7d"

def commandInput (composer : Composer) (command : InternalCommand) : CompositionInput where
  raw := composer.table.table.parseSpecialKey command.key
  isNewInput := composer.isNewInput

def insertCommandCharacter (forms : CharacterForms) (fuel : Nat) (composer : Composer)
    (command : InternalCommand) : Except KeyFailure (Composer × Bool) :=
  composer.processCompositionInput forms fuel (composer.commandInput command)

def autoSwitchMode (forms : CharacterForms) (composer : Composer) : Composer :=
  if !composer.config.autoSwitchCompositionMode then composer
  else if composer.config.preeditMethod ≠ .roman then composer
  else
    let key := composer.composition.getStringWithTransliterator forms (getTransliterator .halfAscii)
    let modeSwitching := ModeSwitchingHandler.getModeSwitchingRule key
    let composer :=
      match modeSwitching.displayMode with
      | .noChange | .revertToPreviousMode => composer
      | .preferredAlphanumeric =>
        composer.setOutputMode forms
          (if composer.inputMode = .fullAscii then .fullAscii else .halfAscii)
      | .halfAlphanumeric => composer.setOutputMode forms .halfAscii
      | .fullAlphanumeric => composer.setOutputMode forms .fullAscii
    match modeSwitching.inputMode with
    | .noChange => composer
    | .revertToPreviousMode => composer.setInputMode composer.comebackInputMode
    | .preferredAlphanumeric =>
      if composer.inputMode ≠ .halfAscii && composer.inputMode ≠ .fullAscii then
        composer.setTemporaryInputMode .halfAscii
      else composer
    | .halfAlphanumeric =>
      if composer.inputMode ≠ .halfAscii then composer.setTemporaryInputMode .halfAscii
      else composer
    | .fullAlphanumeric =>
      if composer.inputMode ≠ .fullAscii then composer.setTemporaryInputMode .fullAscii
      else composer

/-! ## Key events -/

/-- The duration from the previous input is over the threshold. -/
def timedOut (composer : Composer) (currentMsec : Int64) : Bool :=
  0 < composer.timestampMsec &&
    composer.timeoutThresholdMsec ≤ currentMsec - composer.timestampMsec

/-- `now` is the clock. -/
def checkTimeout (forms : CharacterForms) (fuel : Nat) (now : Int64) (composer : Composer)
    (key : KeyEvent) : Except KeyFailure Composer :=
  if 0 < composer.timeoutThresholdMsec then
    let currentMsec := key.timestampMsec.getD now
    if composer.timedOut currentMsec then
      match composer.insertCommandCharacter forms fuel .stopKeyToggling with
      | .error failure => .error failure
      | .ok (composer, _) => .ok { composer with timestampMsec := currentMsec }
    else .ok { composer with timestampMsec := currentMsec }
  else .ok composer

def switchMode (composer : Composer) (key : KeyEvent) : Composer :=
  match key.mode with
  | none => composer
  | some mode =>
    let newInputMode := getTransliterationTypeFromCompositionMode mode
    if newInputMode ≠ composer.inputMode then composer.setInputMode newInputMode else composer

/-- The loop over the modifier keys, of which these are left. Its condition is the number of all
keys, so it is left only with `SHIFT`. -/
def findShift : List ModifierKey → Except KeyFailure Unit
  | [] => .error .noSuchModifier
  | modifierKey :: rest => if modifierKey = .shift then .ok () else findShift rest

/-- Whether only `SHIFT` is pressed. -/
def checkShift (key : KeyEvent) : Except KeyFailure Bool :=
  if key.keyCode.isSome || key.modifierKeys.isEmpty then .ok false
  else (findShift key.modifierKeys).map fun _ => true

/-- The mode in which an input is inserted. -/
def prepare (composer : Composer) (key : KeyEvent) (input : CompositionInput) :
    Except KeyFailure Composer :=
  if !input.conversion.isEmpty then
    .ok (if input.isAsis then
      { composer with composition := composer.composition.setInputMode .conversionString }
      else composer)
  else composer.applyTemporaryInputMode input.raw (hasCaps (getModifiers key))

/-- What is done behind the insertion. -/
def finish (forms : CharacterForms) (composer : Composer) (input : CompositionInput) : Composer :=
  let composer :=
    if !input.conversion.isEmpty && input.isAsis then
      composer.setInputMode composer.comebackInputMode
    else composer
  if composer.comebackInputMode = composer.inputMode then composer.autoSwitchMode forms
  else composer

/-- What is done with an event behind the timeout and the mode. -/
def insertKey (forms : CharacterForms) (fuel : Nat) (composer : Composer) (key : KeyEvent) :
    Except KeyFailure (Composer × Bool) :=
  match checkShift key with
  | .error failure => .error failure
  | .ok true => .ok (composer.setInputMode composer.comebackInputMode, true)
  | .ok false =>
    match CompositionInput.init composer.table.table key composer.isNewInput with
    | none => .ok (composer, false)
    | some input =>
      match composer.prepare key input with
      | .error failure => .error failure
      | .ok composer =>
        match composer.processCompositionInput forms fuel input with
        | .error failure => .error failure
        | .ok (composer, _) => .ok (composer.finish forms input, true)

def insertCharacterKeyEvent (forms : CharacterForms) (fuel : Nat) (now : Int64)
    (composer : Composer) (key : KeyEvent) : Except KeyFailure (Composer × Bool) :=
  if !composer.enableInsert forms then .ok (composer, false)
  else
    match composer.checkTimeout forms fuel now key with
    | .error failure => .error failure
    | .ok composer => (composer.switchMode key).insertKey forms fuel key

end Composer

end Mozkey.Composer
