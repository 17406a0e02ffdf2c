import Mozkey.Infra.Bytes
import Mozkey.Infra.Transitions

/-!
# Command sequences of the keymap

`session/session.cc`, from a key or a session command to the commands of a sequence. A sequence is
suspended at a `Delay(n)` and at a reconversion, and the rest of it is resumed by a callback.

What the commands themselves do is the session's `Handlers`. They know nothing of a suspended
sequence.
-/

namespace Mozkey.Session

open Infra

/-- `SessionCommand::CommandType` -/
inductive CommandType where
  | none | revert | submit | selectCandidate | highlightCandidate | switchCompositionMode
  | getStatus | submitCandidate | convertReverse | undo | resetContext | moveCursor
  | switchInputFieldType | undoOrRewind | commitRawText | convertPrevPage | convertNextPage
  | turnOnIme | turnOffIme | deleteCandidateFromHistory | stopKeyToggling | updateComposition
  | requestNwp | applyLiveConversion | applyZenzLiveCorrection | reconvertSelectionOrInsertSpace
  | resumeCommandSequence
  deriving DecidableEq

structure SessionCommand where
  type : CommandType
  commandSequenceGeneration : Option UInt32 := .none
  deriving DecidableEq

structure Callback where
  sessionCommand : Option SessionCommand := .none
  delayMillisec : Option Nat := .none
  deriving DecidableEq

inductive ResultType where
  | none | string
  deriving DecidableEq

structure ResultToken where
  value : Option Bytes
  key : Option Bytes
  lid : Int := -1
  rid : Int := -1
  deriving DecidableEq

/-- `commands::Result` -/
structure Result where
  type : ResultType := .none
  value : Option Bytes := .none
  key : Option Bytes := .none
  cursorOffset : Int := 0
  tokens : List ResultToken := []
  deriving DecidableEq

/-- `commands::Output`, the fields that the code below reads or writes. -/
structure Output where
  consumed : Bool := false
  result : Option Result := .none
  callback : Option Callback := .none
  commandSequenceResumeGeneration : Option UInt32 := .none
  deriving DecidableEq

/-! ## Delays -/

/-- `Delay(n)`, from 0 to 5000 -/
def parseKeymapDelay (command : Bytes) : Option Nat :=
  if !(utf8 "Delay(").isPrefixOf command || !(utf8 ")").isSuffixOf command then .none
  else
    let digits := (command.drop 6).take (command.length - 7)
    if digits.isEmpty || 4 < digits.length || !digits.all isDigitByte then .none
    else
      let delay := digits.foldl (fun n digit => n * 10 + (digit.toNat - 48)) 0
      if 5000 < delay then .none else some delay

def mergeCommandResult (stepResult accumulatedResult : Result) : Result :=
  if accumulatedResult.key.isNone && accumulatedResult.value.isNone then stepResult
  else
    { accumulatedResult with
      key :=
        match stepResult.key with
        | some key => some (accumulatedResult.key.getD [] ++ key)
        | .none => accumulatedResult.key
      value :=
        match stepResult.value with
        | some value => some (accumulatedResult.value.getD [] ++ value)
        | .none => accumulatedResult.value }

/-- The local variables of `ExecuteCommandSequenceWithInitialOutput` -/
structure Accumulated where
  executed : Bool := false
  consumed : Bool := false
  hasAccumulatedResult : Bool := false
  accumulatedResult : Result := {}
  finalOutput : Output := {}

def accumulateCommandOutput (stepOutput : Output) (a : Accumulated) : Accumulated :=
  let consumed := a.consumed || stepOutput.consumed
  let accumulatedResult :=
    match stepOutput.result with
    | some result => mergeCommandResult result a.accumulatedResult
    | .none => a.accumulatedResult
  let hasAccumulatedResult := stepOutput.result.isSome || a.hasAccumulatedResult
  { a with
    consumed, hasAccumulatedResult, accumulatedResult
    finalOutput :=
      { stepOutput with
        consumed
        result := if hasAccumulatedResult then some accumulatedResult else stepOutput.result } }

/-- An output is accumulated, and something has been executed. -/
def Accumulated.add (a : Accumulated) (stepOutput : Output) : Accumulated :=
  { accumulateCommandOutput stepOutput a with executed := true }

/-- What each exit makes the command's output. -/
def Accumulated.publish (a : Accumulated) : Output :=
  { a.finalOutput with
    consumed := a.consumed
    result :=
      if a.hasAccumulatedResult then some a.accumulatedResult else a.finalOutput.result }

/-! ## The session -/

/-- The states of `ImeContext` -/
inductive ImeState where
  | none | direct | precomposition | composition | conversion
  deriving DecidableEq

/-- What is left of a sequence. -/
structure Suspension where
  remaining : List Bytes
  generation : UInt32
  waitsForReconversion : Bool
  key : Bytes
  deriving DecidableEq

/-- `context` is everything else: the IME context, the live conversion, the command's input. -/
structure State (Context : Type) where
  pendingCommandSequence : List Bytes := []
  commandSequenceGeneration : UInt32 := 0
  commandSequenceWaitsForReconversion : Bool := false
  pendingCommandSequenceKey : Bytes := []
  context : Context

/-- What is done for a key: the output is there, or a sequence is to be executed. -/
inductive KeyAction where
  | done (output : Output) (result : Bool)
  | sequence (commandSequence : List Bytes) (initialOutput : Option Output)

/-- The rest of the session. An output that is passed is the one to be changed. -/
structure Handlers (Context Input : Type) where
  getQueryForConversion : Context → Bytes
  imeState : Context → ImeState
  /-- `UpdatePreferences`, `TransformInput`, `HandleIndirectImeOnOff` -/
  receive : Input → Context → Context
  /-- `SendKeyDirectInputState` and the others -/
  sendKeyState : Context → Context × KeyAction
  executeCommandName : Bytes → Context → Context × Output × Bool
  doNothing : Output → Context → Context × Output
  outputFromState : Output → Context → Context × Output
  ignoreStaleDelayedLiveConversion : Output → Context → Context × Output × Bool
  /-- Whether it has begun a conversion comes last. -/
  convertReverse : Context → Context × Output × Bool × Bool
  sendCommand : SessionCommand → Context → Context × Output × Bool
  /-- What is done after the handler of a key or a command. -/
  finish : Context → Context

variable {Context Input : Type}

/-- No sequence is suspended. -/
def State.clear (s : State Context) : State Context :=
  { s with
    pendingCommandSequence := []
    pendingCommandSequenceKey := []
    commandSequenceWaitsForReconversion := false }

def State.suspend (s : State Context) (remaining : List Bytes) (waits : Bool) (key : Bytes) :
    State Context :=
  { s with
    pendingCommandSequence := remaining
    commandSequenceWaitsForReconversion := waits
    pendingCommandSequenceKey := key
    commandSequenceGeneration := s.commandSequenceGeneration + 1 }

/-- The sequence that is suspended. -/
def State.suspension (s : State Context) : Option Suspension :=
  if s.pendingCommandSequence.isEmpty then .none
  else
    some
      { remaining := s.pendingCommandSequence
        generation := s.commandSequenceGeneration
        waitsForReconversion := s.commandSequenceWaitsForReconversion
        key := s.pendingCommandSequenceKey }

/-- The state and the output that are left, and for the record: the commands that were executed
with their outputs, and whether the sequence was suspended. -/
structure Outcome (Context : Type) where
  state : State Context
  output : Output
  result : Bool
  executed : List (Bytes × Output) := []
  suspended : Option Suspension := .none

/-! ## Executing a sequence -/

/-- Whether the rest of the sequence waits for a reconversion. `win32` is `_WIN32`. -/
def waitsForReconversion (win32 : Bool) (commandName : Bytes) (stepOutput : Output) : Bool :=
  match stepOutput.callback.bind (·.sessionCommand) with
  | .none => false
  | some sessionCommand =>
    win32 && commandName == utf8 "Reconvert" && sessionCommand.type == .convertReverse ||
      commandName == utf8 "ReconvertSelectionOrInsertSpace" &&
        sessionCommand.type == .reconvertSelectionOrInsertSpace

/-- A `RESUME_COMMAND_SEQUENCE` after `delay` milliseconds. -/
def resumeCallback (generation : UInt32) (delay : Nat) : Callback where
  sessionCommand := some { type := .resumeCommandSequence, commandSequenceGeneration := generation }
  delayMillisec := delay

variable (handlers : Handlers Context Input) (win32 : Bool)

/-- The loop of `ExecuteCommandSequenceWithInitialOutput`. `output` is the command's output when it
is entered. -/
def executeCommands (output : Output) : List Bytes → Accumulated → State Context → Outcome Context
  | [], a, s =>
    if !a.executed then
      let (context, output) := handlers.doNothing output s.context
      { state := { s with context }, output, result := true }
    else { state := s, output := a.publish, result := true }
  | commandName :: rest, a, s =>
    if commandName.isEmpty then executeCommands output rest a s
    else
      match parseKeymapDelay commandName with
      | some delay =>
        if delay == 0 || rest.isEmpty then executeCommands output rest a s
        else if a.finalOutput.callback.isSome then
          -- an asynchronous callback is not overwritten, the rest is given up
          { state := s, output := a.publish, result := true }
        else
          let s := s.suspend rest false (handlers.getQueryForConversion s.context)
          { state := s
            output :=
              { a.publish with callback := resumeCallback s.commandSequenceGeneration delay }
            result := true
            suspended := s.suspension }
      | .none =>
        let (context, stepOutput, done) := handlers.executeCommandName commandName s.context
        let s := { s with context }
        if !done then
          if !a.executed then
            let (context, output) := handlers.doNothing stepOutput s.context
            { state := { s with context }, output, result := true }
          else { state := s, output := a.publish, result := true }
        else
          let a := a.add stepOutput
          if !rest.isEmpty && waitsForReconversion win32 commandName stepOutput then
            let s := s.suspend rest true []
            { state := s
              output := { a.finalOutput with consumed := a.consumed }
              result := true
              executed := [(commandName, stepOutput)]
              suspended := s.suspension }
          else
            let outcome := executeCommands output rest a s
            { outcome with executed := (commandName, stepOutput) :: outcome.executed }

def executeCommandSequenceWithInitialOutput (commandSequence : List Bytes)
    (initialOutput : Option Output) (output : Output) (s : State Context) : Outcome Context :=
  match initialOutput with
  | some initialOutput =>
    executeCommands handlers win32 output commandSequence (Accumulated.add {} initialOutput) s
  | .none => executeCommands handlers win32 output commandSequence {} s

def executeCommandSequence (commandSequence : List Bytes) (output : Output) (s : State Context) :
    Outcome Context :=
  executeCommandSequenceWithInitialOutput handlers win32 commandSequence .none output s

/-! ## Events -/

inductive Event (Input : Type) where
  | sendKey (input : Input)
  | sendCommand (input : Input) (command : Option SessionCommand)

/-- What an event has done. `begun` is the sequence of its key, `resumed` the rest of an earlier
sequence. -/
structure Report where
  output : Output
  result : Bool
  begun : Option (List Bytes) := .none
  resumed : Option (List Bytes) := .none
  initialOutput : Option Output := .none
  executed : List (Bytes × Output) := []
  suspended : Option Suspension := .none

def Outcome.report (outcome : Outcome Context) : Report where
  output := outcome.output
  result := outcome.result
  executed := outcome.executed
  suspended := outcome.suspended

def sendKey (input : Input) (s : State Context) : State Context × Report :=
  let s := { s.clear with
    commandSequenceGeneration := s.commandSequenceGeneration + 1
    context := handlers.receive input s.context }
  let (context, action) := handlers.sendKeyState s.context
  match action with
  | .done output result =>
    ({ s with context := handlers.finish context }, { output, result })
  | .sequence commandSequence initialOutput =>
    let outcome := executeCommandSequenceWithInitialOutput handlers win32 commandSequence
      initialOutput (initialOutput.getD {}) { s with context }
    ({ outcome.state with context := handlers.finish outcome.state.context },
      { outcome.report with begun := some commandSequence, initialOutput })

/-- The commands that keep a suspended sequence. -/
def keepsSuspended (waitsForReconversion : Bool) : CommandType → Bool
  | .none | .getStatus | .applyLiveConversion | .applyZenzLiveCorrection
  | .resumeCommandSequence => true
  | .convertReverse => waitsForReconversion
  | _ => false

/-- What `SendCommand` does with a suspended sequence first. -/
def State.invalidateFor (s : State Context) (type : CommandType) : State Context :=
  if keepsSuspended s.commandSequenceWaitsForReconversion type then s
  else { s.clear with commandSequenceGeneration := s.commandSequenceGeneration + 1 }

def resumeCommandSequence (resume : SessionCommand) (s : State Context) :
    State Context × Report :=
  let output : Output := { consumed := true }
  let ignore (s : State Context) : State Context × Report :=
    let (context, output, result) := handlers.ignoreStaleDelayedLiveConversion output s.context
    ({ s with context }, { output, result })
  if resume.commandSequenceGeneration != some s.commandSequenceGeneration ||
      s.pendingCommandSequence.isEmpty then ignore s
  else if !s.commandSequenceWaitsForReconversion &&
      handlers.getQueryForConversion s.context != s.pendingCommandSequenceKey then
    ignore { s with pendingCommandSequence := [], pendingCommandSequenceKey := [] }
  else if s.commandSequenceWaitsForReconversion &&
      handlers.imeState s.context != .conversion then
    ignore
      { s with pendingCommandSequence := [], commandSequenceWaitsForReconversion := false }
  else
    let remaining := s.pendingCommandSequence
    let s := { s.clear with commandSequenceGeneration := s.commandSequenceGeneration + 1 }
    if remaining.head? == some (utf8 "ForceZenzLiveCorrection") ||
        remaining.head? == some (utf8 "ForceZenzLiveCorrectionWithoutFeedback") then
      let outcome := executeCommandSequence handlers win32 remaining output s
      (outcome.state, { outcome.report with resumed := some remaining })
    else
      let (context, initial) := handlers.outputFromState output s.context
      let outcome := executeCommandSequenceWithInitialOutput handlers win32 remaining
        (some initial) initial { s with context }
      (outcome.state,
        { outcome.report with resumed := some remaining, initialOutput := some initial })

/-- The acknowledgement carries the generation of the sequence that waits for it. -/
def convertReverse (s : State Context) : State Context × Report :=
  let (context, output, result, begun) := handlers.convertReverse s.context
  let output :=
    if begun && s.commandSequenceWaitsForReconversion && !s.pendingCommandSequence.isEmpty then
      { output with commandSequenceResumeGeneration := some s.commandSequenceGeneration }
    else output
  ({ s with context }, { output, result })

def sendCommand (input : Input) (command : Option SessionCommand) (s : State Context) :
    State Context × Report :=
  let s := { s with context := handlers.receive input s.context }
  match command with
  | .none => (s, { output := {}, result := false })
  | some command =>
    let s := s.invalidateFor command.type
    let (s, report) :=
      match command.type with
      | .resumeCommandSequence => resumeCommandSequence handlers win32 command s
      | .convertReverse => convertReverse handlers s
      | _ =>
        let (context, output, result) := handlers.sendCommand command s.context
        ({ s with context }, { output, result })
    if command.type = .switchCompositionMode then (s, report)
    else ({ s with context := handlers.finish s.context }, report)

def handle : Event Input → State Context → State Context × Report
  | .sendKey input => sendKey handlers win32 input
  | .sendCommand input command => sendCommand handlers win32 input command

end Mozkey.Session
