import Mozkey.Zenz.FeedbackAtomicity

/-!
# Acknowledged appends

Runs of `AppendRecord` calls, each of which may stop at any byte of its row.

A row is written behind whatever the file holds, so a row that was cut off is joined with the
next one into a single line (`acknowledged_lost`), and the acknowledged record is not read
back. As long as every failed append left either nothing or its whole row, the file stays a
text of complete rows (`AppendInvariant`), and what was acknowledged is what is read.
-/

namespace Mozkey.Zenz

open Infra

variable {pl : Platform}

/-! ## Non-strict loading, line by line -/

/-- The record a line contributes to a non-strict load. -/
def recordOfLine (pl : Platform) (line : Bytes) : Option ParsedFeedbackRecord :=
  if line.isEmpty then none else parseLine pl line

theorem loadLines_nonStrict : ∀ (ls : List Bytes) (ok : Bool) (records : List ParsedFeedbackRecord),
    (loadLines pl false ok records ls).2 = records ++ ls.filterMap (recordOfLine pl)
  | [], ok, records => by simp [loadLines]
  | line :: rest, ok, records => by
    rw [loadLines, List.filterMap_cons, recordOfLine]
    split
    · exact loadLines_nonStrict rest ok records
    · cases parseLine pl line with
      | none => exact loadLines_nonStrict rest false records
      | some record =>
        have ih := loadLines_nonStrict rest ok (records ++ [record])
        simpa using ih

theorem loadRecordsFromStream_nonStrict (input : Bytes) :
    (loadRecordsFromStream pl false input).2 = (lines lf input).filterMap (recordOfLine pl) :=
  loadLines_nonStrict _ true []

/-- Behind complete lines a text is loaded on its own. -/
theorem loadRecordsFromStream_append {a : Bytes} (ha : Terminated lf a) (b : Bytes) :
    (loadRecordsFromStream pl false (a ++ b)).2
      = (loadRecordsFromStream pl false a).2 ++ (loadRecordsFromStream pl false b).2 := by
  simp [loadRecordsFromStream_nonStrict, lines_append ha]

/-! ## Runs -/

/-- One call of `AppendRecord`, with what happened to its writes. -/
structure AppendCall where
  action : Bytes
  key : Bytes
  contextClass : Bytes
  value : Bytes
  reason : Bytes
  io : AppendIo
  now : Nat

namespace AppendCall

def record (call : AppendCall) : ParsedFeedbackRecord :=
  appendedRecord call.action call.key call.contextClass call.value call.reason

def run (st : ZenzFeedbackStore pl) (call : AppendCall) : Bool × ZenzFeedbackStore pl :=
  appendRecord st call.record call.io call.now

/-- The call did not leave a part of its row behind. -/
def Untorn (call : AppendCall) : Prop :=
  ∀ written, call.io = .writeFailed written →
    written = 0 ∨ (writeRecordToStream call.record).length ≤ written

end AppendCall

/-- The store after the calls, the first one first. -/
def appendAll (st : ZenzFeedbackStore pl) : List AppendCall → ZenzFeedbackStore pl
  | [] => st
  | call :: rest => appendAll (call.run st).2 rest

/-- The records of the calls that returned true. -/
def acknowledged (st : ZenzFeedbackStore pl) : List AppendCall → List ParsedFeedbackRecord
  | [] => []
  | call :: rest =>
    if (call.run st).1 then call.record :: acknowledged (call.run st).2 rest
    else acknowledged (call.run st).2 rest

/-- Read back from the file, there is one occurrence for every acknowledged append and none
that no call asked for, next to what the file held before the run. -/
def Durable (st : ZenzFeedbackStore pl) (calls : List AppendCall) : Prop :=
  ∀ r, st.persistedRecords.count r + (acknowledged st calls).count r
      ≤ (appendAll st calls).persistedRecords.count r ∧
    (appendAll st calls).persistedRecords.count r
      ≤ st.persistedRecords.count r + (calls.map AppendCall.record).count r

theorem content_appendToFile (st : ZenzFeedbackStore pl) (bytes : Bytes) (now : Nat) :
    (appendToFile st.file bytes now).content = st.content ++ bytes := by
  unfold appendToFile ZenzFeedbackStore.content
  cases st.file with
  | none => rfl
  | some f => rfl

/-! ## One call -/

/-- What a call adds to the file. -/
def AppendCall.added (pl : Platform) (call : AppendCall) : Bytes :=
  if isSafeFeedbackRecord pl call.record then
    match call.io with
    | .noPath | .openFailed => []
    | .writeFailed written => (writeRecordToStream call.record).take written
    | .flushed => writeRecordToStream call.record
  else []

theorem AppendCall.run_content (st : ZenzFeedbackStore pl) (call : AppendCall) :
    (call.run st).2.content = st.content ++ call.added pl := by
  unfold AppendCall.run appendRecord AppendCall.added
  by_cases hs : isSafeFeedbackRecord pl call.record = true
  · rw [if_neg (by simp [hs]), if_pos hs]
    cases call.io with
    | noPath => simp
    | openFailed => simp
    | writeFailed written => exact content_appendToFile st _ _
    | flushed => exact content_appendToFile st _ _
  · rw [if_pos (by simp [hs]), if_neg hs, List.append_nil]

/-- True is returned for the row of a safe record that was written as a whole. -/
theorem AppendCall.run_returned (st : ZenzFeedbackStore pl) {call : AppendCall}
    (h : (call.run st).1 = true) :
    isSafeFeedbackRecord pl call.record = true ∧ call.io = .flushed := by
  unfold AppendCall.run appendRecord at h
  split at h
  · simp at h
  · next hs =>
    refine ⟨by simpa using hs, ?_⟩
    cases hio : call.io with
    | flushed => rfl
    | _ => rw [hio] at h; simp at h

/-- Without a torn row a call adds nothing or the row of a safe record. -/
theorem AppendCall.added_untorn {call : AppendCall} (h : call.Untorn) :
    call.added pl = [] ∨
      isSafeFeedbackRecord pl call.record = true ∧
        call.added pl = writeRecordToStream call.record := by
  unfold AppendCall.added
  split
  · next hs =>
    cases hio : call.io with
    | noPath => exact Or.inl rfl
    | openFailed => exact Or.inl rfl
    | writeFailed written =>
      rcases h written hio with rfl | hw
      · exact Or.inl rfl
      · exact Or.inr ⟨hs, List.take_of_length_le hw⟩
    | flushed => exact Or.inr ⟨hs, rfl⟩
  · exact Or.inl rfl

/-! ## The invariant of a run -/

/-- The file grew by whole rows: those of the acknowledged calls and possibly of others. -/
structure AppendInvariant (st st' : ZenzFeedbackStore pl)
    (acked asked kept : List ParsedFeedbackRecord) : Prop where
  content : st'.content = st.content ++ rows kept
  safe : ∀ r ∈ kept, isSafeFeedbackRecord pl r = true
  acked_kept : acked.Sublist kept
  kept_asked : kept.Sublist asked

theorem appendAll_invariant : ∀ (calls : List AppendCall) (st : ZenzFeedbackStore pl),
    (∀ call ∈ calls, call.Untorn) →
    ∃ kept, AppendInvariant st (appendAll st calls) (acknowledged st calls)
      (calls.map AppendCall.record) kept
  | [], st, _ => ⟨[], by simp [appendAll], by simp, by simp [acknowledged], by simp⟩
  | call :: rest, st, h => by
    obtain ⟨kept, hinv⟩ := appendAll_invariant rest (call.run st).2
      (List.forall_mem_cons.mp h).2
    have hcontent := call.run_content st
    rw [appendAll, acknowledged, List.map_cons]
    rcases AppendCall.added_untorn (h call List.mem_cons_self) with hadd | ⟨hs, hadd⟩
    · -- nothing was written, so the call did not return true
      have hret : ¬(call.run st).1 = true := by
        intro hret
        obtain ⟨hs, hio⟩ := AppendCall.run_returned st hret
        rw [AppendCall.added, if_pos hs, hio] at hadd
        exact writeRecordToStream_ne_nil _ hadd
      rw [if_neg hret]
      refine ⟨kept, ?_, hinv.safe, hinv.acked_kept, hinv.kept_asked.cons _⟩
      simp [hinv.content, hcontent, hadd]
    · refine ⟨call.record :: kept, ?_, ?_, ?_, hinv.kept_asked.cons_cons _⟩
      · simp [hinv.content, hcontent, hadd, rows_cons]
      · intro r hr
        rcases List.mem_cons.mp hr with rfl | hr
        · exact hs
        · exact hinv.safe r hr
      · split
        · exact hinv.acked_kept.cons_cons _
        · exact hinv.acked_kept.cons _

/--
**In a run without torn rows what was acknowledged is durable.**

From any file of complete lines, for any number of calls and failures in any order. A later
load finds every acknowledged record once for each time it was acknowledged, and nothing that
no call asked for.
-/
theorem durable_of_untorn (st : ZenzFeedbackStore pl) (calls : List AppendCall)
    (hfile : Terminated lf st.content) (h : ∀ call ∈ calls, call.Untorn) : Durable st calls := by
  obtain ⟨kept, hinv⟩ := appendAll_invariant calls st h
  have hread : (appendAll st calls).persistedRecords = st.persistedRecords ++ kept := by
    rw [ZenzFeedbackStore.persistedRecords_eq, hinv.content, loadRecordsFromStream_append hfile,
      loadRecordsFromStream_rows hinv.safe, ← ZenzFeedbackStore.persistedRecords_eq]
  intro r
  have hacked := hinv.acked_kept.count_le r
  have hasked := hinv.kept_asked.count_le r
  simp [hread]
  omega

/-- `durable_of_untorn` on a run with a failed append between two acknowledged ones. -/
theorem durable_of_untorn_run :
    Durable (.withFile none : ZenzFeedbackStore ⟨fun _ => true⟩)
      [⟨utf8 "accepted", utf8 "k", [], utf8 "a", [], .flushed, 1⟩,
        ⟨utf8 "rejected", utf8 "k", [], utf8 "b", [], .writeFailed 0, 2⟩,
        ⟨utf8 "accepted", utf8 "k", [], utf8 "a", [], .flushed, 3⟩] := by
  refine durable_of_untorn _ _ (Or.inl rfl) ?_
  simp [AppendCall.Untorn]

/-- An append that stops after `v2` and the action, and then an acknowledged append that is not
read back. -/
theorem acknowledged_lost :
    ¬ ∀ (pl : Platform) (st : ZenzFeedbackStore pl) (calls : List AppendCall),
      Terminated lf st.content → Durable st calls := by
  intro h
  have hrun := h ⟨fun _ => true⟩ (.withFile none)
    [⟨utf8 "accepted", utf8 "k", [], utf8 "a", [], .writeFailed 11, 1⟩,
      ⟨utf8 "accepted", utf8 "k", [], utf8 "b", [], .flushed, 2⟩] (Or.inl rfl)
    (appendedRecord (utf8 "accepted") (utf8 "k") [] (utf8 "b") [])
  revert hrun
  decide

end Mozkey.Zenz
