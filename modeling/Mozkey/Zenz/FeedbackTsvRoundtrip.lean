import Mozkey.Zenz.FeedbackRecord

/-!
# The feedback TSV round trip

What `WriteRecordsToStream` wrote is what `LoadRecordsFromStream` reads.

## Three levels

* **column** — `UnescapeTsv` undoes `EscapeTsv`, and an escaped column holds no separator
* **row** — splitting at TAB gives back the six columns, so a safe record is parsed from its row
* **file** — every row ends with its own LF, so the rows are read one by one

The last level is stated for rows in front of an arbitrary text (`loadLines_rows`). Appending to
a file (`Mozkey/Zenz/FeedbackDurability.lean`) reads rows the same way.
-/

namespace Mozkey.Zenz

open Infra

/-! ## Columns -/

theorem unescapeTsvFrom_escapeByte (c : UInt8) (rest : Bytes) :
    unescapeTsvFrom false (escapeTsvByte c ++ rest) = c :: unescapeTsvFrom false rest := by
  have hesc : ∀ d, unescapeTsvFrom false (backslash :: d :: rest)
      = unescapeTsvByte d :: unescapeTsvFrom false rest := by
    intro d
    simp [unescapeTsvFrom]
  unfold escapeTsvByte
  split
  · next h => subst h; exact hesc (byte 't')
  · split
    · next h => subst h; exact hesc (byte 'r')
    · split
      · next h => subst h; exact hesc (byte 'n')
      · split
        · next h => subst h; exact hesc backslash
        · next h => rw [List.singleton_append, unescapeTsvFrom, if_neg h]

theorem unescapeTsv_append (s rest : Bytes) :
    unescapeTsv (escapeTsv s ++ rest) = s ++ unescapeTsv rest := by
  unfold unescapeTsv escapeTsv
  induction s with
  | nil => rfl
  | cons c s ih =>
    simp [unescapeTsvFrom_escapeByte, ih]

/-- **A column is read back as it was.** -/
@[simp] theorem unescapeTsv_escapeTsv (s : Bytes) : unescapeTsv (escapeTsv s) = s := by
  have h := unescapeTsv_append s []
  simpa [unescapeTsv, unescapeTsvFrom] using h

/-- An escape sequence holds neither a TAB nor an LF. -/
theorem not_mem_escapeTsvByte (c : UInt8) : tab ∉ escapeTsvByte c ∧ lf ∉ escapeTsvByte c := by
  unfold escapeTsvByte
  split
  · decide
  · next htab =>
    split
    · decide
    · split
      · decide
      · next hlf =>
        split
        · decide
        · exact ⟨by simpa using Ne.symm htab, by simpa using Ne.symm hlf⟩

theorem tab_not_mem_escapeTsv (s : Bytes) : tab ∉ escapeTsv s := by
  intro h
  obtain ⟨c, -, hc⟩ := List.mem_flatMap.mp h
  exact (not_mem_escapeTsvByte c).1 hc

theorem lf_not_mem_escapeTsv (s : Bytes) : lf ∉ escapeTsv s := by
  intro h
  obtain ⟨c, -, hc⟩ := List.mem_flatMap.mp h
  exact (not_mem_escapeTsvByte c).2 hc

/-! ## Rows -/

/-- The columns of a row, before the LF. -/
def rowColumns (record : ParsedFeedbackRecord) : Bytes :=
  utf8 "v2" ++ tab :: (escapeTsv record.action ++ tab :: (escapeTsv record.key ++ tab ::
    (escapeTsv (normalizeContextClass record.contextClass) ++ tab :: (escapeTsv record.value ++
      tab :: escapeTsv record.reason))))

theorem writeRecordToStream_eq (record : ParsedFeedbackRecord) :
    writeRecordToStream record = rowColumns record ++ [lf] := by
  simp [writeRecordToStream, rowColumns]

theorem writeRecordToStream_ne_nil (record : ParsedFeedbackRecord) :
    writeRecordToStream record ≠ [] := by
  simp [writeRecordToStream_eq]

theorem lf_not_mem_rowColumns (record : ParsedFeedbackRecord) : lf ∉ rowColumns record := by
  have hv2 : lf ∉ utf8 "v2" := by decide
  have htab : lf ≠ tab := by decide
  simp [rowColumns, lf_not_mem_escapeTsv, hv2, htab]

theorem rowColumns_ne_nil (record : ParsedFeedbackRecord) : rowColumns record ≠ [] := by
  simp [rowColumns]

theorem splitTab_rowColumns (record : ParsedFeedbackRecord) :
    splitTab (rowColumns record)
      = [utf8 "v2", escapeTsv record.action, escapeTsv record.key,
          escapeTsv (normalizeContextClass record.contextClass), escapeTsv record.value,
          escapeTsv record.reason] := by
  unfold splitTab rowColumns
  rw [fields_append_sep (by decide), fields_append_sep (tab_not_mem_escapeTsv _),
    fields_append_sep (tab_not_mem_escapeTsv _), fields_append_sep (tab_not_mem_escapeTsv _),
    fields_append_sep (tab_not_mem_escapeTsv _), fields_of_not_mem (tab_not_mem_escapeTsv _)]

/-- A class the store knows is not empty, so normalizing keeps it. -/
theorem normalizeContextClass_of_known {c : Bytes} (h : isKnownContextClass c = true) :
    normalizeContextClass c = c := by
  cases c with
  | nil => exact absurd h (by decide)
  | cons b c => rfl

variable {record : ParsedFeedbackRecord}

/-- What `isSafeFeedbackRecord` checks, in the order of the checks. -/
theorem isSafeFeedbackRecord_known {pl : Platform} (h : isSafeFeedbackRecord pl record = true) :
    isKnownContextClass record.contextClass = true := by
  unfold isSafeFeedbackRecord at h
  split at h
  · simp at h
  · split at h
    · simp at h
    · split at h
      · simp at h
      · next hk => simpa using hk

/-- **A safe record is parsed from the row it was written as.** -/
theorem parseLine_rowColumns {pl : Platform} (h : isSafeFeedbackRecord pl record = true) :
    parseLine pl (rowColumns record) = some record := by
  have hctx : normalizeContextClass record.contextClass = record.contextClass :=
    normalizeContextClass_of_known (isSafeFeedbackRecord_known h)
  unfold parseLine
  rw [splitTab_rowColumns, hctx, stripUtf8BomFromFirstField, if_neg (by decide)]
  simp [parseFeedbackRecord, v2Record, hctx, safeRecord, h]

/-! ## Streams -/

variable {pl : Platform} {strict : Bool}

/-- The records collected so far are only prepended. -/
theorem loadLines_records (ls : List Bytes) : ∀ (ok : Bool) (records : List ParsedFeedbackRecord),
    loadLines pl strict ok records ls
      = ((loadLines pl strict ok [] ls).1, records ++ (loadLines pl strict ok [] ls).2) := by
  induction ls with
  | nil => intro ok records; simp [loadLines]
  | cons line rest ih =>
    intro ok records
    rw [loadLines, loadLines]
    split
    · exact ih ok records
    · cases parseLine pl line with
      | none =>
        cases strict with
        | true => simp
        | false => exact ih false records
      | some record =>
        show loadLines pl strict ok (records ++ [record]) rest
          = ((loadLines pl strict ok ([] ++ [record]) rest).1,
              records ++ (loadLines pl strict ok ([] ++ [record]) rest).2)
        rw [ih ok (records ++ [record]), ih ok ([] ++ [record])]
        simp

/-- Rows of safe records, in front of other lines. -/
theorem loadLines_rows (ok : Bool) (tail : List Bytes) : ∀ (records : List ParsedFeedbackRecord),
    (∀ r ∈ records, isSafeFeedbackRecord pl r = true) →
    loadLines pl strict ok [] (records.map rowColumns ++ tail)
      = ((loadLines pl strict ok [] tail).1, records ++ (loadLines pl strict ok [] tail).2)
  | [], _ => by simp
  | record :: rest, h => by
    rw [List.map_cons, List.cons_append, loadLines,
      if_neg (by simp [rowColumns_ne_nil]), parseLine_rowColumns (h record List.mem_cons_self)]
    show loadLines pl strict ok ([] ++ [record]) _ = _
    rw [loadLines_records, loadLines_rows ok tail rest (List.forall_mem_cons.mp h).2]
    simp

/-- The bytes of some rows. -/
def rows (records : List ParsedFeedbackRecord) : Bytes := records.flatMap writeRecordToStream

@[simp] theorem rows_nil : rows [] = [] := rfl

theorem rows_cons (record : ParsedFeedbackRecord) (rest : List ParsedFeedbackRecord) :
    rows (record :: rest) = writeRecordToStream record ++ rows rest := List.flatMap_cons

theorem terminated_row (record : ParsedFeedbackRecord) :
    Terminated lf (writeRecordToStream record) :=
  Or.inr ⟨rowColumns record, writeRecordToStream_eq record⟩

theorem terminated_rows : ∀ records : List ParsedFeedbackRecord, Terminated lf (rows records)
  | [] => Or.inl rfl
  | record :: rest => by
    rw [rows_cons]
    exact (terminated_row record).append (terminated_rows rest)

theorem lines_rows_append (tail : Bytes) : ∀ records : List ParsedFeedbackRecord,
    lines lf (rows records ++ tail) = records.map rowColumns ++ lines lf tail
  | [] => rfl
  | record :: rest => by
    simp [rows_cons, writeRecordToStream_eq, lines_append_sep (lf_not_mem_rowColumns record),
      lines_rows_append tail rest]

/-- Rows of safe records are read, then the text after them. -/
theorem loadRecordsFromStream_rows_append {records : List ParsedFeedbackRecord}
    (h : ∀ r ∈ records, isSafeFeedbackRecord pl r = true) (tail : Bytes) :
    loadRecordsFromStream pl strict (rows records ++ tail)
      = ((loadRecordsFromStream pl strict tail).1,
          records ++ (loadRecordsFromStream pl strict tail).2) := by
  unfold loadRecordsFromStream
  rw [lines_rows_append, loadLines_rows true _ records h]

theorem loadRecordsFromStream_rows {records : List ParsedFeedbackRecord}
    (h : ∀ r ∈ records, isSafeFeedbackRecord pl r = true) :
    loadRecordsFromStream pl strict (rows records) = (true, records) := by
  have hl := @loadRecordsFromStream_rows_append pl strict records h []
  simpa [loadRecordsFromStream, lines, linesFrom, loadLines] using hl

theorem writeRecordsToStream_safe : ∀ {records : List ParsedFeedbackRecord},
    (∀ r ∈ records, isSafeFeedbackRecord pl r = true) →
    writeRecordsToStream pl records = (true, rows records)
  | [], _ => rfl
  | record :: rest, h => by
    rw [writeRecordsToStream, if_neg (by simp [h record List.mem_cons_self]),
      writeRecordsToStream_safe (List.forall_mem_cons.mp h).2, rows_cons]

/-! ## What is read is safe -/

theorem safeRecord_eq_some {r : ParsedFeedbackRecord} (h : safeRecord pl record = some r) :
    isSafeFeedbackRecord pl r = true := by
  unfold safeRecord at h
  split at h
  · next hs => rw [← Option.some.inj h]; exact hs
  · simp at h

theorem parseLine_safe {line : Bytes} {r : ParsedFeedbackRecord} (h : parseLine pl line = some r) :
    isSafeFeedbackRecord pl r = true := by
  unfold parseLine parseFeedbackRecord at h
  split at h
  · exact safeRecord_eq_some h
  · split at h
    · exact safeRecord_eq_some h
    · simp at h

theorem loadLines_safe : ∀ (ls : List Bytes) (ok : Bool) (records : List ParsedFeedbackRecord),
    (∀ r ∈ records, isSafeFeedbackRecord pl r = true) →
    ∀ r ∈ (loadLines pl strict ok records ls).2, isSafeFeedbackRecord pl r = true
  | [], _, _, h => h
  | line :: rest, ok, records, h => by
    rw [loadLines]
    split
    · exact loadLines_safe rest ok records h
    · cases hp : parseLine pl line with
      | none =>
        dsimp only
        split
        · exact h
        · exact loadLines_safe rest false records h
      | some record =>
        refine loadLines_safe rest ok (records ++ [record]) ?_
        intro r hr
        rcases List.mem_append.mp hr with hr | hr
        · exact h r hr
        · rw [List.mem_singleton.mp hr]; exact parseLine_safe hp

/-- **Every record a stream yields is safe.** -/
theorem loadRecordsFromStream_safe (input : Bytes) :
    ∀ r ∈ (loadRecordsFromStream pl strict input).2, isSafeFeedbackRecord pl r = true :=
  loadLines_safe _ true [] (by simp)

/-! ## The round trip -/

/--
**The format round-trips, and what was imported can be exported.**

Safe records are written, and read back as the same list in both modes. Whatever an arbitrary
stream yields is safe, so writing it succeeds.
-/
theorem feedbackTsv_roundtrip (pl : Platform) :
    (∀ records : List ParsedFeedbackRecord, (∀ r ∈ records, isSafeFeedbackRecord pl r = true) →
      (writeRecordsToStream pl records).1 = true ∧
      ∀ strict : Bool,
        loadRecordsFromStream pl strict (writeRecordsToStream pl records).2 = (true, records)) ∧
    (∀ (strict : Bool) (input : Bytes),
      (∀ r ∈ (loadRecordsFromStream pl strict input).2, isSafeFeedbackRecord pl r = true) ∧
      (writeRecordsToStream pl (loadRecordsFromStream pl strict input).2).1 = true) := by
  refine ⟨fun records h => ?_, fun strict input => ?_⟩
  · rw [writeRecordsToStream_safe h]
    exact ⟨rfl, fun strict => loadRecordsFromStream_rows h⟩
  · have hsafe := @loadRecordsFromStream_safe pl strict input
    exact ⟨hsafe, by rw [writeRecordsToStream_safe hsafe]⟩

end Mozkey.Zenz
