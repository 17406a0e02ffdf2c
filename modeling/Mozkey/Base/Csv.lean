import Mozkey.Infra.Bytes

/-!
# Splitting a line of CSV

`Util::SplitCSV` of `base/util.cc`. It works on a copy of the line, with a zero behind it, and
unescapes a quoted field in place. An access that is not inside the copy or at the zero fails.

* `splitCSV_inverts` — it takes apart what was quoted and joined
-/

namespace Mozkey.Base

open Infra

def kComma : UInt8 := byte ','

def kQuote : UInt8 := byte '"'

def skipBlanks (buf : Bytes) : Nat → Nat → Option Nat
  | 0, _ => none
  | fuel + 1, str => do
    let c ← buf[str]?
    if c = byte ' ' ∨ c = byte '\t' then skipBlanks buf fuel (str + 1) else some str

def write (buf : Bytes) (i : Nat) (c : UInt8) : Option Bytes :=
  if i < buf.length then some (buf.set i c) else none

/-- The loop over a quoted field. It gives the place behind the closing quote and `fieldEnd`. -/
def unquote (eos : Nat) : Nat → Bytes → Nat → Nat → Option (Bytes × Nat × Nat)
  | 0, _, _, _ => none
  | fuel + 1, buf, str, fieldEnd =>
    if eos ≤ str then some (buf, str, fieldEnd)
    else do
      let c ← buf[str]?
      if c = kQuote then
        let next ← buf[str + 1]?
        if next ≠ kQuote then some (buf, str + 1, fieldEnd)
        else unquote eos fuel (← write buf fieldEnd next) (str + 2) (fieldEnd + 1)
      else unquote eos fuel (← write buf fieldEnd c) (str + 1) (fieldEnd + 1)

/-- `std::find` of a comma in front of `eos` -/
def findComma (buf : Bytes) (eos str : Nat) : Nat :=
  str + ((buf.take eos).drop str).findIdx (· == kComma)

/-- The buffer, where the field starts and ends, and the place behind it. -/
def readField (buf : Bytes) (eos str : Nat) : Option (Bytes × Nat × Nat × Nat) := do
  let str ← skipBlanks buf buf.length str
  let c ← buf[str]?
  if c = kQuote then
    let (buf, str', fieldEnd) ← unquote eos buf.length buf (str + 1) (str + 1)
    some (buf, str + 1, fieldEnd, findComma buf eos str')
  else some (buf, str, findComma buf eos str, findComma buf eos str)

def splitLoop (eos : Nat) : Nat → Bytes → Nat → List Bytes → Option (List Bytes)
  | 0, _, _, _ => none
  | fuel + 1, buf, str, output =>
    if eos ≤ str then some output
    else do
      let (buf, start, fieldEnd, str) ← readField buf eos str
      let last ← buf[fieldEnd]?
      let field := (buf.take fieldEnd).drop start
      splitLoop eos fuel buf (str + 1)
        (output ++ if last = kComma ∧ fieldEnd + 1 = eos then [field, []] else [field])

def splitCSV (input : Bytes) : Option (List Bytes) :=
  splitLoop input.length (input.length + 1) (input ++ [0]) 0 []

/-! ## Writing -/

def quoted (field : Bytes) : Bytes :=
  field.flatMap fun c => if c = kQuote then [kQuote, kQuote] else [c]

/-- A field in quotes, with its quotes doubled. -/
def quoteField (field : Bytes) : Bytes := kQuote :: (quoted field ++ [kQuote])

def joinFields : List Bytes → Bytes
  | [] => []
  | [field] => field
  | field :: next :: fields => field ++ kComma :: joinFields (next :: fields)

/-- A field that needs no quotes. -/
structure IsPlain (field : Bytes) : Prop where
  comma : kComma ∉ field
  quote : kQuote ∉ field
  blank : ∀ c ∈ field.head?, c ≠ byte ' ' ∧ c ≠ byte '\t'

/-! ## The loop ends -/

/-- The zero stands behind the line. -/
structure Ended (eos : Nat) (buf : Bytes) : Prop where
  length : buf.length = eos + 1
  zero : buf[eos]? = some 0

variable {eos : Nat} {buf : Bytes}

theorem Ended.write {i : Nat} (h : Ended eos buf) (hi : i < eos) (c : UInt8) :
    ∃ buf', Base.write buf i c = some buf' ∧ Ended eos buf' := by
  refine ⟨buf.set i c, if_pos (by rw [h.length]; omega), by rw [List.length_set, h.length], ?_⟩
  rw [List.getElem?_set_ne (by omega), h.zero]

theorem Ended.get {i : Nat} (h : Ended eos buf) (hi : i ≤ eos) :
    ∃ c, buf[i]? = some c :=
  ⟨_, List.getElem?_eq_getElem (by rw [h.length]; omega)⟩

theorem skipBlanks_ends (h : Ended eos buf) :
    ∀ {fuel str : Nat}, str ≤ eos → eos < str + fuel →
      ∃ str', skipBlanks buf fuel str = some str' ∧ str ≤ str' ∧ str' ≤ eos
  | 0, _, hstr, hfuel => by omega
  | fuel + 1, str, hstr, hfuel => by
    obtain ⟨c, hc⟩ := h.get hstr
    rw [skipBlanks, hc, Option.bind_eq_bind, Option.bind_some]
    split
    · next hblank =>
      have hlt : str ≠ eos := by
        rintro rfl
        rw [h.zero, Option.some.injEq] at hc
        rw [← hc] at hblank
        exact absurd hblank (by decide)
      obtain ⟨str', hskip, hle, hend⟩ := skipBlanks_ends h (show str + 1 ≤ eos by omega)
        (show eos < str + 1 + fuel by omega)
      exact ⟨str', hskip, by omega, hend⟩
    · exact ⟨str, rfl, Nat.le_refl _, hstr⟩

theorem unquote_ends : ∀ {fuel : Nat} {buf : Bytes} {str fieldEnd : Nat},
    Ended eos buf → fieldEnd ≤ str → str ≤ eos → eos < str + fuel →
      ∃ buf' str' fieldEnd', unquote eos fuel buf str fieldEnd = some (buf', str', fieldEnd') ∧
        Ended eos buf' ∧ str ≤ str' ∧ str' ≤ eos ∧ fieldEnd' ≤ eos
  | 0, _, _, _, _, _, hstr, hfuel => by omega
  | fuel + 1, buf, str, fieldEnd, h, hle, hstr, hfuel => by
    rw [unquote]
    split
    · exact ⟨buf, str, fieldEnd, rfl, h, Nat.le_refl _, hstr, by omega⟩
    · obtain ⟨c, hc⟩ := h.get hstr
      rw [hc, Option.bind_eq_bind, Option.bind_some]
      split
      · obtain ⟨next, hnext⟩ := h.get (show str + 1 ≤ eos by omega)
        rw [hnext, Option.bind_eq_bind, Option.bind_some]
        split
        · exact ⟨buf, str + 1, fieldEnd, rfl, h, by omega, by omega, by omega⟩
        · next hquote =>
          have hlt : str + 1 ≠ eos := by
            rintro rfl
            rw [h.zero, Option.some.injEq] at hnext
            rw [← hnext] at hquote
            exact hquote (by decide)
          obtain ⟨buf', hwrite, h'⟩ := h.write (show fieldEnd < eos by omega) next
          rw [hwrite, Option.bind_some]
          obtain ⟨buf'', str', fieldEnd', hrest, hended, hle', hend⟩ :=
            unquote_ends h' (show fieldEnd + 1 ≤ str + 2 by omega) (show str + 2 ≤ eos by omega)
              (show eos < str + 2 + fuel by omega)
          exact ⟨buf'', str', fieldEnd', hrest, hended, by omega, hend⟩
      · obtain ⟨buf', hwrite, h'⟩ := h.write (show fieldEnd < eos by omega) c
        rw [hwrite, Option.bind_eq_bind, Option.bind_some]
        obtain ⟨buf'', str', fieldEnd', hrest, hended, hle', hend⟩ :=
          unquote_ends h' (show fieldEnd + 1 ≤ str + 1 by omega) (show str + 1 ≤ eos by omega)
            (show eos < str + 1 + fuel by omega)
        exact ⟨buf'', str', fieldEnd', hrest, hended, by omega, hend⟩

theorem findComma_range {str : Nat} (h : Ended eos buf) (hstr : str ≤ eos) :
    str ≤ findComma buf eos str ∧ findComma buf eos str ≤ eos := by
  have hle := @List.findIdx_le_length _ (· == kComma) ((buf.take eos).drop str)
  rw [List.length_drop, List.length_take, h.length] at hle
  unfold findComma
  omega

/-- A field is read inside the buffer, and something is read. -/
theorem readField_ends {str : Nat} (h : Ended eos buf) (hstr : str < eos) :
    ∃ buf' start fieldEnd str', readField buf eos str = some (buf', start, fieldEnd, str') ∧
      Ended eos buf' ∧ fieldEnd ≤ eos ∧ str ≤ str' := by
  obtain ⟨str₁, hskip, hle, hend⟩ := skipBlanks_ends h (Nat.le_of_lt hstr)
    (show eos < str + buf.length by rw [h.length]; omega)
  obtain ⟨c, hc⟩ := h.get hend
  rw [readField, hskip, Option.bind_eq_bind, Option.bind_some, hc, Option.bind_eq_bind,
    Option.bind_some]
  split
  · next hquote =>
    have hlt : str₁ ≠ eos := by
      rintro rfl
      rw [h.zero, Option.some.injEq] at hc
      rw [← hc] at hquote
      exact absurd hquote (by decide)
    obtain ⟨buf', str₂, fieldEnd, hunquote, h', hle', hend', hfield⟩ :=
      @unquote_ends eos buf.length buf (str₁ + 1) (str₁ + 1) h (Nat.le_refl _) (by omega)
        (by rw [h.length]; omega)
    have hcomma := findComma_range h' hend'
    rw [hunquote, Option.bind_eq_bind, Option.bind_some]
    exact ⟨buf', _, fieldEnd, _, rfl, h', hfield, by omega⟩
  · have hcomma := findComma_range h hend
    exact ⟨buf, _, _, _, rfl, h, hcomma.2, by omega⟩

theorem splitLoop_ends : ∀ {fuel : Nat} {buf : Bytes} {str : Nat}
    {output : List Bytes}, Ended eos buf → 0 < fuel → eos < str + fuel →
      ∃ fields, splitLoop eos fuel buf str output = some fields
  | fuel + 1, buf, str, output, h, hpos, hfuel => by
    rw [splitLoop]
    split
    · exact ⟨output, rfl⟩
    · obtain ⟨buf', start, fieldEnd, str', hread, h', hend, hle⟩ :=
        readField_ends h (show str < eos by omega)
      obtain ⟨last, hlast⟩ := h'.get hend
      rw [hread, Option.bind_eq_bind, Option.bind_some]
      dsimp only
      rw [hlast, Option.bind_eq_bind, Option.bind_some]
      exact splitLoop_ends h' (by omega) (by omega)

/-! ## Fields -/

/-- A byte is moved to the front of a gap. -/
theorem set_front (done gap rest : Bytes) (c : UInt8) :
    (done ++ gap ++ c :: rest).set done.length c =
      done ++ [c] ++ (gap ++ [c]).tail ++ rest := by
  cases gap <;> simp

theorem get_behind (front rest : Bytes) (c : UInt8) :
    (front ++ c :: rest)[front.length]? = some c := by simp

theorem get_second (front rest : Bytes) (c d : UInt8) :
    (front ++ c :: d :: rest)[front.length + 1]? = some d := by simp

/-- A byte that is not the end of a quoted field goes to the front of the gap. -/
theorem write_front (done gap rest : Bytes) (c : UInt8) :
    write (done ++ gap ++ c :: rest) done.length c =
      some ((done ++ [c]) ++ (gap ++ [c]).tail ++ rest) := by
  rw [write, if_pos (by simp only [List.length_append, List.length_cons]; omega), set_front]

theorem quoted_cons (c : UInt8) (field : Bytes) :
    quoted (c :: field) = quoted [c] ++ quoted field := by
  simp [quoted]

theorem length_le_quoted (field : Bytes) : field.length ≤ (quoted field).length := by
  induction field with
  | nil => exact Nat.le_refl _
  | cons c field ih =>
    have hone : 0 < (quoted [c]).length := by
      rw [quoted, List.flatMap_singleton]
      split <;> simp
    rw [quoted_cons, List.length_append, List.length_cons]
    omega

/-- One byte of a quoted field. -/
theorem unquote_step (fuel : Nat) (done gap rest : Bytes) (c : UInt8)
    (hlt : (done ++ gap).length < eos) : ∃ gap' : Bytes,
      gap'.length + 1 = gap.length + (quoted [c]).length ∧
        unquote eos (fuel + 1) (done ++ gap ++ (quoted [c] ++ rest)) (done ++ gap).length
            done.length =
          unquote eos fuel (done ++ [c] ++ gap' ++ rest) (done ++ [c] ++ gap').length
            (done ++ [c]).length := by
  rw [quoted, List.flatMap_singleton, unquote, if_neg (Nat.not_le.mpr hlt)]
  split
  · next hquote =>
    subst hquote
    refine ⟨(gap ++ [kQuote]).tail ++ [kQuote], by simp, ?_⟩
    rw [List.cons_append, List.singleton_append, get_behind, Option.bind_eq_bind, Option.bind_some,
      if_pos rfl, get_second, Option.bind_eq_bind, Option.bind_some, if_neg (not_not.mpr rfl),
      write_front, Option.bind_some]
    simp [Nat.add_assoc]
  · next hquote =>
    refine ⟨(gap ++ [c]).tail, by simp, ?_⟩
    rw [List.singleton_append, get_behind, Option.bind_eq_bind, Option.bind_some, if_neg hquote,
      write_front, Option.bind_eq_bind, Option.bind_some]
    simp [Nat.add_assoc]

/-- A quoted field is unescaped into its place. -/
theorem unquote_quoted {more : Bytes} (hmore : more.head? ≠ some kQuote) :
    ∀ (field : Bytes) {done gap : Bytes} {fuel : Nat}, field.length < fuel →
    done.length + gap.length + (quoted field).length + 1 + more.length = eos →
    ∃ gap' : Bytes, gap'.length + field.length = gap.length + (quoted field).length ∧
      unquote eos fuel (done ++ gap ++ (quoted field ++ kQuote :: (more ++ [0])))
          (done ++ gap).length done.length =
        some (done ++ field ++ gap' ++ kQuote :: (more ++ [0]),
          (done ++ field ++ gap').length + 1, (done ++ field).length)
  | _, _, _, 0, hfuel, _ => absurd hfuel (Nat.not_lt_zero _)
  | [], done, gap, fuel + 1, hfuel, heos => by
    obtain ⟨next, rest, hnext, hne⟩ : ∃ next rest, more ++ [0] = next :: rest ∧ next ≠ kQuote := by
      cases more with
      | nil => exact ⟨0, [], rfl, by decide⟩
      | cons c more => exact ⟨c, more ++ [0], rfl, fun h => hmore (by rw [h]; rfl)⟩
    have hlt : ¬eos ≤ (done ++ gap).length := by
      simp
      omega
    refine ⟨gap, rfl, ?_⟩
    rw [quoted, List.flatMap_nil, List.nil_append, List.append_nil, hnext, unquote, if_neg hlt,
      get_behind, Option.bind_eq_bind, Option.bind_some, if_pos rfl, get_second,
      Option.bind_eq_bind, Option.bind_some, if_pos hne]
  | c :: field, done, gap, fuel + 1, hfuel, heos => by
    rw [quoted_cons, List.length_append] at heos ⊢
    obtain ⟨gap₁, hgap, hstep⟩ := @unquote_step eos fuel done gap
      (quoted field ++ kQuote :: (more ++ [0])) c (by rw [List.length_append]; omega)
    obtain ⟨gap', hlen, hrest⟩ := @unquote_quoted more hmore field (done ++ [c]) gap₁ fuel
      (Nat.lt_of_succ_lt_succ hfuel) (by rw [List.length_append, List.length_singleton]; omega)
    refine ⟨gap', by rw [List.length_cons]; omega, ?_⟩
    rw [List.append_assoc (quoted [c]), hstep, hrest]
    simp

theorem skipBlanks_stop {front rest : Bytes} {c : UInt8}
    (hblank : ¬(c = byte ' ' ∨ c = byte '\t')) :
    skipBlanks (front ++ c :: rest) (front ++ c :: rest).length front.length =
      some front.length := by
  obtain ⟨n, hn⟩ : ∃ n, (front ++ c :: rest).length = n + 1 :=
    ⟨front.length + rest.length, by simp [Nat.add_assoc]⟩
  simp [hn, skipBlanks, get_behind, hblank]

/-- Behind a field the line ends or a comma follows. -/
def Separated (more : Bytes) : Prop := more = [] ∨ ∃ rest, more = kComma :: rest

theorem findComma_eq {front field more : Bytes} (hcomma : kComma ∉ field) (h : Separated more)
    (heos : (front ++ field ++ more).length = eos) :
    findComma (front ++ field ++ (more ++ [0])) eos front.length = (front ++ field).length := by
  have hcut : (front ++ field ++ (more ++ [0])).take eos = front ++ (field ++ more) := by
    simp [← heos, ← List.append_assoc]
  have hnone : ∀ c ∈ field, (c == kComma) = false := by
    intro c hc
    rw [beq_eq_false_iff_ne]
    rintro rfl
    exact hcomma hc
  have hidx : (field ++ more).findIdx (· == kComma) = field.length := by
    rw [List.findIdx_append, List.findIdx_eq_length.mpr hnone, if_neg (Nat.lt_irrefl _)]
    rcases h with rfl | ⟨rest, rfl⟩ <;> simp [List.findIdx_cons]
  rw [findComma, hcut, List.drop_left, hidx, List.length_append]

/-- A field is read that was written with `write`. The next one is read with it only if nothing is
written for it. -/
def ReadsField (eos : Nat) (write : Bytes → Bytes) (done field more : Bytes) : Prop :=
  ∃ (front : Bytes) (start fieldEnd : Nat) (last : UInt8),
    readField (done ++ (write field ++ (more ++ [0]))) eos done.length =
        some (front ++ (more ++ [0]), start, fieldEnd, front.length) ∧
      front.length = (done ++ write field).length ∧
      ((front ++ (more ++ [0])).take fieldEnd).drop start = field ∧
      (front ++ (more ++ [0]))[fieldEnd]? = some last ∧
      (last = kComma ∧ fieldEnd + 1 = eos ↔ more = [kComma] ∧ write [] = [])

theorem readsField_quoted {done field more : Bytes} (h : Separated more)
    (heos : (done ++ (quoteField field ++ more)).length = eos) :
    ReadsField eos quoteField done field more := by
  have hmore : more.head? ≠ some kQuote := by
    rcases h with rfl | ⟨rest, rfl⟩
    · simp
    · exact fun heq => absurd (Option.some.inj heq) (by decide)
  have hfield := length_le_quoted field
  obtain ⟨gap, hlen, hunquote⟩ := @unquote_quoted eos more hmore field (done ++ [kQuote]) []
    (done ++ (quoteField field ++ (more ++ [0]))).length (by simp [quoteField]; omega)
    (by rw [← heos]; simp [quoteField]; omega)
  rw [List.length_nil, Nat.zero_add] at hlen
  have hbuf : done ++ (quoteField field ++ (more ++ [0])) =
      done ++ kQuote :: (quoted field ++ kQuote :: (more ++ [0])) := by simp [quoteField]
  have hfront : done ++ [kQuote] ++ [] ++ (quoted field ++ kQuote :: (more ++ [0])) =
      done ++ (quoteField field ++ (more ++ [0])) := by simp [quoteField]
  have hgap : done ++ [kQuote] ++ field ++ gap ++ kQuote :: (more ++ [0]) =
      done ++ [kQuote] ++ field ++ gap ++ [kQuote] ++ (more ++ [0]) := by simp
  have hend : (done ++ [kQuote] ++ field ++ gap).length + 1 =
      (done ++ [kQuote] ++ field ++ gap ++ [kQuote]).length := by simp [Nat.add_assoc]
  have hone : (done ++ [kQuote]).length = done.length + 1 := by simp
  have hcomma := @findComma_eq eos (done ++ [kQuote] ++ field ++ gap ++ [kQuote]) [] more
    List.not_mem_nil h (by rw [← heos]; simp [quoteField]; omega)
  rw [List.append_nil] at hcomma
  rw [hfront, List.append_nil, hone, hend, hgap] at hunquote
  obtain ⟨last, hlast, hcond⟩ : ∃ last, (done ++ [kQuote] ++ field ++ (gap ++
      kQuote :: (more ++ [0])))[(done ++ [kQuote] ++ field).length]? = some last ∧
        ¬(last = kComma ∧ (done ++ [kQuote] ++ field).length + 1 = eos) := by
    cases gap with
    | nil => exact ⟨kQuote, get_behind _ _ _, fun hcond => absurd hcond.1 (by decide)⟩
    | cons g gap =>
      refine ⟨g, get_behind _ _ _, fun hcond => ?_⟩
      have hlt := hcond.2
      rw [← heos] at hlt
      simp [quoteField] at hlt hlen
      omega
  refine ⟨done ++ [kQuote] ++ field ++ gap ++ [kQuote], done.length + 1,
    (done ++ [kQuote] ++ field).length, last, ?_, ?_, ?_, ?_,
    iff_of_false hcond fun hnil => absurd hnil.2 (List.cons_ne_nil _ _)⟩
  · rw [hbuf, readField, skipBlanks_stop (by decide), Option.bind_eq_bind, Option.bind_some,
      get_behind, Option.bind_eq_bind, Option.bind_some, if_pos rfl, ← hbuf, hunquote,
      Option.bind_eq_bind, Option.bind_some]
    dsimp only
    rw [hcomma]
  · simp [quoteField]
    omega
  · rw [← hgap, List.append_assoc _ gap, List.take_left]
    simp
  · rw [← hgap, List.append_assoc _ gap, hlast]

theorem readsField_plain {done field more : Bytes} (hplain : IsPlain field) (h : Separated more)
    (heos : (done ++ (field ++ more)).length = eos) :
    ReadsField eos id done field more := by
  obtain ⟨c, rest, hc, hblank, hquote⟩ : ∃ c rest, field ++ (more ++ [0]) = c :: rest ∧
      ¬(c = byte ' ' ∨ c = byte '\t') ∧ c ≠ kQuote := by
    cases field with
    | nil => rcases h with rfl | ⟨rest, rfl⟩ <;> exact ⟨_, _, rfl, by decide, by decide⟩
    | cons c field =>
      refine ⟨c, _, rfl, not_or.mpr (hplain.blank c rfl), ?_⟩
      rintro rfl
      exact hplain.quote List.mem_cons_self
  have hcomma := @findComma_eq eos done field more hplain.comma h
    (by rw [List.append_assoc]; exact heos)
  have hbuf : done ++ field ++ (more ++ [0]) = done ++ c :: rest := by rw [List.append_assoc, hc]
  obtain ⟨last, behind, hlast, hcond⟩ : ∃ last behind, more ++ [0] = last :: behind ∧
      (last = kComma ∧ (done ++ field).length + 1 = eos ↔ more = [kComma] ∧
        id [] = ([] : Bytes)) := by
    rw [← heos]
    rcases h with rfl | ⟨rest, rfl⟩
    · exact ⟨0, [], rfl, iff_of_false (fun h => absurd h.1 (by decide)) (by simp)⟩
    · refine ⟨kComma, rest ++ [0], rfl, ?_⟩
      simp [Nat.add_assoc]
  refine ⟨done ++ field, done.length, (done ++ field).length, last, ?_, rfl, ?_, ?_, hcond⟩
  · rw [id, ← List.append_assoc, hbuf, readField, skipBlanks_stop hblank, Option.bind_eq_bind,
      Option.bind_some, get_behind, Option.bind_eq_bind, Option.bind_some, if_neg hquote, ← hbuf,
      hcomma]
  · rw [List.take_left, List.drop_left]
  · rw [hlast, get_behind]

/-! ## Lines -/

theorem splitLoop_done {fuel str : Nat} (buf : Bytes) (output : List Bytes) (hstr : eos ≤ str)
    (hfuel : 0 < fuel) : splitLoop eos fuel buf str output = some output := by
  obtain ⟨n, rfl⟩ : ∃ n, fuel = n + 1 := ⟨fuel - 1, by omega⟩
  rw [splitLoop, if_pos hstr]

/-- Fields that are written behind one another are split. -/
theorem splitLoop_join {write : Bytes → Bytes} (hnil : ∀ field, write field = [] → field = []) :
    ∀ (fields : List Bytes) {done : Bytes} {output : List Bytes} {fuel : Nat},
    (∀ field ∈ fields, ∀ {done more : Bytes}, Separated more →
      (done ++ (write field ++ more)).length = eos → ReadsField eos write done field more) →
    joinFields (fields.map write) ≠ [] → (joinFields (fields.map write)).length < fuel →
    (done ++ joinFields (fields.map write)).length = eos →
    splitLoop eos fuel (done ++ (joinFields (fields.map write) ++ [0])) done.length output =
      some (output ++ fields)
  | [], _, _, _, _, hne, _, _ => absurd rfl hne
  | field :: fields, done, output, fuel + 1, hread, hne, hfuel, heos => by
    obtain ⟨more, hmore, hjoin⟩ : ∃ more, Separated more ∧
        joinFields ((field :: fields).map write) = write field ++ more := by
      cases fields with
      | nil => exact ⟨[], Or.inl rfl, (List.append_nil _).symm⟩
      | cons next fields => exact ⟨_, Or.inr ⟨_, rfl⟩, rfl⟩
    rw [hjoin] at heos hne hfuel ⊢
    obtain ⟨front, start, fieldEnd, last, hfield, hfront, hcut, hlast, hcond⟩ :=
      hread field List.mem_cons_self hmore heos
    have hlen := List.length_pos_of_ne_nil hne
    have hpos : 0 < fuel := by omega
    have hlt : ¬eos ≤ done.length := by
      rw [← heos, List.length_append]
      omega
    rw [List.append_assoc (write field), splitLoop, if_neg hlt, hfield, Option.bind_eq_bind,
      Option.bind_some]
    dsimp only
    rw [hlast, Option.bind_eq_bind, Option.bind_some, hcut, if_congr hcond rfl rfl]
    cases fields with
    | nil =>
      obtain rfl : more = [] := List.append_cancel_left (hjoin.symm.trans (List.append_nil _).symm)
      rw [List.append_nil] at heos
      rw [if_neg (by simp), splitLoop_done _ _ (by omega) hpos]
    | cons next fields =>
      obtain rfl : more = kComma :: joinFields ((next :: fields).map write) :=
        List.append_cancel_left (hjoin.symm.trans rfl)
      have hstr : front.length + 1 = (front ++ [kComma]).length := by simp
      split
      · next hempty =>
        -- nothing is written behind the last comma
        have hrest := (List.cons.inj hempty.1).2
        obtain ⟨hnext, rfl⟩ : write next = [] ∧ fields = [] := by
          cases fields with
          | nil => exact ⟨hrest, rfl⟩
          | cons g gs => exact absurd hrest (by simp [joinFields])
        rw [hnil next hnext, splitLoop_done _ _ ?_ hpos]
        rw [← heos, hfront, hrest]
        simp [Nat.add_assoc]
      · next hmany =>
        have hne' : joinFields ((next :: fields).map write) ≠ [] := by
          intro hrest
          refine hmany ⟨by rw [hrest], ?_⟩
          cases fields with
          | nil => rwa [List.map_singleton, joinFields, hnil next hrest] at hrest
          | cons g gs => exact absurd hrest (by simp [joinFields])
        have hsplit : front ++ (kComma :: joinFields ((next :: fields).map write) ++ [0]) =
            (front ++ [kComma]) ++ (joinFields ((next :: fields).map write) ++ [0]) := by simp
        rw [hsplit, hstr, splitLoop_join hnil (next :: fields)
          (List.forall_mem_cons.mp hread).2 hne' ?_ ?_]
        · simp
        · simp at hfuel ⊢
          omega
        · rw [← heos, List.length_append, ← hstr, hfront]
          simp
          omega

/-- **A line is taken apart as it was put together, and no line leads out of the buffer.** -/
theorem splitCSV_inverts :
    (∀ fields : List Bytes, fields ≠ [] →
      splitCSV (joinFields (fields.map quoteField)) = some fields) ∧
    (∀ fields : List Bytes, (∀ field ∈ fields, IsPlain field) → joinFields fields ≠ [] →
      splitCSV (joinFields fields) = some fields) ∧
    ∀ input, ∃ fields, splitCSV input = some fields := by
  refine ⟨fun fields hne => ?_, fun fields hplain hne => ?_, fun input => ?_⟩
  · refine @splitLoop_join _ quoteField (fun f hf => absurd hf (List.cons_ne_nil _ _)) fields [] []
      _ (fun f _ => readsField_quoted) ?_ (Nat.lt_succ_self _) rfl
    rcases fields with _ | ⟨f, _ | ⟨g, gs⟩⟩
    · exact absurd rfl hne
    · exact List.cons_ne_nil _ _
    · exact List.cons_ne_nil _ _
  · have hself : joinFields (fields.map id) = joinFields fields := by rw [List.map_id]
    rw [← hself] at hne ⊢
    exact @splitLoop_join _ id (fun f hf => hf) fields [] [] _
      (fun f hf => readsField_plain (hplain f hf)) hne (Nat.lt_succ_self _) rfl
  · exact splitLoop_ends ⟨by simp, by simp⟩ (Nat.succ_pos _) (by omega)

theorem splitCSV_inverts_quotes :
    splitCSV (joinFields ([utf8 " a,\"b", []].map quoteField)) = some [utf8 " a,\"b", []] ∧
      splitCSV (joinFields [utf8 "a", []]) = some [utf8 "a", []] := by
  obtain ⟨hquoted, hplain, -⟩ := splitCSV_inverts
  refine ⟨hquoted _ (by decide +kernel),
    hplain _ (List.forall_mem_cons.mpr ⟨?_, ?_⟩) (by decide +kernel)⟩
  · exact ⟨by decide +kernel, by decide +kernel, by decide +kernel⟩
  · exact List.forall_mem_singleton.mpr ⟨by decide +kernel, by decide +kernel, by decide +kernel⟩

end Mozkey.Base
