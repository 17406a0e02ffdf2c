import Mathlib.Data.List.Basic

/-!
# Searching a text

`find`, the positions an occurrence loop visits, and replacing. All three read from the left and
go on behind the occurrence they just found, so occurrences do not overlap.

The needle is not empty where it is searched for repeatedly.
-/

namespace Infra

variable {α : Type} [DecidableEq α]

/-- The first position of `needle`, when the list begins at position `pos`. -/
def findFrom (needle : List α) : Nat → List α → Option Nat
  | pos, [] => if needle.isEmpty then some pos else none
  | pos, c :: rest =>
    if needle.isPrefixOf (c :: rest) then some pos else findFrom needle (pos + 1) rest

/-- `text.find(needle, start)` -/
def find (needle text : List α) (start : Nat) : Option Nat :=
  if text.length < start then none else findFrom needle start (text.drop start)

def contains (needle text : List α) : Bool := (find needle text 0).isSome

/-- The positions that `while ((pos = text.find(needle, pos)) != npos) { ...; pos +=
needle.size(); }` visits. `skip` elements are still inside the last occurrence. -/
def occurrencesFrom (needle : List α) : Nat → Nat → List α → List Nat
  | _, _, [] => []
  | skip + 1, pos, _ :: rest => occurrencesFrom needle skip (pos + 1) rest
  | 0, pos, c :: rest =>
    if needle.isPrefixOf (c :: rest) then
      pos :: occurrencesFrom needle (needle.length - 1) (pos + 1) rest
    else occurrencesFrom needle 0 (pos + 1) rest

/-- No occurrence is looked for when the needle is empty. -/
def occurrences (needle text : List α) : List Nat :=
  if needle.isEmpty then [] else occurrencesFrom needle 0 0 text

/-- The text with these occurrences replaced. A replacement is not searched again. -/
def replaceFrom (needle new : List α) : Nat → List α → List α
  | _, [] => []
  | skip + 1, _ :: rest => replaceFrom needle new skip rest
  | 0, c :: rest =>
    if needle.isPrefixOf (c :: rest) then
      new ++ replaceFrom needle new (needle.length - 1) rest
    else c :: replaceFrom needle new 0 rest

def replaceAll (needle new text : List α) : List α :=
  if needle.isEmpty then text else replaceFrom needle new 0 text

def countOccurrences (text needle : List α) : Nat := (occurrences needle text).length

end Infra

/-!
## Splitting at a separator

Two ways of cutting a list at a separator, both reading from the left with the piece that is
being collected as an accumulator.

* `fields` — every separator starts a new piece, so there is always a last one
* `lines` — a piece is handed out by its separator, or by the end of the input when something
  was collected (`std::getline`)

What the two share is that a piece without the separator goes into the accumulator as a whole
(`fieldsFrom_append`, `linesFrom_append`).
-/

namespace Infra

variable {α : Type} [DecidableEq α]

def fieldsFrom (sep : α) : List α → List α → List (List α)
  | current, [] => [current]
  | current, c :: rest =>
    if c = sep then current :: fieldsFrom sep [] rest
    else fieldsFrom sep (current ++ [c]) rest

def fields (sep : α) (l : List α) : List (List α) := fieldsFrom sep [] l

def linesFrom (sep : α) : List α → List α → List (List α)
  | current, [] => if current.isEmpty then [] else [current]
  | current, c :: rest =>
    if c = sep then current :: linesFrom sep [] rest
    else linesFrom sep (current ++ [c]) rest

def lines (sep : α) (l : List α) : List (List α) := linesFrom sep [] l

/-! ## `fields` -/

variable {sep : α}

theorem fieldsFrom_append : ∀ (p : List α), sep ∉ p → ∀ (current rest : List α),
    fieldsFrom sep current (p ++ rest) = fieldsFrom sep (current ++ p) rest
  | [], _, current, rest => by simp
  | c :: p, h, current, rest => by
    have hc : ¬c = sep := fun he => h (by simp [he])
    simp [fieldsFrom, hc, fieldsFrom_append p (fun hm => h (List.mem_cons_of_mem _ hm))]

/-- A piece, its separator, and the pieces of what follows. -/
theorem fields_append_sep {p : List α} (h : sep ∉ p) (rest : List α) :
    fields sep (p ++ sep :: rest) = p :: fields sep rest := by
  unfold fields
  simp [fieldsFrom_append p h, fieldsFrom]

theorem fields_of_not_mem {p : List α} (h : sep ∉ p) : fields sep p = [p] := by
  have hp := fieldsFrom_append p h [] []
  simpa [fields, fieldsFrom] using hp

/-! ## `lines` -/

theorem linesFrom_append : ∀ (p : List α), sep ∉ p → ∀ (current rest : List α),
    linesFrom sep current (p ++ rest) = linesFrom sep (current ++ p) rest
  | [], _, current, rest => by simp
  | c :: p, h, current, rest => by
    have hc : ¬c = sep := fun he => h (by simp [he])
    simp [linesFrom, hc, linesFrom_append p (fun hm => h (List.mem_cons_of_mem _ hm))]

/-- A complete line, then the lines of what follows. -/
theorem lines_append_sep {p : List α} (h : sep ∉ p) (rest : List α) :
    lines sep (p ++ sep :: rest) = p :: lines sep rest := by
  unfold lines
  simp [linesFrom_append p h, linesFrom]

/-- A text of complete lines: it is empty or ends with the separator. -/
def Terminated (sep : α) (l : List α) : Prop := l = [] ∨ ∃ m, l = m ++ [sep]

omit [DecidableEq α] in
theorem Terminated.append {a b : List α} (ha : Terminated sep a) (hb : Terminated sep b) :
    Terminated sep (a ++ b) := by
  rcases hb with rfl | ⟨m, rfl⟩
  · simpa using ha
  · exact Or.inr ⟨a ++ m, by simp⟩

theorem linesFrom_append_sep (sep : α) : ∀ (current m rest : List α),
    linesFrom sep current (m ++ sep :: rest)
      = linesFrom sep current (m ++ [sep]) ++ linesFrom sep [] rest
  | current, [], rest => by simp [linesFrom]
  | current, c :: m, rest => by
    rw [List.cons_append, List.cons_append, linesFrom, linesFrom]
    split
    · simp [linesFrom_append_sep sep [] m rest]
    · exact linesFrom_append_sep sep _ m rest

/-- **After complete lines the next text is read on its own.** -/
theorem lines_append {a : List α} (ha : Terminated sep a) (b : List α) :
    lines sep (a ++ b) = lines sep a ++ lines sep b := by
  rcases ha with rfl | ⟨m, rfl⟩
  · rfl
  · unfold lines
    simpa using linesFrom_append_sep sep [] m b

end Infra
