import Mozkey.Infra.Walk

/-!
# Texts between marks

`next` says which mark begins a list, and how long it is. `cut` takes a list apart at its marks:
what is in front of the first one, and every mark with the text behind it. `frame` is the way
back.

A text is `Plain` when no mark begins in it, whatever follows. Plain texts are recovered from
their frame (`cut_frame_append`). Where a text is not plain its marks stay visible among the marks
of the whole (`marks_append`), so a frame can be checked by its marks.
-/

namespace Infra.Framing

variable {α μ : Type}

def cutFrom (next : List α → Option (μ × Nat)) : Nat → List α → List α × List (μ × List α)
  | _, [] => ([], [])
  | skip + 1, _ :: rest => cutFrom next skip rest
  | 0, c :: rest =>
    match next (c :: rest) with
    | none => (c :: (cutFrom next 0 rest).1, (cutFrom next 0 rest).2)
    | some (m, len) =>
      ([], (m, (cutFrom next (len - 1) rest).1) :: (cutFrom next (len - 1) rest).2)

/-- What is in front of the first mark, and each mark with the text behind it. -/
def cut (next : List α → Option (μ × Nat)) (l : List α) : List α × List (μ × List α) :=
  cutFrom next 0 l

/-- The marks, from left to right. -/
def marks (next : List α → Option (μ × Nat)) (l : List α) : List μ := (cut next l).2.map (·.1)

/-- The text behind the first mark `m`, empty when there is none. -/
def pieceOf [BEq μ] (next : List α → Option (μ × Nat)) (m : μ) (l : List α) : List α :=
  ((cut next l).2.lookup m).getD []

/-- Every text behind its mark. -/
def frame (code : μ → List α) (pieces : List (μ × List α)) : List α :=
  pieces.flatMap fun p => code p.1 ++ p.2

/-- No mark begins in the text. -/
def Plain (next : List α → Option (μ × Nat)) (x : List α) : Prop :=
  ∀ s, s <:+ x → s ≠ [] → ∀ rest, next (s ++ rest) = none

/-- No mark begins in `x` and ends in `y`. -/
def Apart (next : List α → Option (μ × Nat)) (x y : List α) : Prop :=
  ∀ s, s <:+ x → s ≠ [] → next (s ++ y) = next s

variable {next : List α → Option (μ × Nat)}

/-! ## Cutting -/

theorem cutFrom_eq : ∀ (skip : Nat) (l : List α), cutFrom next skip l = cut next (l.drop skip)
  | 0, _ => rfl
  | _ + 1, [] => rfl
  | skip + 1, _ :: rest => cutFrom_eq skip rest

@[simp] theorem cut_nil : cut next [] = ([], []) := rfl

theorem cut_letter {c : α} {rest : List α} (h : next (c :: rest) = none) :
    cut next (c :: rest) = (c :: (cut next rest).1, (cut next rest).2) := by
  rw [cut, cutFrom, h]
  rfl

theorem cut_mark {w : List α} {m : μ} (hw : w ≠ []) (rest : List α)
    (h : next (w ++ rest) = some (m, w.length)) :
    cut next (w ++ rest) = ([], (m, (cut next rest).1) :: (cut next rest).2) := by
  cases w with
  | nil => exact absurd rfl hw
  | cons c w =>
    rw [List.cons_append] at h ⊢
    rw [cut, cutFrom, h]
    simp [cutFrom_eq]

/-! ## Plain texts -/

theorem plain_nil : Plain next [] := by
  intro s hs hne
  exact absurd (List.suffix_nil.mp hs) hne

theorem Plain.tail {c : α} {x : List α} (h : Plain next (c :: x)) : Plain next x :=
  fun s hs hne => h s (hs.trans (List.suffix_cons c x)) hne

theorem Plain.append {x y : List α} (hx : Plain next x) (hy : Plain next y) :
    Plain next (x ++ y) := by
  intro s hs hne rest
  obtain ⟨t, ht⟩ := hs
  rcases List.append_eq_append_iff.mp ht with ⟨x', rfl, rfl⟩ | ⟨y', rfl, rfl⟩
  · by_cases hnil : x' = []
    · subst hnil
      exact hy _ List.suffix_rfl hne rest
    · simpa using hx x' (List.suffix_append t x') hnil (y ++ rest)
  · exact hy s (List.suffix_append y' s) hne rest

theorem plain_flatten : ∀ {xs : List (List α)}, (∀ x ∈ xs, Plain next x) → Plain next xs.flatten
  | [], _ => plain_nil
  | x :: xs, h => by
    simpa using (h x List.mem_cons_self).append (plain_flatten (List.forall_mem_cons.mp h).2)

/-- A plain text goes into the piece it stands in. -/
theorem cut_plain : ∀ {x : List α}, Plain next x → ∀ rest : List α,
    cut next (x ++ rest) = (x ++ (cut next rest).1, (cut next rest).2)
  | [], _, _ => rfl
  | c :: x, h, rest => by
    have hc :
      next (c :: (x ++ rest)) = none := h (c :: x) List.suffix_rfl (List.cons_ne_nil c x) rest
    simp [cut_letter hc, cut_plain h.tail]

theorem marks_plain {x : List α} (h : Plain next x) (rest : List α) :
    marks next (x ++ rest) = marks next rest := by
  rw [marks, cut_plain h]
  rfl

/-! ## Frames -/

/-- Every mark is read off its code. -/
def Coded (next : List α → Option (μ × Nat)) (code : μ → List α) : Prop :=
  ∀ m, code m ≠ [] ∧ ∀ rest, next (code m ++ rest) = some (m, (code m).length)

variable {code : μ → List α}

theorem marks_code (hcode : Coded next code) (m : μ) (rest : List α) :
    marks next (code m ++ rest) = m :: marks next rest := by
  rw [marks, cut_mark (hcode m).1 rest ((hcode m).2 rest)]
  rfl

theorem cut_frame_append (hcode : Coded next code) : ∀ {pieces : List (μ × List α)},
    (∀ p ∈ pieces, Plain next p.2) → ∀ {rest : List α}, (cut next rest).1 = [] →
    cut next (frame code pieces ++ rest) = ([], pieces ++ (cut next rest).2)
  | [], _, rest, hrest => by
    show cut next rest = ([], (cut next rest).2)
    rw [← hrest]
  | (m, x) :: pieces, h, rest, hrest => by
    have hx : Plain next x := h (m, x) List.mem_cons_self
    have ih := cut_frame_append hcode (List.forall_mem_cons.mp h).2 hrest
    show cut next ((code m ++ x ++ frame code pieces) ++ rest) = _
    simp [cut_mark (hcode m).1 _ ((hcode m).2 _), cut_plain hx, ih]

theorem marks_frame_append (hcode : Coded next code) {pieces : List (μ × List α)}
    (h : ∀ p ∈ pieces, Plain next p.2) {rest : List α} (hrest : (cut next rest).1 = []) :
    marks next (frame code pieces ++ rest) = pieces.map (·.1) ++ marks next rest := by
  simp [marks, cut_frame_append hcode h hrest]

/-! ## Marks of a concatenation -/

theorem Apart.drop {x y : List α} (h : Apart next x y) (n : Nat) : Apart next (x.drop n) y :=
  fun s hs hne => h s (hs.trans (List.drop_suffix n x)) hne

theorem marks_of_none {c : α} {rest : List α} (h : next (c :: rest) = none) :
    marks next (c :: rest) = marks next rest := by
  rw [marks, cut_letter h]
  rfl

theorem marks_of_some {l : List α} {m : μ} {len : Nat} (hl : l ≠ []) (hlen : 0 < len)
    (h : next l = some (m, len)) : marks next l = m :: marks next (l.drop len) := by
  cases l with
  | nil => exact absurd rfl hl
  | cons c rest =>
    obtain ⟨n, rfl⟩ : ∃ n, len = n + 1 := ⟨len - 1, by omega⟩
    rw [marks, cut, cutFrom, h]
    simp only [cutFrom_eq, Nat.add_sub_cancel, List.drop_succ_cons, List.map_cons]
    rfl

/-- Where no mark is read, the text is part of a piece. -/
theorem cut_append_of_marks_nil {y : List α} : ∀ {x : List α}, Apart next x y → marks next x = [] →
    cut next (x ++ y) = (x ++ (cut next y).1, (cut next y).2)
  | [], _, _ => rfl
  | c :: x, h, hnil => by
    have hc := h (c :: x) List.suffix_rfl (List.cons_ne_nil c x)
    cases hm : next (c :: x) with
    | none =>
      rw [hm, List.cons_append] at hc
      rw [marks_of_none hm] at hnil
      have hx : Apart next x y := h.drop 1
      simp [cut_letter hc, cut_append_of_marks_nil hx hnil]
    | some mark =>
      simp [marks, cut, cutFrom, hm] at hnil

/-- **The marks of two texts that are apart.** -/
theorem marks_append (hnext : Local next) {y : List α} : ∀ (n : Nat) (x : List α), x.length ≤ n →
    Apart next x y → marks next (x ++ y) = marks next x ++ marks next y
  | _, [], _, _ => rfl
  | 0, _ :: _, hn, _ => absurd hn (by simp)
  | n + 1, c :: x, hn, h => by
    have hc := h (c :: x) List.suffix_rfl (List.cons_ne_nil c x)
    rw [List.length_cons] at hn
    cases hm : next (c :: x) with
    | none =>
      rw [hm] at hc
      rw [List.cons_append] at hc ⊢
      rw [marks_of_none hm, marks_of_none hc]
      exact marks_append hnext n x (by omega) (h.drop 1)
    | some mark =>
      obtain ⟨m, len⟩ := mark
      obtain ⟨hpos, hlen, -⟩ := hnext _ _ _ hm
      rw [hm] at hc
      have hshort : ((c :: x).drop len).length ≤ n := by
        simp
        omega
      rw [marks_of_some (List.cons_ne_nil c x) hpos hm, marks_of_some (by simp) hpos hc,
        List.drop_append_of_le_length hlen, marks_append hnext n _ hshort (h.drop len)]
      rfl

end Infra.Framing
