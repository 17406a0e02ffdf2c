import Mozkey.Infra.Find

/-!
# What a search finds

A search from the left either finds the needle where it is, and goes on behind it, or goes on
one element later. `searchInduction` is the induction that follows it, and `replaceAll`,
`countOccurrences` and `occurrences` have an equation for each of the three cases.

`overlapCount` counts the places where the needle stands, overlapping ones included. A text
that has no part in common with the ends of the needle can neither hold one of them nor close
one (`overlapCount_append_apart`).
-/

namespace Infra

variable {α : Type} [DecidableEq α] {needle : List α}

/-! ## The three cases -/

omit [DecidableEq α] in
theorem searchInduction {P : List α → Prop} (hne : needle ≠ []) (nil : P [])
    (hit : ∀ rest, P rest → P (needle ++ rest))
    (miss : ∀ c rest, ¬needle <+: c :: rest → P rest → P (c :: rest)) (text : List α) : P text := by
  induction h : text.length using Nat.strongRecOn generalizing text with
  | ind n ih =>
    cases text with
    | nil => exact nil
    | cons c rest =>
      by_cases hp : needle <+: c :: rest
      · obtain ⟨tail, htail⟩ := hp
        have hpos : 0 < needle.length := List.length_pos_of_ne_nil hne
        have hlen : needle.length + tail.length = n := by
          simp [← h, ← htail]
        rw [← htail]
        exact hit tail (ih tail.length (by omega) tail rfl)
      · have hlen : rest.length + 1 = n := by rw [← h, List.length_cons]
        exact miss c rest hp (ih rest.length (by omega) rest rfl)

theorem occurrencesFrom_skip : ∀ (skip pos : Nat) (text : List α),
    occurrencesFrom needle skip pos text = occurrencesFrom needle 0 (pos + skip) (text.drop skip)
  | 0, _, _ => rfl
  | _ + 1, _, [] => rfl
  | skip + 1, pos, _ :: rest => by
    rw [occurrencesFrom, occurrencesFrom_skip skip, List.drop_succ_cons]
    congr 1
    omega

theorem occurrencesFrom_shift (k : Nat) : ∀ (skip pos : Nat) (text : List α),
    occurrencesFrom needle skip (pos + k) text
      = (occurrencesFrom needle skip pos text).map (· + k)
  | _, _, [] => by simp [occurrencesFrom]
  | skip + 1, pos, _ :: rest => by
    rw [occurrencesFrom, occurrencesFrom, ← occurrencesFrom_shift k skip]
    congr 1
    omega
  | 0, pos, c :: rest => by
    have hpos : pos + k + 1 = pos + 1 + k := by omega
    rw [occurrencesFrom, occurrencesFrom]
    split
    · simp [hpos, occurrencesFrom_shift k]
    · rw [hpos, occurrencesFrom_shift k]

variable {new rest surface : List α}

theorem replaceFrom_skip : ∀ (skip : Nat) (text : List α),
    replaceFrom needle new skip text = replaceFrom needle new 0 (text.drop skip)
  | 0, _ => rfl
  | _ + 1, [] => rfl
  | skip + 1, _ :: rest => by
    simp [replaceFrom, replaceFrom_skip skip]

omit [DecidableEq α] in
theorem isEmpty_of_ne_nil (hne : needle ≠ []) : needle.isEmpty = false := by
  cases needle with
  | nil => exact absurd rfl hne
  | cons c rest => rfl

theorem occurrences_nil : occurrences needle [] = [] := by
  unfold occurrences
  split
  · rfl
  · rfl

theorem occurrences_hit (hne : needle ≠ []) (rest : List α) :
    occurrences needle (needle ++ rest)
      = 0 :: (occurrences needle rest).map (· + needle.length) := by
  obtain ⟨c, tail, rfl⟩ := List.exists_cons_of_ne_nil hne
  have hp : (c :: tail).isPrefixOf (c :: (tail ++ rest)) = true := by
    simpa using List.prefix_append (c :: tail) rest
  simp only [occurrences, List.isEmpty_cons, Bool.false_eq_true, if_false, List.cons_append,
    occurrencesFrom, if_pos hp, List.length_cons, Nat.add_sub_cancel]
  rw [occurrencesFrom_skip, List.drop_left, ← occurrencesFrom_shift]
  congr 2
  omega

theorem occurrences_miss {c : α} (h : ¬needle <+: c :: rest) :
    occurrences needle (c :: rest) = (occurrences needle rest).map (· + 1) := by
  have hne : needle ≠ [] := fun he => h (he ▸ List.nil_prefix)
  have hp : ¬needle.isPrefixOf (c :: rest) = true := by
    simpa using h
  rw [occurrences, occurrences, isEmpty_of_ne_nil hne, if_neg (by simp), if_neg (by simp),
    occurrencesFrom, if_neg hp, ← occurrencesFrom_shift]

theorem replaceAll_nil : replaceAll needle new [] = [] := by
  unfold replaceAll
  split
  · rfl
  · rfl

theorem replaceAll_hit (hne : needle ≠ []) (rest : List α) :
    replaceAll needle new (needle ++ rest) = new ++ replaceAll needle new rest := by
  obtain ⟨c, tail, rfl⟩ := List.exists_cons_of_ne_nil hne
  have hp : (c :: tail).isPrefixOf (c :: (tail ++ rest)) = true := by
    simpa using List.prefix_append (c :: tail) rest
  simp only [replaceAll, List.isEmpty_cons, Bool.false_eq_true, if_false, List.cons_append,
    replaceFrom, if_pos hp, List.length_cons, Nat.add_sub_cancel]
  simp [replaceFrom_skip]

theorem replaceAll_miss {c : α} (h : ¬needle <+: c :: rest) :
    replaceAll needle new (c :: rest) = c :: replaceAll needle new rest := by
  have hne : needle ≠ [] := fun he => h (he ▸ List.nil_prefix)
  have hp : ¬needle.isPrefixOf (c :: rest) = true := by
    simpa using h
  rw [replaceAll, replaceAll, isEmpty_of_ne_nil hne, if_neg (by simp), if_neg (by simp),
    replaceFrom, if_neg hp]

@[simp] theorem countOccurrences_nil : countOccurrences [] needle = 0 := by
  simp [countOccurrences, occurrences_nil]

theorem countOccurrences_hit (hne : needle ≠ []) (rest : List α) :
    countOccurrences (needle ++ rest) needle = countOccurrences rest needle + 1 := by
  simp [countOccurrences, occurrences_hit hne]

theorem countOccurrences_miss {c : α} (h : ¬needle <+: c :: rest) :
    countOccurrences (c :: rest) needle = countOccurrences rest needle := by
  simp [countOccurrences, occurrences_miss h]

/-! ## Occurrences -/

/-- Where nothing is found the search only goes on. -/
theorem occurrences_append_of_notMem : ∀ {w : List α},
    (∀ pos < w.length, pos ∉ occurrences needle (w ++ rest)) →
    occurrences needle (w ++ rest) = (occurrences needle rest).map (· + w.length)
  | [], _ => by simp
  | c :: w, h => by
    have hm : needle = [] ∨ ¬needle <+: c :: (w ++ rest) := by
      by_cases hne : needle = []
      · exact Or.inl hne
      · refine Or.inr fun hp => h 0 (by simp) ?_
        obtain ⟨tail, htail⟩ := hp
        simp [← htail, occurrences_hit hne]
    rcases hm with rfl | hm
    · rfl
    · rw [List.cons_append, occurrences_miss hm, occurrences_append_of_notMem, List.map_map]
      · refine List.map_congr_left fun pos _ => ?_
        show pos + w.length + 1 = pos + (w.length + 1)
        omega
      · intro pos hpos hmem
        refine h (pos + 1) (by rw [List.length_cons]; omega) ?_
        rw [List.cons_append, occurrences_miss hm]
        exact List.mem_map.mpr ⟨pos, hmem, rfl⟩

/-- The needle stands at every position found. -/
theorem prefix_of_mem_occurrences {pos : Nat} {text : List α} (h : pos ∈ occurrences needle text) :
    needle <+: text.drop pos := by
  have hne : needle ≠ [] := by
    rintro rfl
    simp [occurrences] at h
  induction text using searchInduction hne generalizing pos with
  | nil => simp [occurrences_nil] at h
  | hit rest ih =>
    rw [occurrences_hit hne] at h
    rcases List.mem_cons.mp h with rfl | h
    · exact List.prefix_append needle rest
    · obtain ⟨p, hp, rfl⟩ := List.mem_map.mp h
      have hdrop : (needle ++ rest).drop (p + needle.length) = rest.drop p := by
        rw [Nat.add_comm, ← List.drop_drop, List.drop_left]
      rw [hdrop]
      exact ih hp
  | miss c rest hm ih =>
    rw [occurrences_miss hm] at h
    obtain ⟨p, hp, rfl⟩ := List.mem_map.mp h
    simpa using ih hp

theorem split_of_mem_occurrences {pos : Nat} {text : List α} (h : pos ∈ occurrences needle text) :
    ∃ rest, text = text.take pos ++ needle ++ rest ∧
      text.take (pos + needle.length) = text.take pos ++ needle ∧
      text.drop (pos + needle.length) = rest := by
  obtain ⟨rest, hrest⟩ := prefix_of_mem_occurrences h
  have hdrop : text.drop (pos + needle.length) = rest := by
    simp [← List.drop_drop, ← hrest]
  have htext : text = text.take pos ++ needle ++ rest := by
    simp [hrest]
  refine ⟨rest, htext, ?_, hdrop⟩
  have htake := List.take_append_drop (pos + needle.length) text
  rw [hdrop] at htake
  exact List.append_cancel_right (htake.trans htext)

theorem countOccurrences_eq_zero_iff (hne : needle ≠ []) (text : List α) :
    countOccurrences text needle = 0 ↔ ¬needle <:+: text := by
  induction text using searchInduction hne with
  | nil => simp [hne]
  | hit rest ih =>
    rw [countOccurrences_hit hne]
    constructor
    · intro h
      omega
    · intro h
      exact absurd (List.prefix_append needle rest).isInfix h
  | miss c rest hm ih =>
    rw [countOccurrences_miss hm, ih, List.infix_cons_iff, not_or]
    exact ⟨fun h => ⟨hm, h⟩, fun h => h.2⟩

theorem replaceAll_of_absent {text : List α} (h : ¬needle <:+: text) :
    replaceAll needle new text = text := by
  have hne : needle ≠ [] := fun he => h (he ▸ List.nil_infix)
  induction text using searchInduction hne with
  | nil => exact replaceAll_nil
  | hit rest _ => exact absurd (List.prefix_append needle rest).isInfix h
  | miss c rest hm ih =>
    rw [replaceAll_miss hm, ih fun hr => h (List.infix_cons hr)]

/-- **A single occurrence is the one that is replaced.** -/
theorem split_of_countOccurrences_eq_one {text : List α} (h : countOccurrences text needle = 1) :
    ∃ x y, text = x ++ needle ++ y ∧ ∀ new, replaceAll needle new text = x ++ new ++ y := by
  have hne : needle ≠ [] := by
    rintro rfl
    simp [countOccurrences, occurrences] at h
  induction text using searchInduction hne with
  | nil => simp at h
  | hit rest _ =>
    rw [countOccurrences_hit hne, Nat.add_eq_right, countOccurrences_eq_zero_iff hne] at h
    refine ⟨[], rest, rfl, fun new => ?_⟩
    rw [replaceAll_hit hne, replaceAll_of_absent h]
    rfl
  | miss c rest hm ih =>
    rw [countOccurrences_miss hm] at h
    obtain ⟨x, y, hxy, hrep⟩ := ih h
    refine ⟨c :: x, y, by rw [hxy]; rfl, fun new => ?_⟩
    rw [replaceAll_miss hm, hrep]
    rfl

omit [DecidableEq α] in
theorem not_infix_of_notMem {c : α} {text : List α} (hc : c ∈ needle) (h : c ∉ text) :
    ¬needle <:+: text := fun hi => h (hi.subset hc)

/-- Every occurrence has a first element of its own. -/
theorem countOccurrences_le_count (c : α) (needle text : List α) :
    countOccurrences text (c :: needle) ≤ text.count c := by
  have hne : c :: needle ≠ [] := List.cons_ne_nil c needle
  induction text using searchInduction hne with
  | nil => simp
  | hit rest ih =>
    rw [countOccurrences_hit hne, List.cons_append, List.count_cons_self, List.count_append]
    omega
  | miss d rest hm ih =>
    rw [countOccurrences_miss hm]
    exact Nat.le_trans ih List.count_le_count_cons

/-! ## `find` -/

theorem findFrom_some : ∀ {pos p : Nat} {text : List α}, findFrom needle pos text = some p →
    ∃ k, p = pos + k ∧ k ≤ text.length ∧ needle <+: text.drop k
  | pos, p, [], h => by
    rw [findFrom] at h
    split at h
    · next he =>
      rw [Option.some.injEq] at h
      exact ⟨0, h.symm, Nat.le_refl 0, by rw [List.isEmpty_iff.mp he]; exact List.nil_prefix⟩
    · cases h
  | pos, p, c :: rest, h => by
    rw [findFrom] at h
    split at h
    · next hp =>
      rw [Option.some.injEq] at h
      exact ⟨0, h.symm, Nat.zero_le _, List.isPrefixOf_iff_prefix.mp hp⟩
    · obtain ⟨k, rfl, hk, hp⟩ := findFrom_some h
      refine ⟨k + 1, by omega, ?_, hp⟩
      simp
      omega

theorem find_some {start p : Nat} {text : List α} (h : find needle text start = some p) :
    start ≤ p ∧ p ≤ text.length ∧ needle <+: text.drop p := by
  unfold find at h
  split at h
  · cases h
  · obtain ⟨k, rfl, hk, hp⟩ := findFrom_some h
    rw [List.length_drop] at hk
    rw [List.drop_drop] at hp
    exact ⟨by omega, by omega, hp⟩

theorem findFrom_isSome_iff : ∀ (pos : Nat) (text : List α),
    (findFrom needle pos text).isSome = true ↔ needle <:+: text
  | pos, [] => by
    rw [findFrom, List.infix_nil]
    cases needle <;> simp
  | pos, c :: rest => by
    rw [findFrom, List.infix_cons_iff]
    split
    · next hp => simp [List.isPrefixOf_iff_prefix.mp hp]
    · next hp =>
      rw [List.isPrefixOf_iff_prefix] at hp
      simp [findFrom_isSome_iff (pos + 1) rest, hp]

theorem contains_iff (text : List α) : contains needle text = true ↔ needle <:+: text := by
  simpa [contains, find, if_neg (Nat.not_lt_zero _)] using findFrom_isSome_iff 0 text

/-! ## Overlapping occurrences -/

/-- The number of places where the needle stands. -/
def overlapCount (needle : List α) : List α → Nat
  | [] => 0
  | c :: rest => (if needle <+: c :: rest then 1 else 0) + overlapCount needle rest

theorem overlapCount_append_le (x y : List α) :
    overlapCount needle x + overlapCount needle y ≤ overlapCount needle (x ++ y) := by
  induction x with
  | nil => simp [overlapCount]
  | cons c x ih =>
    rw [List.cons_append, overlapCount, overlapCount]
    by_cases hp : needle <+: c :: x
    · have hp' : needle <+: c :: (x ++ y) := hp.trans (List.prefix_append (c :: x) y)
      simp [hp, hp']
      omega
    · rw [if_neg hp]
      omega

theorem overlapCount_self_append_lt (hne : needle ≠ []) (y : List α) :
    overlapCount needle y < overlapCount needle (needle ++ y) := by
  obtain ⟨c, tail, rfl⟩ := List.exists_cons_of_ne_nil hne
  have hp : c :: tail <+: c :: (tail ++ y) := List.prefix_append (c :: tail) y
  have hle := @overlapCount_append_le α _ (c :: tail) tail y
  simp [overlapCount, hp]
  omega

/-- The two have a common part: one is inside the other, or an end of one is a beginning of the
other. -/
def Overlaps (needle surface : List α) : Prop :=
  needle <:+: surface ∨ surface <:+: needle ∨
    (∃ s, s ≠ [] ∧ s <:+ needle ∧ s <+: surface) ∨ ∃ s, s ≠ [] ∧ s <+: needle ∧ s <:+ surface

omit [DecidableEq α] in
/-- What the needle reaches of the surface from the left is a common part. -/
theorem prefix_of_apart (h : ¬Overlaps needle surface) {x y : List α}
    (hp : needle <+: x ++ (surface ++ y)) : needle <+: x := by
  rcases Nat.le_total needle.length x.length with hle | hle
  · exact List.prefix_of_prefix_length_le hp (List.prefix_append _ _) hle
  · have hx : x <+: needle := List.prefix_of_prefix_length_le (List.prefix_append _ _) hp hle
    obtain ⟨s, rfl⟩ := hx
    have hs : s <+: surface ++ y := (List.prefix_append_right_inj x).mp hp
    by_cases hnil : s = []
    · exact ⟨[], by simp [hnil]⟩
    · refine absurd ?_ h
      rcases Nat.le_total s.length surface.length with hsl | hsl
      · have hpre := List.prefix_of_prefix_length_le hs (List.prefix_append surface y) hsl
        exact Or.inr (Or.inr (Or.inl ⟨s, hnil, List.suffix_append x s, hpre⟩))
      · have hpre := List.prefix_of_prefix_length_le (List.prefix_append surface y) hs hsl
        exact Or.inr (Or.inl (hpre.isInfix.trans (List.suffix_append x s).isInfix))

omit [DecidableEq α] in
/-- The needle does not begin inside the surface. -/
theorem not_prefix_of_apart (h : ¬Overlaps needle surface) {s y : List α} (hs : s <:+ surface)
    (hnil : s ≠ []) : ¬needle <+: s ++ y := by
  intro hp
  rcases Nat.le_total needle.length s.length with hle | hle
  · have hpre := List.prefix_of_prefix_length_le hp (List.prefix_append s y) hle
    exact h (Or.inl (hpre.isInfix.trans hs.isInfix))
  · have hpre := List.prefix_of_prefix_length_le (List.prefix_append s y) hp hle
    exact h (Or.inr (Or.inr (Or.inr ⟨s, hnil, hpre, hs⟩)))

theorem overlapCount_suffix_append (h : ¬Overlaps needle surface) (y : List α) :
    ∀ s : List α, s <:+ surface → overlapCount needle (s ++ y) = overlapCount needle y
  | [], _ => rfl
  | c :: s, hs => by
    have hno := not_prefix_of_apart h hs (List.cons_ne_nil c s) (y := y)
    rw [List.cons_append] at hno ⊢
    simpa [overlapCount, hno] using overlapCount_suffix_append h y s ((List.suffix_cons c s).trans
      hs)

/-- **Occurrences do not reach into a surface that has no part in common with the needle.** -/
theorem overlapCount_append_apart (h : ¬Overlaps needle surface) (y : List α) :
    ∀ x : List α, overlapCount needle (x ++ surface ++ y)
      = overlapCount needle x + overlapCount needle y
  | [] => by
    simp [overlapCount_suffix_append h y surface (List.suffix_refl _), overlapCount]
  | c :: x => by
    have ih := overlapCount_append_apart h y x
    have hiff : needle <+: c :: (x ++ surface ++ y) ↔ needle <+: c :: x := by
      constructor
      · intro hp
        refine prefix_of_apart h (x := c :: x) (y := y) ?_
        simpa using hp
      · intro hp
        simpa using hp.trans (List.prefix_append (c :: x) (surface ++ y))
    rw [List.cons_append, List.cons_append, overlapCount, overlapCount, ih]
    simp only [hiff]
    omega

end Infra

/-!
## Occurrences that overlap

A search from the left that goes on behind each occurrence cannot tell one place from several
that overlap. A needle that is found once stands nowhere else, exactly when the text does not go
on behind it with the rest of one of its own borders (`existsUnique_occurrence_iff`).
-/

namespace Infra

variable {α : Type} [DecidableEq α] {needle text : List α} {p : Nat}

/-! ## The first occurrence -/

theorem findFrom_least : ∀ {pos p : Nat} {text : List α}, findFrom needle pos text = some p →
    ∀ q, needle <+: text.drop q → p ≤ pos + q
  | pos, p, [], h, q, _ => by
    rw [findFrom] at h
    split at h
    · simp at h
      omega
    · cases h
  | pos, p, c :: rest, h, q, hq => by
    rw [findFrom] at h
    split at h
    · simp at h
      omega
    · next hmiss =>
      cases q with
      | zero => exact absurd (List.isPrefixOf_iff_prefix.mpr hq) hmiss
      | succ q =>
        have hle := findFrom_least h q hq
        omega

theorem find_least (h : find needle text 0 = some p) {q : Nat} (hq : needle <+: text.drop q) :
    p ≤ q := by
  rw [find, if_neg (Nat.not_lt_zero _), List.drop_zero] at h
  have hle := findFrom_least h q hq
  omega

/-- Every other occurrence begins inside the one that was found. -/
theorem occurrence_window (h : countOccurrences text needle = 1) :
    ∃ p, needle <+: text.drop p ∧ ∀ q, needle <+: text.drop q → p ≤ q ∧ q < p + needle.length := by
  have hne : needle ≠ [] := by
    rintro rfl
    simp [countOccurrences, occurrences] at h
  have hpos : 0 < needle.length := List.length_pos_iff.mpr hne
  induction text using searchInduction hne with
  | nil => simp at h
  | hit rest _ =>
    rw [countOccurrences_hit hne, Nat.add_eq_right, countOccurrences_eq_zero_iff hne] at h
    refine ⟨0, List.prefix_append needle rest, fun q hq => ⟨Nat.zero_le q, ?_⟩⟩
    rw [Nat.zero_add]
    by_contra hge
    rw [List.drop_append, List.drop_of_length_le (by omega), List.nil_append] at hq
    exact h (hq.isInfix.trans (List.drop_suffix _ rest).isInfix)
  | miss c rest hm ih =>
    rw [countOccurrences_miss hm] at h
    obtain ⟨p, hp, hwindow⟩ := ih h
    refine ⟨p + 1, hp, fun q hq => ?_⟩
    cases q with
    | zero => exact absurd hq hm
    | succ q =>
      have hq := hwindow q hq
      omega

/-! ## Borders -/

omit [DecidableEq α] in
/-- A second occurrence that begins inside the first. -/
theorem prefix_drop_append_iff {d : Nat} (rest : List α) (hd : d ≤ needle.length) :
    needle <+: (needle ++ rest).drop d ↔
      needle.drop d <+: needle ∧ needle.drop (needle.length - d) <+: rest := by
  rw [List.drop_append_of_le_length hd]
  have hlength : (needle.drop d).length = needle.length - d := List.length_drop
  constructor
  · rintro ⟨tail, htail⟩
    have htake := congrArg (List.take (needle.length - d)) htail
    have hdrop := congrArg (List.drop (needle.length - d)) htail
    rw [List.take_append_of_le_length (by omega), ← hlength, List.take_left] at htake
    rw [List.drop_append_of_le_length (by omega), ← hlength, List.drop_left, hlength] at hdrop
    exact ⟨htake ▸ List.take_prefix _ needle, ⟨tail, hdrop⟩⟩
  · rintro ⟨hborder, tail, htail⟩
    have htake : needle.take (needle.length - d) = needle.drop d := by
      rw [← hlength]
      exact (List.prefix_iff_eq_take.mp hborder).symm
    refine ⟨tail, ?_⟩
    calc needle ++ tail
        = needle.take (needle.length - d) ++ needle.drop (needle.length - d) ++ tail := by
          simp
      _ = needle.drop d ++ rest := by rw [htake, List.append_assoc, htail]

/-- **A needle that is found once stands nowhere else, exactly when no border of it goes on.** -/
theorem existsUnique_occurrence_iff (h : countOccurrences text needle = 1)
    (hfind : find needle text 0 = some p) :
    (∃! q, needle <+: text.drop q) ↔
      ∀ d, 0 < d → d < needle.length → needle.drop d <+: needle →
        ¬needle.drop (needle.length - d) <+: text.drop (p + needle.length) := by
  obtain ⟨-, -, hp⟩ := find_some hfind
  obtain ⟨p', hp', hwindow⟩ := occurrence_window h
  -- the place that was found is the first one
  obtain rfl : p' = p := Nat.le_antisymm (hwindow p hp).1 (find_least hfind hp')
  obtain ⟨rest, hrest⟩ := hp
  have hbehind : text.drop (p' + needle.length) = rest := by
    simp [← List.drop_drop, ← hrest]
  have hinside : ∀ d, needle <+: text.drop (p' + d) ↔ needle <+: (needle ++ rest).drop d := by
    intro d
    rw [← List.drop_drop, ← hrest]
  rw [hbehind]
  constructor
  · rintro hunique d hd hlt hborder hgoes
    have hsecond :=
      (hinside d).mpr ((prefix_drop_append_iff rest (Nat.le_of_lt hlt)).mpr ⟨hborder, hgoes⟩)
    have heq := hunique.unique hp' hsecond
    omega
  · intro hnone
    refine ⟨p', hp', fun q hq => ?_⟩
    obtain ⟨hle, hlt⟩ := hwindow q hq
    obtain ⟨d, rfl⟩ := Nat.exists_eq_add_of_le hle
    rcases Nat.eq_zero_or_pos d with rfl | hd
    · rfl
    · obtain ⟨hborder, hgoes⟩ :=
        (prefix_drop_append_iff rest (by omega)).mp ((hinside d).mp hq)
      exact absurd hgoes (hnone d hd (by omega) hborder)

end Infra
