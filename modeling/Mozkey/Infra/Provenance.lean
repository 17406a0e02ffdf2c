import Mathlib.Algebra.BigOperators.Group.List.Basic
import Mathlib.Tactic.Abel
import Mozkey.Infra.Occurrences

/-!
# Replacing in a text that remembers

The letters of a text may carry more than a search looks at, such as where they come from. `look`
is what the search sees of a letter. `replaceBy` replaces in such a text and agrees with
`replaceAll` on what the search sees (`map_replaceBy`); `removedBy` is what it takes out.

`sum_replaceBy` is the account: whatever the letters weigh, what is left and what was taken out
weigh as much as the text and the insertions.
-/

namespace Infra

variable {α β : Type} [DecidableEq α] (look : β → α) {needle : List α} {new : List β}

def replaceByFrom (needle : List α) (new : List β) : Nat → List β → List β
  | _, [] => []
  | skip + 1, _ :: rest => replaceByFrom needle new skip rest
  | 0, c :: rest =>
    if needle.isPrefixOf ((c :: rest).map look) then
      new ++ replaceByFrom needle new (needle.length - 1) rest
    else c :: replaceByFrom needle new 0 rest

/-- Every occurrence of the needle becomes `new`. -/
def replaceBy (needle : List α) (new text : List β) : List β :=
  if needle.isEmpty then text else replaceByFrom look needle new 0 text

def removedByFrom (needle : List α) : Nat → List β → List β
  | _, [] => []
  | skip + 1, c :: rest => c :: removedByFrom needle skip rest
  | 0, c :: rest =>
    if needle.isPrefixOf ((c :: rest).map look) then
      c :: removedByFrom needle (needle.length - 1) rest
    else removedByFrom needle 0 rest

/-- The letters that `replaceBy` takes out. -/
def removedBy (needle : List α) (text : List β) : List β :=
  if needle.isEmpty then [] else removedByFrom look needle 0 text

/-! ## The three cases -/

omit [DecidableEq α] in
theorem lookInduction {P : List β → Prop} (hne : needle ≠ []) (nil : P [])
    (hit : ∀ w rest, w.map look = needle → P rest → P (w ++ rest))
    (miss : ∀ c rest, ¬needle <+: (c :: rest).map look → P rest → P (c :: rest))
    (text : List β) : P text := by
  induction h : text.length using Nat.strongRecOn generalizing text with
  | ind n ih =>
    cases text with
    | nil => exact nil
    | cons c rest =>
      by_cases hp : needle <+: (c :: rest).map look
      · obtain ⟨tail, htail⟩ := hp
        obtain ⟨w, rest', hsplit, hw, -⟩ := List.map_eq_append_iff.mp htail.symm
        have hpos : 0 < needle.length := List.length_pos_of_ne_nil hne
        have hwlen : w.length = needle.length := by rw [← hw, List.length_map]
        have hlen : w.length + rest'.length = n := by rw [← h, hsplit, List.length_append]
        rw [hsplit]
        exact hit w rest' hw (ih rest'.length (by omega) rest' rfl)
      · have hlen : rest.length + 1 = n := by rw [← h, List.length_cons]
        exact miss c rest hp (ih rest.length (by omega) rest rfl)

theorem replaceByFrom_skip : ∀ (skip : Nat) (text : List β),
    replaceByFrom look needle new skip text = replaceByFrom look needle new 0 (text.drop skip)
  | 0, _ => rfl
  | _ + 1, [] => rfl
  | skip + 1, _ :: rest => by
    simp [replaceByFrom, replaceByFrom_skip skip]

theorem removedByFrom_skip : ∀ (skip : Nat) (text : List β),
    removedByFrom look needle skip text
      = text.take skip ++ removedByFrom look needle 0 (text.drop skip)
  | 0, _ => rfl
  | _ + 1, [] => rfl
  | skip + 1, c :: rest => by
    simp [removedByFrom, removedByFrom_skip skip]

@[simp] theorem replaceBy_nil : replaceBy look needle new [] = [] := by
  unfold replaceBy
  split
  · rfl
  · rfl

@[simp] theorem removedBy_nil : removedBy look needle [] = [] := by
  unfold removedBy
  split
  · rfl
  · rfl

theorem isPrefixOf_of_hit {c : β} {w : List β} (hw : (c :: w).map look = needle)
    (rest : List β) :
    needle.isPrefixOf ((c :: (w ++ rest)).map look) = true ∧ needle.length - 1 = w.length := by
  constructor
  · rw [List.isPrefixOf_iff_prefix, ← List.cons_append, List.map_append, hw]
    exact List.prefix_append needle _
  · simp [← hw]

theorem replaceBy_hit (hne : needle ≠ []) {w : List β} (hw : w.map look = needle)
    (rest : List β) :
    replaceBy look needle new (w ++ rest) = new ++ replaceBy look needle new rest := by
  cases w with
  | nil => exact absurd hw.symm hne
  | cons c w =>
    obtain ⟨hp, hlen⟩ := isPrefixOf_of_hit look hw rest
    rw [replaceBy, replaceBy, isEmpty_of_ne_nil hne, if_neg (by simp), if_neg (by simp),
      List.cons_append, replaceByFrom, if_pos hp, replaceByFrom_skip, hlen, List.drop_left]

theorem removedBy_hit (hne : needle ≠ []) {w : List β} (hw : w.map look = needle)
    (rest : List β) :
    removedBy look needle (w ++ rest) = w ++ removedBy look needle rest := by
  cases w with
  | nil => exact absurd hw.symm hne
  | cons c w =>
    obtain ⟨hp, hlen⟩ := isPrefixOf_of_hit look hw rest
    rw [removedBy, removedBy, isEmpty_of_ne_nil hne, if_neg (by simp), if_neg (by simp),
      List.cons_append, removedByFrom, if_pos hp, removedByFrom_skip, hlen, List.drop_left,
      List.take_left, List.cons_append]

variable {c : β} {rest text : List β}

theorem replaceBy_miss (h : ¬needle <+: (c :: rest).map look) :
    replaceBy look needle new (c :: rest) = c :: replaceBy look needle new rest := by
  have hne : needle ≠ [] := fun he => h (he ▸ List.nil_prefix)
  have hp : ¬needle.isPrefixOf ((c :: rest).map look) = true := by
    simpa using h
  rw [replaceBy, replaceBy, isEmpty_of_ne_nil hne, if_neg (by simp), if_neg (by simp),
    replaceByFrom, if_neg hp]

theorem removedBy_miss (h : ¬needle <+: (c :: rest).map look) :
    removedBy look needle (c :: rest) = removedBy look needle rest := by
  have hne : needle ≠ [] := fun he => h (he ▸ List.nil_prefix)
  have hp : ¬needle.isPrefixOf ((c :: rest).map look) = true := by
    simpa using h
  rw [removedBy, removedBy, isEmpty_of_ne_nil hne, if_neg (by simp), if_neg (by simp),
    removedByFrom, if_neg hp]

/-- Where nothing is found nothing is replaced. -/
theorem replaceBy_append_of_notMem {rest : List β} : ∀ {w : List β},
    (∀ pos < w.length, pos ∉ occurrences needle ((w ++ rest).map look)) →
    replaceBy look needle new (w ++ rest) = w ++ replaceBy look needle new rest ∧
      removedBy look needle (w ++ rest) = removedBy look needle rest
  | [], _ => ⟨rfl, rfl⟩
  | c :: w, h => by
    by_cases hne : needle = []
    · rw [hne]
      exact ⟨rfl, rfl⟩
    have hm : ¬needle <+: (c :: (w ++ rest)).map look := by
      intro hp
      obtain ⟨tail, htail⟩ := hp
      refine h 0 (by simp) ?_
      simp [← htail, occurrences_hit hne]
    have hw : ∀ pos < w.length, pos ∉ occurrences needle ((w ++ rest).map look) := by
      intro pos hpos hmem
      refine h (pos + 1) (by rw [List.length_cons]; omega) ?_
      rw [List.cons_append, List.map_cons, occurrences_miss hm]
      exact List.mem_map.mpr ⟨pos, hmem, rfl⟩
    have ih := replaceBy_append_of_notMem hw
    rw [List.cons_append, replaceBy_miss look hm, removedBy_miss look hm, ih.1]
    exact ⟨rfl, ih.2⟩

theorem replaceBy_of_absent {text : List β} (h : countOccurrences (text.map look) needle = 0) :
    replaceBy look needle new text = text := by
  have hnone : occurrences needle (text.map look) = [] := List.eq_nil_of_length_eq_zero h
  have hsilent : ∀ pos < text.length, pos ∉ occurrences needle ((text ++ []).map look) := by
    intro pos _
    simp [hnone]
  have hcopy := (@replaceBy_append_of_notMem _ _ _ look needle new [] text hsilent).1
  rwa [replaceBy_nil, List.append_nil] at hcopy

/-! ## What is seen -/

/-- **What the search sees of the new text is the text it would have made.** -/
theorem map_replaceBy (text : List β) :
    (replaceBy look needle new text).map look
      = replaceAll needle (new.map look) (text.map look) := by
  by_cases hne : needle = []
  · rw [hne]
    rfl
  · induction text using lookInduction look hne with
    | nil => rw [replaceBy_nil, List.map_nil, replaceAll_nil]
    | hit w rest hw ih =>
      simp [replaceBy_hit look hne hw, hw, replaceAll_hit hne, ih]
    | miss c rest hm ih =>
      rw [replaceBy_miss look hm, List.map_cons, ih, List.map_cons, replaceAll_miss]
      exact hm

theorem mem_replaceBy_or_removedBy {x : β} (hx : x ∈ text) :
    x ∈ replaceBy look needle new text ∨ x ∈ removedBy look needle text := by
  by_cases hne : needle = []
  · rw [hne]
    exact Or.inl hx
  · induction text using lookInduction look hne with
    | nil => exact absurd hx List.not_mem_nil
    | hit w rest hw ih =>
      rw [replaceBy_hit look hne hw, removedBy_hit look hne hw]
      rcases List.mem_append.mp hx with hx | hx
      · exact Or.inr (List.mem_append_left _ hx)
      · exact (ih hx).imp (List.mem_append_right _) (List.mem_append_right _)
    | miss c rest hm ih =>
      rw [replaceBy_miss look hm, removedBy_miss look hm]
      rcases List.mem_cons.mp hx with rfl | hx
      · exact Or.inl List.mem_cons_self
      · exact (ih hx).imp (List.mem_cons_of_mem _) id

/-- Where the needle is found at all, the insertion is in the new text. -/
theorem new_subset_replaceBy (h : countOccurrences (text.map look) needle ≠ 0) :
    new ⊆ replaceBy look needle new text := by
  have hne : needle ≠ [] := by
    rintro rfl
    exact h rfl
  induction text using lookInduction look hne with
  | nil => exact absurd (countOccurrences_nil) h
  | hit w rest hw _ =>
    rw [replaceBy_hit look hne hw]
    exact List.subset_append_left _ _
  | miss c rest hm ih =>
    rw [replaceBy_miss look hm]
    rw [List.map_cons, countOccurrences_miss hm] at h
    exact List.subset_cons_of_subset c (ih h)

/-- The letters of an occurrence are taken out. -/
theorem mem_removedBy {pos : Nat} (h : pos ∈ occurrences needle (text.map look)) {x : β}
    (hx : x ∈ (text.drop pos).take needle.length) : x ∈ removedBy look needle text := by
  have hne : needle ≠ [] := by
    rintro rfl
    simp [occurrences] at h
  induction text using lookInduction look hne generalizing pos with
  | nil => simp at hx
  | hit w rest hw ih =>
    have hlen : needle.length = w.length := by rw [← hw, List.length_map]
    rw [List.map_append, hw, occurrences_hit hne] at h
    rw [removedBy_hit look hne hw]
    rcases List.mem_cons.mp h with rfl | h
    · rw [List.drop_zero, hlen, List.take_left] at hx
      exact List.mem_append_left _ hx
    · obtain ⟨p, hp, rfl⟩ := List.mem_map.mp h
      rw [Nat.add_comm, ← List.drop_drop, hlen, List.drop_left, ← hlen] at hx
      exact List.mem_append_right _ (ih hp hx)
  | miss c rest hm ih =>
    rw [List.map_cons, occurrences_miss hm] at h
    obtain ⟨p, hp, rfl⟩ := List.mem_map.mp h
    rw [List.drop_succ_cons] at hx
    rw [removedBy_miss look hm]
    exact ih hp hx

/-! ## Weights -/

/-- **Nothing is lost:** what is left and what was taken out weigh as much as the text and the
insertions. -/
theorem sum_replaceBy {M : Type} [AddCommMonoid M] (weight : β → M) (text : List β) :
    ((replaceBy look needle new text).map weight).sum
        + ((removedBy look needle text).map weight).sum
      = (text.map weight).sum
        + countOccurrences (text.map look) needle • (new.map weight).sum := by
  by_cases hne : needle = []
  · rw [hne]
    have hcount : countOccurrences (text.map look) [] = 0 := rfl
    rw [hcount, zero_nsmul]
    rfl
  · induction text using lookInduction look hne with
    | nil => simp
    | hit w rest hw ih =>
      have hcount : countOccurrences ((w ++ rest).map look) needle
          = countOccurrences (rest.map look) needle + 1 := by
        simp [hw, countOccurrences_hit hne]
      rw [replaceBy_hit look hne hw, removedBy_hit look hne hw, hcount, succ_nsmul]
      simp only [List.map_append, List.sum_append]
      rw [add_add_add_comm, ih]
      abel
    | miss c rest hm ih =>
      simp [replaceBy_miss look hm, removedBy_miss look hm, countOccurrences_miss hm, add_assoc, ih]

end Infra
