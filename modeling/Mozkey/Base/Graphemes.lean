import Mozkey.Base.Utf8Encode

/-!
# Graphemes as lists of characters

`SplitStringToUtf8Graphemes` appends the bytes of a character to the grapheme before it.
`clusters` is the same loop with the characters kept apart, so that facts about graphemes can be
told in code points.
-/

namespace Mozkey.Base

open Infra

/-- The loop of `SplitStringToUtf8Graphemes`: the last grapheme and the characters to come. -/
def clusters : Nat → List Bytes → List Bytes → List (List Bytes)
  | _, last, [] => [last]
  | prev, last, grapheme :: rest =>
    let codepoint := utf8ToCodepoint grapheme
    if isRegionalIndicator prev && isRegionalIndicator codepoint then
      clusters 0 (last ++ [grapheme]) rest
    else if joinsGrapheme prev codepoint then clusters codepoint (last ++ [grapheme]) rest
    else last :: clusters codepoint [grapheme] rest

def clustersOf : List Bytes → List (List Bytes)
  | [] => []
  | grapheme :: rest => clusters (utf8ToCodepoint grapheme) [grapheme] rest

theorem joinGraphemes_eq_clusters : ∀ (rest : List Bytes) (prev : Nat) (last : List Bytes),
    joinGraphemes prev (some last.flatten) rest = (clusters prev last rest).map List.flatten
  | [], _, _ => rfl
  | grapheme :: rest, prev, last => by
    have happ : last.flatten ++ grapheme = (last ++ [grapheme]).flatten := by simp
    have hone : grapheme = [grapheme].flatten := by simp
    rw [joinGraphemes, clusters]
    split
    · rw [happ, joinGraphemes_eq_clusters rest]
    split
    · rw [happ, joinGraphemes_eq_clusters rest]
    · simp [← joinGraphemes_eq_clusters rest, ← hone]

/-- **The graphemes of a text are clusters of its characters.** -/
theorem splitStringToUtf8Graphemes_flatten {chars : List Bytes} (h : ∀ u ∈ chars, IsChar u) :
    splitStringToUtf8Graphemes chars.flatten = (clustersOf chars).map List.flatten := by
  rw [splitStringToUtf8Graphemes, splitStringToUtf8Chars_flatten h]
  cases chars with
  | nil => rfl
  | cons u rest =>
    have hjoin : joinGraphemes 0 none (u :: rest) = (clustersOf (u :: rest)).map List.flatten := by
      have hone : u = [u].flatten := by simp
      rw [joinGraphemes, clustersOf, ← joinGraphemes_eq_clusters, ← hone]
    split
    · next hlen =>
      obtain rfl : rest = [] := List.length_eq_zero_iff.mp (by rw [List.length_cons] at hlen; omega)
      simp [clustersOf, clusters]
    · exact hjoin

/-- What the loop knows of the grapheme it is at: `prev` is its last code point, or 0 when that
one has completed a flag. -/
structure AtCluster (prev : Nat) (last : List Bytes) (x : Nat) : Prop where
  getLast? : (last.map utf8ToCodepoint).getLast? = some x
  prev : prev = x ∨ prev = 0 ∧ isRegionalIndicator x = true

theorem AtCluster.single (u : Bytes) : AtCluster (utf8ToCodepoint u) [u] (utf8ToCodepoint u) :=
  ⟨rfl, Or.inl rfl⟩

theorem AtCluster.append (last : List Bytes) (u : Bytes) :
    AtCluster (utf8ToCodepoint u) (last ++ [u]) (utf8ToCodepoint u) :=
  ⟨by simp, Or.inl rfl⟩

theorem AtCluster.flag (last : List Bytes) {u : Bytes}
    (h : isRegionalIndicator (utf8ToCodepoint u) = true) :
    AtCluster 0 (last ++ [u]) (utf8ToCodepoint u) :=
  ⟨by simp, Or.inr ⟨rfl, h⟩⟩

/-- A character that begins a grapheme selects no presentation, and it is no keycap that would
complete one. -/
theorem AtCluster.breaks {prev : Nat} {last : List Bytes} {x c : Nat} (h : AtCluster prev last x)
    (hjoin : joinsGrapheme prev c = false) :
    c ≠ 0xFE0E ∧ c ≠ 0xFE0F ∧ (c = 0x20E3 → x ≠ 0xFE0F) := by
  simp only [joinsGrapheme, Bool.or_eq_false_iff, Bool.and_eq_false_iff, beq_eq_false_iff_ne,
    decide_eq_false_iff_not] at hjoin
  obtain ⟨⟨⟨⟨⟨⟨⟨⟨-, -⟩, -⟩, htext⟩, hemoji⟩, -⟩, -⟩, hkeycap⟩, -⟩ := hjoin
  refine ⟨htext, hemoji, ?_⟩
  rintro hc rfl
  rcases h.prev with hprev | ⟨-, hflag⟩
  · rcases hkeycap with hkeycap | hkeycap
    · exact hkeycap hprev
    · exact hkeycap hc
  · exact absurd hflag (by decide)

/-- The first grapheme to come consists of one character iff the next one does not join it. -/
theorem head?_clusters (prev : Nat) (last : List Bytes) : ∀ rest : List Bytes,
    ∃ more, (clusters prev last rest).head? = some (last ++ more) ∧
      (more = [] ↔ ∀ d, rest.head? = some d →
        (isRegionalIndicator prev && isRegionalIndicator (utf8ToCodepoint d)) = false ∧
          joinsGrapheme prev (utf8ToCodepoint d) = false) := by
  intro rest
  induction rest generalizing prev last with
  | nil => exact ⟨[], by simp [clusters], by simp⟩
  | cons grapheme rest ih =>
    rw [clusters]
    split
    · next hflag =>
      obtain ⟨more, hhead, -⟩ := ih 0 (last ++ [grapheme])
      refine ⟨grapheme :: more, by rw [hhead]; simp, ?_⟩
      refine ⟨fun h => absurd h (List.cons_ne_nil _ _), fun h => ?_⟩
      simp [(h grapheme rfl).1] at hflag
    split
    · next hjoin =>
      obtain ⟨more, hhead, -⟩ := ih (utf8ToCodepoint grapheme) (last ++ [grapheme])
      refine ⟨grapheme :: more, by rw [hhead]; simp, ?_⟩
      refine ⟨fun h => absurd h (List.cons_ne_nil _ _), fun h => ?_⟩
      simp [(h grapheme rfl).2] at hjoin
    · next hflag hjoin =>
      refine ⟨[], by simp, ?_⟩
      simp only [true_iff]
      intro d hd
      cases hd
      exact ⟨by simpa using hflag, by simpa using hjoin⟩

theorem mem_clusters : ∀ {rest : List Bytes} {prev : Nat} {last g : List Bytes} {u : Bytes},
    g ∈ clusters prev last rest → u ∈ g → u ∈ last ∨ u ∈ rest
  | [], _, _, _, _, hg, hu => by
    rw [clusters, List.mem_singleton] at hg
    exact Or.inl (hg ▸ hu)
  | grapheme :: rest, prev, last, g, u, hg, hu => by
    have happ : ∀ {prev}, g ∈ clusters prev (last ++ [grapheme]) rest →
        u ∈ last ∨ u ∈ grapheme :: rest := by
      intro prev hg
      rcases mem_clusters hg hu with h | h
      · rcases List.mem_append.mp h with h | h
        · exact Or.inl h
        · exact Or.inr (List.mem_cons.mpr (Or.inl (List.mem_singleton.mp h)))
      · exact Or.inr (List.mem_cons_of_mem _ h)
    rw [clusters] at hg
    split at hg
    · exact happ hg
    split at hg
    · exact happ hg
    · rcases List.mem_cons.mp hg with rfl | hg
      · exact Or.inl hu
      · rcases mem_clusters hg hu with h | h
        · exact Or.inr (List.mem_cons.mpr (Or.inl (List.mem_singleton.mp h)))
        · exact Or.inr (List.mem_cons_of_mem _ h)

theorem mem_clustersOf {chars g : List Bytes} {u : Bytes} (hg : g ∈ clustersOf chars)
    (hu : u ∈ g) : u ∈ chars := by
  cases chars with
  | nil => cases hg
  | cons grapheme rest =>
    rcases mem_clusters hg hu with h | h
    · exact List.mem_cons.mpr (Or.inl (List.mem_singleton.mp h))
    · exact List.mem_cons_of_mem _ h

end Mozkey.Base
