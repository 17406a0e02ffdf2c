import Mozkey.Base.Utf8Text
import Mozkey.Converter.Segments

/-!
# What resizing does to the segments

`Segments::Resize` in `converter/segments.cc` joins the keys of some segments and cuts them again.
With keys that are Unicode texts nothing of the reading is lost (`resize_redistributes`).
-/

namespace Mozkey.Converter

open Infra Base

namespace Segments

variable {s s' : Segments} {startIndex totalSize : Nat} {newSizes : List UInt8}

/-- The segments behind the new ones, when `left` is left of the reading. -/
def behind (left : Bytes) (rest : List Segment) : List Segment :=
  if left = [] then rest
  else
    match rest with
    | [] => [{ key := left }]
    | next :: rest => { key := left ++ next.key } :: rest

theorem behind_of_nil {left : Bytes} {rest : List Segment} (h : left = []) :
    behind left rest = rest := if_pos h

theorem behind_of_ne {left : Bytes} {rest : List Segment} (h : left ≠ []) :
    behind left rest = match rest with
      | [] => [{ key := left }]
      | next :: rest => { key := left ++ next.key } :: rest := if_neg h

/-- The segments `touched` have become the segments `fixed`. -/
structure Redistributed (s s' : Segments) (startIndex : Nat) (newSizes : List UInt8)
    (touched rest fixed : List Segment) (left : Bytes) : Prop where
  before : s.segments = s.segments.take startIndex ++ (touched ++ rest)
  after : s'.segments = s.segments.take startIndex ++ (fixed ++ behind left rest)
  fixed_new : ∀ g ∈ fixed, g = { segmentType := .fixedBoundary, key := g.key }
  sizes : fixed.map Segment.keyLen = (newSizes.filter (· ≠ 0)).map UInt8.toNat
  reading : touched.flatMap Segment.key = fixed.flatMap Segment.key ++ left
  /-- Only characters of the last segment can be left. -/
  left_suffix : ∃ last, touched.getLast? = some last ∧ left <:+ last.key
  whole : s'.segments.flatMap Segment.key = s.segments.flatMap Segment.key
  resized : s' = { s with segments := s'.segments, resized := true }

/-! ## The segments that are touched -/

theorem takeKeys_spec : ∀ {l : List Segment} {key : Bytes} {count : Nat},
    charsLen key < totalSize → ∃ touched rest, l = touched ++ rest ∧
      takeKeys totalSize l key count =
        (key ++ touched.flatMap Segment.key, count + touched.length) ∧
      (rest = [] ∧ charsLen (key ++ touched.flatMap Segment.key) < totalSize ∨
        totalSize ≤ charsLen (key ++ touched.flatMap Segment.key) ∧
        ∃ front last, touched = front ++ [last] ∧
          charsLen (key ++ front.flatMap Segment.key) < totalSize)
  | [], key, count, h => ⟨[], [], rfl, by simp [takeKeys], .inl ⟨rfl, by simpa using h⟩⟩
  | g :: l, key, count, h => by
    have hlen : charsLen (key ++ g.key) = charsLen key + g.keyLen := charsLen_append _ _
    by_cases hle : totalSize ≤ charsLen key + g.keyLen
    · refine ⟨[g], l, rfl, ?_, .inr ⟨?_, [], g, rfl, by simpa using h⟩⟩
      · simp [takeKeys, hle]
      · simpa [hlen] using hle
    · obtain ⟨touched, rest, rfl, heq, hcase⟩ := @takeKeys_spec l (key ++ g.key)
        (count + 1) (by omega)
      refine ⟨g :: touched, rest, rfl, ?_, ?_⟩
      · rw [takeKeys, if_neg hle, heq, List.flatMap_cons, List.append_assoc, List.length_cons,
          Nat.add_assoc, Nat.add_comm 1]
      · rw [List.flatMap_cons, ← List.append_assoc]
        rcases hcase with hshort | ⟨hlong, front, last, rfl, hfront⟩
        · exact .inl hshort
        · refine .inr ⟨hlong, g :: front, last, rfl, ?_⟩
          rwa [List.flatMap_cons, ← List.append_assoc]

/-! ## The new keys -/

theorem newKeys_spec {key : Bytes} (hkey : IsUnicode key) : ∀ {sizes : List UInt8}
    {consumed : Nat}, consumed + (sizes.map UInt8.toNat).sum ≤ charsLen key →
    ∃ keys, newKeys key (charsLen key) sizes consumed =
        (keys, consumed + (sizes.map UInt8.toNat).sum) ∧
      keys.map charsLen = (sizes.filter (· ≠ 0)).map UInt8.toNat ∧
      keys.flatten = utf8SubString key consumed (sizes.map UInt8.toNat).sum
  | [], consumed, _ => ⟨[], rfl, rfl, by simp [utf8SubString]⟩
  | size :: sizes, consumed, h => by
    rw [List.map_cons, List.sum_cons] at h ⊢
    by_cases hzero : size = 0
    · subst hzero
      obtain ⟨keys, heq, hlens, hflat⟩ := @newKeys_spec key hkey sizes consumed
        (by simpa using h)
      refine ⟨keys, ?_, ?_, ?_⟩
      · rw [newKeys, if_neg (by simp), heq]
        simp
      · simpa using hlens
      · simpa using hflat
    · have hpos : 0 < size.toNat := by
        rw [Nat.pos_iff_ne_zero]
        exact fun hnat => hzero (UInt8.toNat_inj.mp hnat)
      obtain ⟨keys, heq, hlens, hflat⟩ := @newKeys_spec key hkey sizes
        (consumed + size.toNat) (by omega)
      refine ⟨utf8SubString key consumed size.toNat :: keys, ?_, ?_, ?_⟩
      · rw [newKeys, if_pos ⟨hzero, by omega⟩, heq, Nat.add_assoc]
      · have hlen := (hkey.utf8SubString consumed size.toNat).2
        rw [List.filter_cons_of_pos (by simpa using hzero), List.map_cons, List.map_cons, hlens,
          hlen, Nat.min_eq_left (by omega)]
      · simp [hflat, utf8SubString_append]

/-- The characters from some character of the second text on are at its end. -/
theorem utf8SubString_suffix {front last : Bytes} (hfront : IsUnicode front)
    (hlast : IsUnicode last) {n : Nat} (hn : charsLen front ≤ n) (len : Nat)
    (hlen : charsLen (front ++ last) ≤ n + len) :
    utf8SubString (front ++ last) n len <:+ last := by
  obtain ⟨cf, hcf, rfl, -⟩ := hfront.exists_characters
  obtain ⟨cl, hcl, rfl, -⟩ := hlast.exists_characters
  have hall : ∀ u ∈ cf ++ cl, IsChar u := fun u hu =>
    (List.mem_append.mp hu).elim (hcf u) (hcl u)
  rw [← List.flatten_append] at hlen ⊢
  rw [charsLen_flatten hcf] at hn
  rw [charsLen_flatten hall, List.length_append] at hlen
  rw [utf8SubString, splitStringToUtf8Chars_flatten hall, List.drop_append,
    List.drop_of_length_le hn, List.nil_append, List.take_of_length_le (by
      rw [List.length_drop]
      omega)]
  refine ⟨(cl.take (n - cf.length)).flatten, ?_⟩
  simp [← List.flatten_append]

/-! ## All of it -/

theorem isUnicode_reading : ∀ {l : List Segment}, (∀ g ∈ l, IsUnicode g.key) →
    IsUnicode (l.flatMap Segment.key)
  | [], _ => isUnicode_nil
  | g :: l, h => by
    simpa using (h g List.mem_cons_self).append (isUnicode_reading (List.forall_mem_cons.mp h).2)

theorem reading_behind (left : Bytes) (rest : List Segment) :
    (behind left rest).flatMap Segment.key = left ++ rest.flatMap Segment.key := by
  by_cases hleft : left = []
  · rw [behind_of_nil hleft, hleft, List.nil_append]
  · rw [behind_of_ne hleft]
    cases rest <;> simp

/-- The new keys, and what they leave. -/
theorem replaceKeys_spec {key : Bytes} (hkey : IsUnicode key) (rest : List Segment)
    (hle : (newSizes.map UInt8.toNat).sum ≤ charsLen key) :
    ∃ (keys : List Bytes) (left : Bytes),
      replaceKeys key newSizes rest =
        keys.map (fun k => { segmentType := .fixedBoundary, key := k : Segment }) ++
          behind left rest ∧
      keys.map charsLen = (newSizes.filter (· ≠ 0)).map UInt8.toNat ∧
      key = keys.flatten ++ left ∧
      left = utf8SubString key (newSizes.map UInt8.toNat).sum
        (charsLen key - (newSizes.map UInt8.toNat).sum) := by
  obtain ⟨keys, heq, hlens, hflat⟩ := @newKeys_spec key hkey newSizes 0 (by simpa using hle)
  rw [Nat.zero_add] at heq
  set total := (newSizes.map UInt8.toNat).sum with htotal
  have hwhole : key = keys.flatten ++ utf8SubString key total (charsLen key - total) := by
    have happend := utf8SubString_append key 0 total (charsLen key - total)
    rw [Nat.zero_add, Nat.add_sub_cancel' hle, hkey.utf8SubString_all (Nat.le_refl _)] at happend
    rw [hflat, happend]
  refine ⟨keys, utf8SubString key total (charsLen key - total), ?_, hlens, hwhole, rfl⟩
  have hlen := (hkey.utf8SubString total (charsLen key - total)).2
  rw [Nat.min_self] at hlen
  rw [replaceKeys, heq]
  dsimp only
  by_cases hlt : total < charsLen key
  · have hne : utf8SubString key total (charsLen key - total) ≠ [] := by
      intro hnil
      rw [hnil, charsLen_nil] at hlen
      omega
    rw [if_pos hlt, behind_of_ne hne]
    cases rest <;> rfl
  · have hnil : utf8SubString key total (charsLen key - total) = [] :=
      (hkey.utf8SubString _ _).1.eq_nil_of_charsLen (by omega)
    rw [if_neg hlt, behind_of_nil hnil]

/-- **A list of segments is resized by cutting its reading anew.** The result is false when nothing
is asked for, or more than there is. -/
theorem resize_redistributes (hunicode : ∀ g ∈ s.segments.drop startIndex, IsUnicode g.key) :
    match s.resize startIndex newSizes with
    | some s' => ∃ touched rest fixed left,
      Redistributed s s' startIndex newSizes touched rest fixed left
    | none => (newSizes.map UInt8.toNat).sum = 0 ∨
      charsLen ((s.segments.drop startIndex).flatMap Segment.key) <
        (newSizes.map UInt8.toNat).sum := by
  unfold resize
  dsimp only
  set total := (newSizes.map UInt8.toNat).sum with htotal
  by_cases hzero : total = 0
  · simp [hzero]
  rw [if_neg hzero]
  obtain ⟨touched, rest, hsplit, htake, hcase⟩ := @takeKeys_spec total
    (s.segments.drop startIndex) [] 0 (Nat.pos_of_ne_zero hzero)
  rw [List.nil_append, Nat.zero_add] at htake
  simp only [List.nil_append] at hcase
  rw [htake]
  dsimp only
  rcases hcase with ⟨rfl, hshort⟩ | ⟨hlong, front, last, rfl, hfront⟩
  · rw [if_pos (.inr hshort), hsplit, List.append_nil]
    exact .inr hshort
  rw [if_neg (by omega)]
  have htouched : ∀ g ∈ front ++ [last], IsUnicode g.key := fun g hg =>
    hunicode g (by rw [hsplit]; exact List.mem_append_left _ hg)
  have hrest : s.segments.drop (startIndex + (front ++ [last]).length) = rest := by
    simp [← List.drop_drop, hsplit]
  obtain ⟨keys, left, heq, hlens, hkey, hleft⟩ :=
    replaceKeys_spec (isUnicode_reading htouched) rest hlong
  have hbefore : s.segments = s.segments.take startIndex ++ ((front ++ [last]) ++ rest) := by
    simp [← hsplit]
  rw [hrest, heq]
  refine ⟨front ++ [last], rest, _, left, hbefore, rfl, ?_, ?_, ?_, ⟨last, ?_, ?_⟩, ?_, rfl⟩
  · intro g hg
    obtain ⟨k, _, rfl⟩ := List.mem_map.mp hg
    rfl
  · rw [List.map_map]
    exact hlens
  · rw [List.flatMap_map, List.flatMap_id']
    exact hkey
  · rw [List.getLast?_concat]
  · rw [hleft, List.flatMap_append, List.flatMap_singleton]
    refine utf8SubString_suffix
      (isUnicode_reading fun g hg => htouched g (List.mem_append_left _ hg))
      (htouched last (by simp)) (Nat.le_of_lt hfront) _ ?_
    omega
  · dsimp only
    conv_rhs => rw [hbefore]
    simp only [List.flatMap_append, reading_behind, List.flatMap_map, List.flatMap_id'] at hkey ⊢
    rw [hkey]
    simp

/-- あい as one segment, cut behind the first character. -/
theorem resize_redistributes_ai :
    match resize { segments := [{ key := utf8 "あい" }] } 0 [1] with
    | some s' => ∃ touched rest fixed left,
      Redistributed { segments := [{ key := utf8 "あい" }] } s' 0 [1] touched rest fixed left
    | none => (([1] : List UInt8).map UInt8.toNat).sum = 0 ∨
      charsLen (([{ key := utf8 "あい" }] : List Segment).flatMap Segment.key) <
        (([1] : List UInt8).map UInt8.toNat).sum :=
  @resize_redistributes { segments := [{ key := utf8 "あい" }] } 0 [1] (by decide)

/-- A byte that cannot begin a character is cut as if it were one. -/
theorem not_always_redistributes : ¬ ∀ (s s' : Segments) (startIndex : Nat) (newSizes : List UInt8),
    s.resize startIndex newSizes = some s' →
      s'.segments.flatMap Segment.key = s.segments.flatMap Segment.key := by
  intro h
  exact absurd (h { segments := [{ key := [0x80, 0x61] }] } _ 0 [1] rfl) (by decide)

end Segments

end Mozkey.Converter
