import Mozkey.Base.Utf8Encode
import Mozkey.Infra.Occurrences
import Mozkey.Zenz.SystemNameDistances

/-!
# What a repair of the name does

A repaired output is the output with one window replaced by the name (`Found`), so its
distance is the old one less what was changed in the window (`editDistance_replaced`).

The two tables are about characters and the replacement is about bytes. Between them stand the
offsets, which are the lengths of the fronts (`getD_offsets`, `idxOf?_offsets`).

## Main results

* `repair_replaces_window` — what a repair is, and what the tables and boundaries of it are
-/

namespace Mozkey.Zenz.AdoptionPolicy

open Infra Base

/-! ## Code points -/

def codePoints (s : Bytes) : List Nat := (walk decodeOneUtf8 s).1

/-- A code point with the bytes that are read as it. -/
def IsSpelled (token : Nat × Bytes) : Prop :=
  token.2 ≠ [] ∧ ∀ rest, decodeOneUtf8 (token.2 ++ rest) = some (token.1, token.2.length)

def spelling (tokens : List (Nat × Bytes)) : Bytes := tokens.flatMap Prod.snd

theorem spelling_append (ts us : List (Nat × Bytes)) :
    spelling (ts ++ us) = spelling ts ++ spelling us := by
  simp [spelling]

variable {ts : List (Nat × Bytes)}

/-- The text is read as the tokens it was put together from. -/
theorem codePoints_spelling (h : ∀ token ∈ ts, IsSpelled token) (rest : Bytes) :
    codePoints (spelling ts ++ rest) = ts.map Prod.fst ++ codePoints rest := by
  rw [codePoints, spelling, walk_tokens rest ts h]
  rfl

theorem codePoints_spelling_self (h : ∀ token ∈ ts, IsSpelled token) :
    codePoints (spelling ts) = ts.map Prod.fst := by
  have hread := codePoints_spelling h []
  rw [List.append_nil] at hread
  rw [hread]
  exact List.append_nil _

/-! ## Offsets -/

def offsets (ts : List (Nat × Bytes)) : List Nat := (ts.map fun t => t.2.length).scanl (· + ·) 0

theorem getD_scanl_lengths : ∀ (ts : List (Nat × Bytes)) (start : Nat) {i : Nat}, i ≤ ts.length →
    ((ts.map fun t => t.2.length).scanl (· + ·) start).getD i 0 =
      start + (spelling (ts.take i)).length
  | [], start, i, hi => by
    obtain rfl : i = 0 := Nat.le_zero.mp hi
    simp [spelling]
  | t :: ts, start, 0, _ => by simp [spelling]
  | t :: ts, start, i + 1, hi => by
    have ih := getD_scanl_lengths ts (start + t.2.length) (Nat.le_of_succ_le_succ hi)
    have hlength :
        (spelling (t :: ts.take i)).length = t.2.length + (spelling (ts.take i)).length := by
      simp [spelling]
    rw [List.map_cons, List.scanl_cons, List.getD_cons_succ, ih, List.take_succ_cons, hlength,
      Nat.add_assoc]

/-- The offset of a character is the length of what stands in front of it. -/
theorem getD_offsets {i : Nat} (hi : i ≤ ts.length) :
    (offsets ts).getD i 0 = (spelling (ts.take i)).length := by
  rw [offsets, getD_scanl_lengths ts 0 hi, Nat.zero_add]

theorem idxOf?_offsets {o i : Nat} (h : (offsets ts).idxOf? o = some i) :
    i ≤ ts.length ∧ o = (spelling (ts.take i)).length := by
  have hfound := List.findIdx?_eq_some_iff_getElem.mp h
  obtain ⟨hlt, hget, -⟩ := hfound
  have hlength : (offsets ts).length = ts.length + 1 := by
    simp [offsets]
  have hi : i ≤ ts.length := by omega
  refine ⟨hi, ?_⟩
  simpa [← getD_offsets hi, List.getD_eq_getElem?_getD, List.getElem?_eq_getElem hlt] using
    (eq_of_beq hget).symm

/-- A text with its offsets is a list of tokens. -/
theorem decodeNameRepairScalars_spec {text : Bytes} {scalars : NameRepairScalars}
    (h : decodeNameRepairScalars text = some scalars) :
    ∃ ts : List (Nat × Bytes), (∀ token ∈ ts, IsSpelled token) ∧ text = spelling ts ∧
      scalars.chars = ts.map Prod.fst ∧ scalars.byteOffsets = offsets ts := by
  have hself : SelfRead fun s => (decodeOneUtf8 s).map fun t => (t, t.2) := by
    intro s token len hread
    obtain ⟨⟨c, n⟩, hone, heq⟩ := Option.map_eq_some_iff.mp hread
    obtain ⟨rfl, rfl⟩ := Prod.mk.inj heq
    obtain ⟨hpos, hle, hmore⟩ := decodeOneUtf8_selfRead s c n hone
    exact ⟨hpos, hle, fun rest => by dsimp only; rw [hmore rest]; rfl⟩
  unfold decodeNameRepairScalars at h
  dsimp only at h
  split at h
  · cases h
  · next hread =>
    rw [Bool.not_eq_true, Bool.or_eq_false_iff, Bool.not_eq_false', List.isEmpty_iff] at hread
    obtain ⟨tokens, htext, hchars, htokens⟩ := exists_tokens hself _ text (Nat.le_refl _) hread.1
    have hspelled : ∀ token ∈ tokens, token.1.2 = token.2.length ∧
        IsSpelled (token.1.1, token.2) := by
      intro token htoken
      obtain ⟨hne, hnext⟩ := htokens token htoken
      have hall : ∀ rest, decodeOneUtf8 (token.2 ++ rest) = some token.1 ∧
          token.1.2 = token.2.length := by
        intro rest
        obtain ⟨⟨c, n⟩, hone, heq⟩ := Option.map_eq_some_iff.mp (hnext rest)
        obtain ⟨hfst, hsnd⟩ := Prod.mk.inj heq
        rw [hone, ← hfst]
        exact ⟨rfl, hsnd⟩
      have hlen := (hall []).2
      exact ⟨hlen, hne, fun rest => by rw [(hall rest).1, ← hlen]⟩
    cases h
    refine ⟨tokens.map fun t => (t.1.1, t.2), ?_, ?_, ?_, ?_⟩
    · intro token htoken
      obtain ⟨t, ht, rfl⟩ := List.mem_map.mp htoken
      exact (hspelled t ht).2
    · rw [spelling, List.flatMap_map]
      exact htext
    · dsimp only
      simp [hchars]
    · dsimp only
      rw [hchars, offsets, List.map_map, List.map_map]
      congr 1
      exact List.map_congr_left fun t ht => (hspelled t ht).1

/-! ## Pieces of a text -/

theorem take_spelling (ts : List (Nat × Bytes)) (i : Nat) :
    (spelling ts).take (spelling (ts.take i)).length = spelling (ts.take i) := by
  conv_lhs => rw [← List.take_append_drop i ts, spelling_append, List.take_append_drop]
  exact List.take_left

theorem drop_spelling (ts : List (Nat × Bytes)) (i : Nat) :
    (spelling ts).drop (spelling (ts.take i)).length = spelling (ts.drop i) := by
  conv_lhs => rw [← List.take_append_drop i ts, spelling_append, List.take_append_drop]
  exact List.drop_left

/-- The tokens from `i` to `j`. -/
def between (ts : List (Nat × Bytes)) (i j : Nat) : List (Nat × Bytes) := (ts.drop i).take (j - i)

theorem take_append_between {i j : Nat} (hij : i ≤ j) :
    ts.take i ++ between ts i j = ts.take j := by
  rw [between, ← List.drop_take, ← Nat.min_eq_left hij, ← List.take_take, Nat.min_eq_left hij,
    List.take_append_drop]

theorem between_append_drop {i j : Nat} (hij : i ≤ j) :
    between ts i j ++ ts.drop j = ts.drop i := by
  have hdrop : ts.drop j = (ts.drop i).drop (j - i) := by rw [List.drop_drop, Nat.add_sub_of_le hij]
  simp [between, hdrop]

/-- What stands at the offset of a token, up to the offset of another. -/
theorem eq_spelling_between {i j offset : Nat} {value : Bytes} (hij : i ≤ j)
    (hbegin : offset = (spelling (ts.take i)).length)
    (hend : offset + value.length = (spelling (ts.take j)).length)
    (hvalue : ((spelling ts).drop offset).take value.length = value) :
    value = spelling (between ts i j) := by
  rw [← take_append_between hij, spelling_append, List.length_append] at hend
  have hlength : value.length = (spelling (between ts i j)).length := by omega
  rw [hbegin, drop_spelling, ← between_append_drop hij, spelling_append, hlength,
    List.take_left] at hvalue
  exact hvalue.symm

/-! ## The window -/

/-- How many characters of the window differ from the name. -/
def changedCharacters (name window : List Nat) : Nat :=
  (name.zip window).countP fun p => p.1 != p.2

theorem isSmallNameChange_spec {forward backward : List (List Nat)} {name window : List Nat}
    {nameBegin nameEnd targetBegin targetEnd distance : Nat}
    (h : isSmallNameChange forward backward name window nameBegin nameEnd targetBegin targetEnd
      distance = true) :
    1 ≤ changedCharacters name window ∧
      changedCharacters name window ≤ (if 5 ≤ name.length then 2 else 1) ∧
      entry forward nameBegin targetBegin + changedCharacters name window +
        entry backward nameEnd targetEnd = distance := by
  unfold isSmallNameChange at h
  dsimp only at h
  rw [Bool.not_eq_true', Bool.or_eq_false_iff, Bool.or_eq_false_iff, Bool.or_eq_false_iff,
    beq_eq_false_iff_ne, decide_eq_false_iff_not, Nat.not_lt, bne_eq_false_iff_eq] at h
  exact ⟨Nat.pos_of_ne_zero h.1.1.1, h.1.1.2, h.2⟩

/-- Where the name stands in both texts, by the alignment. -/
structure Aligned (source target : List Nat) (nameBegin nameEnd targetBegin targetEnd : Nat) :
    Prop where
  begin_le : nameBegin ≤ nameEnd
  end_le : nameEnd ≤ source.length
  target_begin_le : targetBegin ≤ targetEnd
  target_end_le : targetEnd ≤ target.length
  same_length : targetEnd - targetBegin = nameEnd - nameBegin
  begin_only : ∀ j, (∃ A : EditScript source target,
    A.cost = editDistance source target ∧ A.Passes nameBegin j) ↔ j = targetBegin
  end_only : ∀ j, (∃ A : EditScript source target,
    A.cost = editDistance source target ∧ A.Passes nameEnd j) ↔ j = targetEnd
  changed_pos : 1 ≤ changedCharacters ((source.drop nameBegin).take (nameEnd - nameBegin))
    ((target.drop targetBegin).take (nameEnd - nameBegin))
  changed_le : changedCharacters ((source.drop nameBegin).take (nameEnd - nameBegin))
    ((target.drop targetBegin).take (nameEnd - nameBegin)) ≤
      if 5 ≤ nameEnd - nameBegin then 2 else 1
  /-- The change of the name lies on an optimal path itself. -/
  optimal : editDistance (source.take nameBegin) (target.take targetBegin) +
    changedCharacters ((source.drop nameBegin).take (nameEnd - nameBegin))
      ((target.drop targetBegin).take (nameEnd - nameBegin)) +
    editDistance (source.drop nameEnd) (target.drop targetEnd) = editDistance source target

theorem alignedName_spec {source target : NameRepairScalars} {us : List (Nat × Bytes)}
    (hsource : source.chars = ts.map Prod.fst) (hsourceOffsets : source.byteOffsets = offsets ts)
    (htarget : target.chars = us.map Prod.fst) (htargetOffsets : target.byteOffsets = offsets us)
    {beginByte endByte first last : Nat}
    (h : alignedName source target beginByte endByte = some (first, last)) :
    ∃ nameBegin nameEnd targetBegin targetEnd,
      Aligned source.chars target.chars nameBegin nameEnd targetBegin targetEnd ∧
      beginByte = (spelling (ts.take nameBegin)).length ∧
      endByte = (spelling (ts.take nameEnd)).length ∧
      first = (spelling (us.take targetBegin)).length ∧
      last = (spelling (us.take targetEnd)).length := by
  obtain ⟨nameBegin, hbegin, h⟩ := Option.bind_eq_some_iff.mp h
  obtain ⟨nameEnd, hend, h⟩ := Option.bind_eq_some_iff.mp h
  dsimp only at h
  split at h
  · cases h
  · next hnameLength =>
    split at h
    · cases h
    · next hdistance =>
      obtain ⟨targetBegin, htargetBegin, h⟩ := Option.bind_eq_some_iff.mp h
      obtain ⟨targetEnd, htargetEnd, h⟩ := Option.bind_eq_some_iff.mp h
      split at h
      · cases h
      · next hwindow =>
        split at h
        · cases h
        · next hsmall =>
          rw [Bool.not_eq_true, Bool.or_eq_false_iff] at hnameLength
          rw [hsourceOffsets] at hbegin hend
          obtain ⟨hbegin_le, hbeginByte⟩ := idxOf?_offsets hbegin
          obtain ⟨hend_le, hendByte⟩ := idxOf?_offsets hend
          have hlength : source.chars.length = ts.length := by rw [hsource, List.length_map]
          have hlength' : target.chars.length = us.length := by rw [htarget, List.length_map]
          rw [← hlength] at hbegin_le hend_le
          obtain ⟨hfirst_le, -, hfirst⟩ := uniqueNameRepairBoundary_spec hbegin_le htargetBegin
          obtain ⟨hlast_le, -, hlast⟩ := uniqueNameRepairBoundary_spec hend_le htargetEnd
          rw [Bool.not_eq_true, Bool.or_eq_false_iff, decide_eq_false_iff_not,
            decide_eq_false_iff_not, Nat.not_lt, not_not] at hwindow
          rw [Bool.not_eq_true, Bool.not_eq_false'] at hsmall
          obtain ⟨hpos, hle, hoptimal⟩ := isSmallNameChange_spec hsmall
          rw [entry_forwardTable _ _ hbegin_le hfirst_le, entry_backwardTable _ _ hend_le hlast_le,
            entry_forwardTable _ _ (Nat.le_refl _) (Nat.le_refl _), List.take_length,
            List.take_length] at hoptimal
          have hname : ((source.chars.drop nameBegin).take (nameEnd - nameBegin)).length =
              nameEnd - nameBegin := by
            simp
            omega
          rw [hname] at hle
          cases h
          have hlong : ¬nameEnd - nameBegin < 2 := of_decide_eq_false hnameLength.1
          refine ⟨nameBegin, nameEnd, targetBegin, targetEnd, ?_, hbeginByte, hendByte, ?_, ?_⟩
          · exact ⟨by omega, hend_le, hwindow.1, hlast_le, hwindow.2, hfirst, hlast, hpos, hle,
              hoptimal⟩
          · rw [htargetOffsets, getD_offsets (hlength' ▸ hfirst_le)]
          · rw [htargetOffsets, getD_offsets (hlength' ▸ hlast_le)]

/-! ## The distance -/

theorem editDistance_le_changed {name window : List Nat} (h : name.length = window.length) :
    editDistance name window ≤ changedCharacters name window :=
  editDistance_le_mismatches h

/-- **Putting the name back takes off exactly what was changed.** -/
theorem editDistance_replaced {before name after front window rest : List Nat}
    (hlength : window.length = name.length)
    (hoptimal : editDistance before front + changedCharacters name window +
      editDistance after rest =
      editDistance (before ++ name ++ after) (front ++ window ++ rest)) :
    editDistance (before ++ name ++ after) (front ++ name ++ rest) + changedCharacters name window =
      editDistance (before ++ name ++ after) (front ++ window ++ rest) := by
  -- the name costs nothing where it stands
  have hupper : editDistance (before ++ name ++ after) (front ++ name ++ rest) ≤
      editDistance before front + editDistance after rest := by
    have houter := editDistance_append_le (before ++ name) (front ++ name) after rest
    have hinner := editDistance_append_le before front name name
    rw [editDistance_self] at hinner
    omega
  -- and from there to the output it is only the window
  have hback : editDistance (front ++ name ++ rest) (front ++ window ++ rest) ≤
      changedCharacters name window := by
    have houter := editDistance_append_le (front ++ name) (front ++ window) rest rest
    have hinner := editDistance_append_le front front name window
    have hwindow := editDistance_le_changed hlength.symm
    rw [editDistance_self] at houter hinner
    omega
  have htriangle := editDistance_triangle (before ++ name ++ after) (front ++ name ++ rest)
    (front ++ window ++ rest)
  omega

/-! ## Repairs -/

/-- The value after the call. -/
def valueAfterRepair (mozcValue : Bytes) (span : ProtectedConversionSpan) (zenzValue : Bytes) :
    Bytes :=
  (tryRepairSelectedSystemName mozcValue span zenzValue).getD zenzValue

/-- A repair, with the places of the name and of the window. -/
structure NameRepair (mozcValue : Bytes) (span : ProtectedConversionSpan)
    (zenzValue repaired : Bytes) where
  before : Bytes
  after : Bytes
  front : Bytes
  window : Bytes
  rest : Bytes
  offset : span.sourceValueOffset = some before.length
  source_eq : mozcValue = before ++ span.value ++ after
  target_eq : zenzValue = front ++ window ++ rest
  repaired_eq : repaired = front ++ span.value ++ rest
  codePoints_source :
    codePoints mozcValue = codePoints before ++ codePoints span.value ++ codePoints after
  codePoints_target :
    codePoints zenzValue = codePoints front ++ codePoints window ++ codePoints rest
  codePoints_repaired :
    codePoints repaired = codePoints front ++ codePoints span.value ++ codePoints rest
  length_window : (codePoints window).length = (codePoints span.value).length
  found_once : countOccurrences repaired span.value = 1
  /-- Whatever else there is begins inside the occurrence that was counted. -/
  occurrence : ∃ p, span.value <+: repaired.drop p ∧
    ∀ q, span.value <+: repaired.drop q → p ≤ q ∧ q < p + span.value.length
  ne_source : repaired ≠ mozcValue
  changed_pos : 1 ≤ changedCharacters (codePoints span.value) (codePoints window)
  changed_le : changedCharacters (codePoints span.value) (codePoints window) ≤ 2
  changed_short : (codePoints span.value).length < 5 →
    changedCharacters (codePoints span.value) (codePoints window) = 1
  distance : editDistance (codePoints mozcValue) (codePoints repaired) +
    changedCharacters (codePoints span.value) (codePoints window) =
      editDistance (codePoints mozcValue) (codePoints zenzValue)
  begin_only : ∀ j, (∃ A : EditScript (codePoints mozcValue) (codePoints zenzValue),
    A.cost = editDistance (codePoints mozcValue) (codePoints zenzValue) ∧
      A.Passes (codePoints before).length j) ↔ j = (codePoints front).length
  end_only : ∀ j, (∃ A : EditScript (codePoints mozcValue) (codePoints zenzValue),
    A.cost = editDistance (codePoints mozcValue) (codePoints zenzValue) ∧
      A.Passes ((codePoints before).length + (codePoints span.value).length) j) ↔
        j = (codePoints front).length + (codePoints window).length

theorem spelled_take (h : ∀ token ∈ ts, IsSpelled token) (i : Nat) :
    ∀ token ∈ ts.take i, IsSpelled token :=
  fun token ht => h token (List.mem_of_mem_take ht)

theorem spelled_between (h : ∀ token ∈ ts, IsSpelled token) (i j : Nat) :
    ∀ token ∈ between ts i j, IsSpelled token :=
  fun token ht => h token (List.mem_of_mem_drop (List.mem_of_mem_take ht))

/-- The code points of a text, at two of its tokens. -/
theorem codePoints_pieces (h : ∀ token ∈ ts, IsSpelled token) (i j : Nat) :
    codePoints (spelling (ts.take i)) = (ts.map Prod.fst).take i ∧
      codePoints (spelling (between ts i j)) = ((ts.map Prod.fst).drop i).take (j - i) ∧
      codePoints (spelling (ts.drop j)) = (ts.map Prod.fst).drop j := by
  refine ⟨?_, ?_, ?_⟩
  · simp [codePoints_spelling_self (spelled_take h i)]
  · rw [codePoints_spelling_self (spelled_between h i j), between, List.map_take, List.map_drop]
  · simp [codePoints_spelling_self fun t ht => h t (List.mem_of_mem_drop ht)]

/-- A text in three pieces, and its code points. -/
theorem spelling_eq_pieces {i j : Nat} (hij : i ≤ j) :
    spelling ts = spelling (ts.take i) ++ spelling (between ts i j) ++ spelling (ts.drop j) := by
  simp [← spelling_append, take_append_between hij]

theorem codePoints_three {us : List (Nat × Bytes)} (hts : ∀ token ∈ ts, IsSpelled token)
    (hus : ∀ token ∈ us, IsSpelled token) (rest : Bytes) :
    codePoints (spelling ts ++ spelling us ++ rest) =
      codePoints (spelling ts) ++ codePoints (spelling us) ++ codePoints rest := by
  simp [codePoints_spelling hts, codePoints_spelling hus, codePoints_spelling_self hts,
    codePoints_spelling_self hus]

/-- What the checks of the call have found, by the characters of the two texts. -/
structure Found (mozcValue : Bytes) (span : ProtectedConversionSpan) (zenzValue repaired : Bytes)
    (ts us : List (Nat × Bytes)) (nameBegin nameEnd targetBegin targetEnd : Nat) : Prop where
  source : (∀ token ∈ ts, IsSpelled token) ∧ spelling ts = mozcValue
  target : (∀ token ∈ us, IsSpelled token) ∧ spelling us = zenzValue
  aligned :
    Aligned (ts.map Prod.fst) (us.map Prod.fst) nameBegin nameEnd targetBegin targetEnd
  offset : span.sourceValueOffset = some (spelling (ts.take nameBegin)).length
  value : span.value = spelling (between ts nameBegin nameEnd)
  repaired_eq :
    repaired = spelling (us.take targetBegin) ++ span.value ++ spelling (us.drop targetEnd)
  ne_source : repaired ≠ mozcValue
  once : countOccurrences repaired span.value = 1

theorem tryRepair_found {mozcValue zenzValue repaired : Bytes} {span : ProtectedConversionSpan}
    (h : tryRepairSelectedSystemName mozcValue span zenzValue = some repaired) :
    ∃ ts us nameBegin nameEnd targetBegin targetEnd,
      Found mozcValue span zenzValue repaired ts us nameBegin nameEnd targetBegin targetEnd := by
  obtain ⟨offset, hoffset, h⟩ := Option.bind_eq_some_iff.mp h
  split at h
  · cases h
  · next hguard =>
    obtain ⟨source, hsource, h⟩ := Option.bind_eq_some_iff.mp h
    obtain ⟨target, htarget, h⟩ := Option.bind_eq_some_iff.mp h
    obtain ⟨⟨first, last⟩, haligned, h⟩ := Option.bind_eq_some_iff.mp h
    dsimp only at h
    split at h
    · cases h
    · next hfound =>
      obtain ⟨ts, hts, rfl, hchars, hoffsets⟩ := decodeNameRepairScalars_spec hsource
      obtain ⟨us, hus, rfl, hchars', hoffsets'⟩ := decodeNameRepairScalars_spec htarget
      obtain ⟨i, i', j, j', ha, hbegin, hend, rfl, rfl⟩ :=
        alignedName_spec hchars hoffsets hchars' hoffsets' haligned
      rw [hchars, hchars'] at ha
      rw [take_spelling, drop_spelling] at hfound h
      rw [Bool.not_eq_true, Bool.or_eq_false_iff, Bool.or_eq_false_iff, Bool.or_eq_false_iff,
        Bool.not_eq_false'] at hguard
      have hat := hguard.1.1.2
      rw [isAtOffset, Bool.and_eq_true] at hat
      rw [Bool.not_eq_true, Bool.or_eq_false_iff, decide_eq_false_iff_not,
        decide_eq_false_iff_not, not_not] at hfound
      cases h
      exact ⟨ts, us, i, i', j, j',
        { source := ⟨hts, rfl⟩
          target := ⟨hus, rfl⟩
          aligned := ha
          offset := by rw [hoffset, hbegin]
          value := eq_spelling_between ha.begin_le hbegin hend (eq_of_beq hat.2)
          repaired_eq := rfl
          ne_source := hfound.1
          once := hfound.2 }⟩

theorem Found.nameRepair {mozcValue zenzValue repaired : Bytes} {span : ProtectedConversionSpan}
    {us : List (Nat × Bytes)} {i i' j j' : Nat}
    (h : Found mozcValue span zenzValue repaired ts us i i' j j') :
    Nonempty (NameRepair mozcValue span zenzValue repaired) := by
  obtain ⟨hts, rfl⟩ := h.source
  obtain ⟨hus, rfl⟩ := h.target
  obtain rfl := h.repaired_eq
  have ha := h.aligned
  -- the pieces as code points
  obtain ⟨hbefore, hname, hafter⟩ := codePoints_pieces hts i i'
  obtain ⟨hfront, hwindow, hrest⟩ := codePoints_pieces hus j j'
  rw [ha.same_length] at hwindow
  have hsourceText := codePoints_three (spelled_take hts i) (spelled_between hts i i')
    (spelling (ts.drop i'))
  have htargetText := codePoints_three (spelled_take hus j) (spelled_between hus j j')
    (spelling (us.drop j'))
  have hrepairedText := codePoints_three (spelled_take hus j) (spelled_between hts i i')
    (spelling (us.drop j'))
  rw [← spelling_eq_pieces ha.begin_le, ← h.value] at hsourceText
  rw [← spelling_eq_pieces ha.target_begin_le] at htargetText
  rw [← h.value] at hrepairedText hname
  have hbeforeLength : (codePoints (spelling (ts.take i))).length = i := by
    simpa [hbefore] using Nat.min_eq_left (Nat.le_trans ha.begin_le ha.end_le)
  have hfrontLength : (codePoints (spelling (us.take j))).length = j := by
    simpa [hfront] using Nat.min_eq_left (Nat.le_trans ha.target_begin_le ha.target_end_le)
  have hnameLength : (codePoints span.value).length = i' - i := by
    have hle := ha.end_le
    rw [hname, List.length_take, List.length_drop]
    omega
  have hwindowLength : (codePoints (spelling (between us j j'))).length = i' - i := by
    have hle := ha.target_end_le
    have hsame := ha.same_length
    rw [hwindow, List.length_take, List.length_drop]
    omega
  have hpos := ha.changed_pos
  have hle := ha.changed_le
  have hoptimal := ha.optimal
  rw [← hname, ← hwindow] at hpos hle hoptimal
  rw [← hnameLength] at hle
  refine ⟨{
    before := spelling (ts.take i)
    after := spelling (ts.drop i')
    front := spelling (us.take j)
    window := spelling (between us j j')
    rest := spelling (us.drop j')
    offset := h.offset
    source_eq := by rw [h.value, ← spelling_eq_pieces ha.begin_le]
    target_eq := spelling_eq_pieces ha.target_begin_le
    repaired_eq := rfl
    codePoints_source := hsourceText
    codePoints_target := htargetText
    codePoints_repaired := hrepairedText
    length_window := by rw [hwindowLength, hnameLength]
    found_once := h.once
    occurrence := occurrence_window h.once
    ne_source := h.ne_source
    changed_pos := hpos
    changed_le := Nat.le_trans hle (by split <;> omega)
    changed_short := ?_
    distance := ?_
    begin_only := ?_
    end_only := ?_ }⟩
  · intro hshort
    rw [if_neg (by omega)] at hle
    omega
  · rw [hsourceText, hrepairedText, htargetText]
    refine editDistance_replaced (by rw [hwindowLength, hnameLength]) ?_
    rw [← hsourceText, ← htargetText, hbefore, hafter, hfront, hrest,
      codePoints_spelling_self hts, codePoints_spelling_self hus]
    have hsum := hoptimal
    omega
  · rw [codePoints_spelling_self hts, codePoints_spelling_self hus, hbeforeLength, hfrontLength]
    exact ha.begin_only
  · have hlast : j + (i' - i) = j' := by
      have hsame := ha.same_length
      have htarget := ha.target_begin_le
      have hsource := ha.begin_le
      omega
    rw [codePoints_spelling_self hts, codePoints_spelling_self hus, hbeforeLength, hfrontLength,
      hnameLength, hwindowLength, Nat.add_sub_of_le ha.begin_le, hlast]
    exact ha.end_only

/-! ## The result -/

/-- **A repair replaces one window of the name's length by the name, and the tables it was found
with are the edit distances.** Without a repair the value is as it was. -/
theorem repair_replaces_window (mozcValue : Bytes) (span : ProtectedConversionSpan)
    (zenzValue : Bytes) :
    (∀ repaired, tryRepairSelectedSystemName mozcValue span zenzValue = some repaired →
      valueAfterRepair mozcValue span zenzValue = repaired ∧
        Nonempty (NameRepair mozcValue span zenzValue repaired)) ∧
      (tryRepairSelectedSystemName mozcValue span zenzValue = none →
        valueAfterRepair mozcValue span zenzValue = zenzValue) ∧
      ∀ (source target : List Nat) (i j : Nat), i ≤ source.length → j ≤ target.length →
        entry (forwardTable source target) i j = editDistance (source.take i) (target.take j) ∧
          entry (backwardTable source target) i j =
            editDistance (source.drop i) (target.drop j) := by
  refine ⟨fun repaired h => ⟨?_, ?_⟩, fun h => ?_, fun source target i j hi hj => ?_⟩
  · simp [valueAfterRepair, h]
  · obtain ⟨ts, us, i, i', j, j', hfound⟩ := tryRepair_found h
    exact hfound.nameRepair
  · simp [valueAfterRepair, h]
  · exact ⟨entry_forwardTable source target hi hj, entry_backwardTable source target hi hj⟩

theorem repair_replaces_window_tarou :
    Nonempty (NameRepair (utf8 "小林太郎さん")
      { key := utf8 "こばやしたろう", value := utf8 "小林太郎", sourceValueOffset := some 0 }
      (utf8 "小林太朗さま") (utf8 "小林太郎さま")) :=
  ((repair_replaces_window (utf8 "小林太郎さん")
    { key := utf8 "こばやしたろう", value := utf8 "小林太郎", sourceValueOffset := some 0 }
    (utf8 "小林太朗さま")).1 (utf8 "小林太郎さま") (by decide +kernel)).2

/-- The search from the left counts the name once where it stands twice, one on the other. -/
theorem repaired_name_overlaps_itself :
    tryRepairSelectedSystemName (utf8 "さささ木")
        { key := utf8 "ささ", value := utf8 "ささ", sourceValueOffset := some 0 } (utf8 "さきさ気")
      = some (utf8 "さささ気") ∧
      ¬∃! q, utf8 "ささ" <+: (utf8 "さささ気").drop q := by
  refine ⟨by decide +kernel, fun honce => ?_⟩
  have hfirst : utf8 "ささ" <+: (utf8 "さささ気").drop 0 := by decide +kernel
  have hsecond : utf8 "ささ" <+: (utf8 "さささ気").drop 3 := by decide +kernel
  exact absurd (honce.unique hfirst hsecond) (by decide)

end Mozkey.Zenz.AdoptionPolicy
