import Mozkey.Composer.Splitting
import Mozkey.Composer.TypingTotal

/-!
# Cutting a composition

A position is counted in the characters of the displayed text. The text is cut there by splitting
the chunk that the position falls into, and a character is deleted by splitting it off.

* `cuts_between_characters` — a composition whose chunks split well is cut between characters
-/

namespace Mozkey.Composer

open Infra Base

namespace Composition

variable {forms : CharacterForms}

/-! ## Texts and lengths -/

@[simp] theorem textOf_nil : textOf forms [] = [] := rfl

@[simp] theorem textOf_cons (c : CharChunk) (chunks : List CharChunk) :
    textOf forms (c :: chunks) = c.result forms .localT12r ++ textOf forms chunks := rfl

@[simp] theorem textOf_append (chunks chunks' : List CharChunk) :
    textOf forms (chunks ++ chunks') = textOf forms chunks ++ textOf forms chunks' :=
  List.flatMap_append

@[simp] theorem lengthOf_nil : lengthOf forms .localT12r [] = 0 := rfl

@[simp] theorem lengthOf_cons (c : CharChunk) (chunks : List CharChunk) :
    lengthOf forms .localT12r (c :: chunks)
      = c.getLength forms .localT12r + lengthOf forms .localT12r chunks := by
  simp [lengthOf]

@[simp] theorem lengthOf_append (chunks chunks' : List CharChunk) :
    lengthOf forms .localT12r (chunks ++ chunks')
      = lengthOf forms .localT12r chunks + lengthOf forms .localT12r chunks' := by
  simp [lengthOf]

theorem lengthOf_eq_charsLen : ∀ chunks : List CharChunk,
    lengthOf forms .localT12r chunks = charsLen (textOf forms chunks)
  | [] => rfl
  | c :: chunks => by
    rw [lengthOf_cons, textOf_cons, charsLen_append, lengthOf_eq_charsLen chunks,
      CharChunk.getLength]

def AllUnicode (forms : CharacterForms) (chunks : List CharChunk) : Prop :=
  ∀ c ∈ chunks, IsUnicode (c.result forms .localT12r)

theorem AllUnicode.textOf : ∀ {chunks : List CharChunk}, AllUnicode forms chunks →
    IsUnicode (textOf forms chunks)
  | [], _ => isUnicode_nil
  | _ :: _, h => (h _ List.mem_cons_self).append
    (AllUnicode.textOf (List.forall_mem_cons.mp h).2)

theorem charsLen_utf8SubString {s : Bytes} (h : IsUnicode s) {n : Nat} (hn : n ≤ charsLen s) :
    charsLen (utf8SubString s 0 n) = n := by
  obtain ⟨hchars, -, hlen⟩ := chars_of_isUnicode h
  simp [utf8SubString_zero, charsLen_flatten fun u hu => hchars u (List.mem_of_mem_take hu)]
  omega

/-! ## The chunk at a position -/

theorem getChunkFrom_position {found : ChunkAt} : ∀ {chunks left : List CharChunk} {position : Nat},
    getChunkFrom forms .localT12r left chunks position = some found →
    (position ≤ lengthOf forms .localT12r chunks →
        lengthOf forms .localT12r found.left + found.innerPosition
            = lengthOf forms .localT12r left + position ∧
          found.innerPosition ≤ found.chunk.getLength forms .localT12r ∧
          (found.left = left ∨ 0 < found.innerPosition)) ∧
      (lengthOf forms .localT12r chunks < position → found.right = [] ∧
        found.innerPosition = found.chunk.getLength forms .localT12r)
  | [], _, _, h => by cases h
  | [chunk], left, position, h => by
    rw [getChunkFrom] at h
    rw [← Option.some.inj h, lengthOf_cons, lengthOf_nil]
    dsimp only
    refine ⟨fun hle => ⟨by omega, by omega, Or.inl rfl⟩, fun hlt => ⟨rfl, by omega⟩⟩
  | chunk :: next :: right, left, position, h => by
    rw [getChunkFrom] at h
    · split at h
      · next hlt =>
        obtain ⟨hin, hout⟩ := getChunkFrom_position h
        rw [lengthOf_cons]
        refine ⟨fun hle => ?_, fun hlt' => hout (by omega)⟩
        obtain ⟨hsum, hinner, hleft⟩ := hin (by omega)
        rw [lengthOf_append, lengthOf_cons, lengthOf_nil] at hsum
        refine ⟨by omega, hinner, Or.inr ?_⟩
        rcases hleft with hleft | hpos
        · rw [hleft, lengthOf_append, lengthOf_cons, lengthOf_nil] at hsum
          omega
        · exact hpos
      · next hle =>
        rw [← Option.some.inj h, lengthOf_cons]
        dsimp only
        exact ⟨fun _ => ⟨rfl, by omega, Or.inl rfl⟩, fun hlt => by omega⟩
    · intro h
      cases h

theorem getChunkFrom_ne_none : ∀ (chunks left : List CharChunk) (position : Nat), chunks ≠ [] →
    getChunkFrom forms .localT12r left chunks position ≠ none
  | [], _, _, h => absurd rfl h
  | [chunk], left, position, _ => by simp [getChunkFrom]
  | chunk :: next :: right, left, position, _ => by
    rw [getChunkFrom]
    · split
      · exact getChunkFrom_ne_none (next :: right) _ _ (List.cons_ne_nil _ _)
      · simp
    · intro h
      cases h

variable {position : Nat} {chunks : List CharChunk}

theorem getChunkAt_eq_none (h : getChunkAt forms chunks position .localT12r = none) :
    chunks = [] := by
  by_contra hne
  exact getChunkFrom_ne_none chunks [] position hne h

/-- The chunks end at the position, and not before their last one. -/
def EndsAt (forms : CharacterForms) (left : List CharChunk) (position : Nat) : Prop :=
  lengthOf forms .localT12r left = position ∧
    ∀ c, left.getLast? = some c → 0 < c.getLength forms .localT12r

theorem getChunkFrom_endsAt {last : CharChunk} (right : List CharChunk)
    (hlast : 0 < last.getLength forms .localT12r) : ∀ (left before : List CharChunk),
    getChunkFrom forms .localT12r before (left ++ last :: right)
        (lengthOf forms .localT12r left + last.getLength forms .localT12r)
      = some ⟨before ++ left, last, right, last.getLength forms .localT12r⟩
  | [], before => by
    rw [List.nil_append, lengthOf_nil, Nat.zero_add, List.append_nil]
    cases right with
    | nil => rw [getChunkFrom, Nat.min_self]
    | cons next right =>
      rw [getChunkFrom]
      · exact if_neg (Nat.lt_irrefl _)
      · intro h
        cases h
  | c :: left, before => by
    have ih := getChunkFrom_endsAt right hlast left (before ++ [c])
    rw [List.cons_append, getChunkFrom]
    · rw [lengthOf_cons, if_pos (by omega), show c.getLength forms .localT12r +
        lengthOf forms .localT12r left + last.getLength forms .localT12r
        - c.getLength forms .localT12r = lengthOf forms .localT12r left +
          last.getLength forms .localT12r from by omega, ih, List.append_assoc,
        List.singleton_append]
    · simp

/-- A position between chunks. -/
theorem maybeSplitChunkAt_endsAt {left right : List CharChunk} (h : EndsAt forms left position) :
    maybeSplitChunkAt forms (left ++ right) position = (left, right) := by
  obtain ⟨hlen, hlast⟩ := h
  rcases List.eq_nil_or_concat left with rfl | ⟨front, last, rfl⟩
  · rw [lengthOf_nil] at hlen
    subst hlen
    rw [List.nil_append]
    cases hfound : getChunkAt forms right 0 .localT12r with
    | none =>
      rw [getChunkAt_eq_none hfound]
      rfl
    | some found =>
      obtain ⟨hsum, -, hleft⟩ := (getChunkFrom_position hfound).1 (Nat.zero_le _)
      rw [lengthOf_nil] at hsum
      have hnil : found.left = [] := hleft.resolve_right (by omega)
      rw [maybeSplitChunkAt, hfound]
      dsimp only
      rw [if_pos (by simp [hnil]; omega)]
  · rw [List.concat_eq_append] at hlen hlast ⊢
    have hpos := hlast last (by simp)
    rw [lengthOf_append, lengthOf_cons, lengthOf_nil, Nat.add_zero] at hlen
    have hfound := getChunkFrom_endsAt right hpos front []
    rw [hlen, List.nil_append] at hfound
    rw [maybeSplitChunkAt, getChunkAt, List.append_assoc, List.singleton_append, hfound]
    dsimp only
    rw [if_neg (by simp; omega), if_pos rfl]

/-! ## Cutting at a position -/

/-- The chunk that the position falls into splits well. -/
def SplitsAt (forms : CharacterForms) (chunks : List CharChunk) (position : Nat) : Prop :=
  ∀ found, getChunkAt forms chunks position .localT12r = some found →
    0 < found.innerPosition → found.innerPosition < found.chunk.getLength forms .localT12r →
    found.chunk.SplitsWell forms found.innerPosition

/-- The chunks on either side of the position. -/
structure CutAt (forms : CharacterForms) (chunks left right : List CharChunk) (position : Nat) :
    Prop where
  text : textOf forms left ++ textOf forms right = textOf forms chunks
  validLeft : AllUnicode forms left
  validRight : AllUnicode forms right
  length : lengthOf forms .localT12r left = min position (lengthOf forms .localT12r chunks)
  endsAt : position ≤ lengthOf forms .localT12r chunks → EndsAt forms left position

theorem maybeSplitChunkAt_cut (hvalid : AllUnicode forms chunks)
    (hsplits : SplitsAt forms chunks position) :
    CutAt forms chunks (maybeSplitChunkAt forms chunks position).1
      (maybeSplitChunkAt forms chunks position).2 position := by
  cases hfound : getChunkAt forms chunks position .localT12r with
  | none =>
    rw [getChunkAt_eq_none hfound]
    refine ⟨rfl, fun c hc => (by cases hc), fun c hc => (by cases hc), ?_,
      fun hle => ⟨?_, fun c hc => (by cases hc)⟩⟩
    · rw [lengthOf_nil, Nat.min_zero]
      rfl
    · rw [lengthOf_nil, Nat.le_zero] at hle
      rw [hle]
      rfl
  | some found =>
    obtain ⟨hin, hout⟩ := getChunkFrom_position hfound
    have hchunks := getChunkAt_chunks hfound
    rw [lengthOf_nil, Nat.zero_add] at hin
    have hlength : lengthOf forms .localT12r chunks = lengthOf forms .localT12r found.left +
        (found.chunk.getLength forms .localT12r + lengthOf forms .localT12r found.right) := by
      rw [← hchunks, lengthOf_append, lengthOf_cons]
    have hleft : AllUnicode forms found.left := by
      intro c hc
      refine hvalid c ?_
      rw [← hchunks]
      exact List.mem_append_left _ hc
    have hchunk : IsUnicode (found.chunk.result forms .localT12r) := by
      refine hvalid _ ?_
      simp [← hchunks]
    have hright : AllUnicode forms found.right := by
      intro c hc
      refine hvalid c ?_
      simp [← hchunks, hc]
    have hfront : ∀ c, IsUnicode (c.result forms .localT12r) →
        AllUnicode forms (found.left ++ [c]) := by
      intro c hc c' hc'
      rcases List.mem_append.mp hc' with hc' | hc'
      · exact hleft c' hc'
      · rwa [List.mem_singleton.mp hc']
    rw [maybeSplitChunkAt, hfound]
    dsimp only
    by_cases hbegin : found.left = [] ∧ found.innerPosition = 0
    · -- nothing is on the left
      rw [if_pos (by simp [hbegin])]
      rw [hbegin.1, hbegin.2, lengthOf_nil] at hin
      rw [hbegin.1, lengthOf_nil] at hlength
      refine ⟨rfl, fun c hc => (by cases hc), hvalid, ?_, fun hle =>
        ⟨?_, fun c hc => (by cases hc)⟩⟩
      · rw [lengthOf_nil]
        by_cases hle : position ≤ lengthOf forms .localT12r chunks
        · have hsum := (hin hle).1
          omega
        · obtain ⟨hnil, hinner⟩ := hout (by omega)
          rw [hnil, lengthOf_nil] at hlength
          rw [hbegin.2] at hinner
          omega
      · have hsum := (hin hle).1
        rw [lengthOf_nil]
        omega
    · rw [if_neg (by simpa using hbegin)]
      by_cases hend : found.innerPosition = found.chunk.getLength forms .localT12r
      · -- the chunk ends here
        rw [if_pos hend]
        have hsum : lengthOf forms .localT12r (found.left ++ [found.chunk])
            = lengthOf forms .localT12r found.left + found.innerPosition := by
          simp [lengthOf_append, lengthOf_cons, lengthOf_nil, hend]
        refine ⟨?_, hfront _ hchunk, hright, ?_, fun hle => ⟨?_, fun c hc => ?_⟩⟩
        · simp [← hchunks]
        · rw [hsum]
          by_cases hle : position ≤ lengthOf forms .localT12r chunks
          · have hposition := (hin hle).1
            omega
          · obtain ⟨hnil, -⟩ := hout (by omega)
            rw [hnil, lengthOf_nil] at hlength
            omega
        · rw [hsum]
          exact (hin hle).1
        · rw [List.getLast?_append, List.getLast?_singleton, Option.some_or,
            Option.some.injEq] at hc
          rw [← hc, ← hend]
          rcases (hin hle).2.2 with hnil | hpos
          · exact Nat.pos_of_ne_zero fun hzero => hbegin ⟨hnil, hzero⟩
          · exact hpos
      · rw [if_neg hend]
        have hle : position ≤ lengthOf forms .localT12r chunks := by
          by_contra hlt
          exact hend (hout (by omega)).2
        obtain ⟨hsum, hinner, hpos⟩ := hin hle
        have hpos : 0 < found.innerPosition := by
          rcases hpos with hnil | hpos
          · exact Nat.pos_of_ne_zero fun hzero => hbegin ⟨hnil, hzero⟩
          · exact hpos
        have hlt : found.innerPosition < found.chunk.getLength forms .localT12r := by omega
        obtain ⟨left, right, hsplit, hl, hr⟩ :=
          CharChunk.splitChunk_result (hsplits found hfound hpos hlt) hpos hlt hchunk
        rw [hsplit]
        have hleftLength : left.getLength forms .localT12r = found.innerPosition := by
          rw [CharChunk.getLength, hl]
          exact charsLen_utf8SubString hchunk hinner
        have hfrontLength : lengthOf forms .localT12r (found.left ++ [left]) = position := by
          rw [lengthOf_append, lengthOf_cons, lengthOf_nil, hleftLength]
          omega
        refine ⟨?_, hfront _ ?_, fun c hc => ?_, ?_, fun _ => ⟨hfrontLength, fun c hc => ?_⟩⟩
        · rw [← hchunks]
          simp only [textOf_append, textOf_cons, textOf_nil, List.append_nil, List.append_assoc]
          rw [← List.append_assoc (left.result forms .localT12r), hl, hr,
            utf8SubString_append_utf8Rest hchunk]
        · rw [hl]
          exact isUnicode_utf8SubString hchunk _
        · rcases List.mem_cons.mp hc with rfl | hc
          · simpa [hr] using isUnicode_utf8Rest hchunk _
          · exact hright c hc
        · rw [hfrontLength]
          omega
        · rw [List.getLast?_append, List.getLast?_singleton, Option.some_or,
            Option.some.injEq] at hc
          rw [← hc, hleftLength]
          exact hpos

/-! ## Deleting a character -/

/-- The first chunk that shows something splits well behind its first character. -/
def DeletesFirst (forms : CharacterForms) (right : List CharChunk) : Prop :=
  ∀ c rest, (right.dropWhile fun c => c.getLength forms .localT12r = 0) = c :: rest →
    1 < c.getLength forms .localT12r → c.SplitsWell forms 1

theorem deleteStep_endsAt {left rest : List CharChunk} {chunk : CharChunk} {size newPosition : Nat}
    (hends : EndsAt forms left position)
    (hsize : lengthOf forms .localT12r (left ++ chunk :: rest) = size) :
    deleteStep forms size position (left ++ chunk :: rest, newPosition) =
      if chunk.getLength forms .localT12r ≤ 1 then .inl (left ++ rest, position)
      else
        match chunk.splitChunk forms .localT12r 1 with
        | some (_, chunk) => .inl (left ++ chunk :: rest, position)
        | none => .inl (left ++ chunk :: rest, position) := by
  rw [deleteStep]
  dsimp only
  rw [if_neg (by simp [hsize]), maybeSplitChunkAt_endsAt hends]
  rcases hsplit : chunk.splitChunk forms .localT12r 1 with _ | ⟨_, _⟩ <;>
    simp only [hends.1, hsplit]

theorem deleteStep_of_length {size newPosition : Nat}
    (h : lengthOf forms .localT12r chunks ≠ size) :
    deleteStep forms size position (chunks, newPosition) = .inr (chunks, newPosition) := by
  rw [deleteStep]
  dsimp only
  rw [if_pos (by simp [h])]

theorem utf8Rest_utf8Rest {s : Bytes} (hs : IsUnicode s) (m n : Nat) :
    utf8Rest (utf8Rest s m) n = utf8Rest s (m + n) := by
  simp [utf8Rest, splitStringToUtf8Chars_flatten fun u hu => (chars_of_isUnicode hs).1 u
    (List.mem_of_mem_drop hu)]

theorem utf8Rest_append {s t : Bytes} (hs : IsUnicode s) (ht : IsUnicode t) {n : Nat}
    (hn : n ≤ charsLen s) : utf8Rest (s ++ t) n = utf8Rest s n ++ t := by
  rw [(chars_of_isUnicode hs).2.2] at hn
  simp [utf8Rest, chars_append hs ht, List.drop_append_of_le_length hn, (chars_of_isUnicode ht).2.1]

/-- **The loop of `DeleteAt` removes what shows nothing, and then one character.** -/
theorem run_deleteStep {left : List CharChunk} {size : Nat} (hends : EndsAt forms left position) :
    ∀ (right : List CharChunk) (newPosition : Nat),
    AllUnicode forms right → DeletesFirst forms right →
    lengthOf forms .localT12r (left ++ right) = size → position < size →
    ∃ fuel chunks, run (deleteStep forms size position) fuel (left ++ right, newPosition)
        = some (chunks, position) ∧
      textOf forms chunks = textOf forms left ++ utf8Rest (textOf forms right) 1
  | [], newPosition, _, _, hsize, hlt => by
    simp [hends.1] at hsize
    omega
  | c :: rest, newPosition, hvalid, hfirst, hsize, hlt => by
    have hstep := @deleteStep_endsAt forms position left rest c size newPosition hends hsize
    have hc := hvalid c List.mem_cons_self
    have hrest : AllUnicode forms rest := (List.forall_mem_cons.mp hvalid).2
    rw [lengthOf_append, lengthOf_cons] at hsize
    by_cases hzero : c.getLength forms .localT12r = 0
    · -- the chunk shows nothing
      rw [if_pos (by omega)] at hstep
      have hfirst' : DeletesFirst forms rest := by
        rw [DeletesFirst, List.dropWhile_cons, if_pos (by simp [hzero])] at hfirst
        exact hfirst
      obtain ⟨fuel, chunks, hrun, htext⟩ := run_deleteStep hends rest position hrest hfirst'
        (by rw [lengthOf_append]; omega) hlt
      refine ⟨fuel + 1, chunks, by rw [run_of_inl hstep, hrun], ?_⟩
      simp [htext, textOf_cons, hc.eq_nil_of_charsLen hzero]
    · have hone : 1 ≤ charsLen (c.result forms .localT12r) := by
        rw [CharChunk.getLength] at hzero
        omega
      rw [textOf_cons, utf8Rest_append hc hrest.textOf hone]
      by_cases hle : c.getLength forms .localT12r ≤ 1
      · -- it shows one character
        rw [if_pos hle] at hstep
        refine ⟨2, left ++ rest, ?_, ?_⟩
        · rw [run_of_inl hstep]
          exact run_of_inr (deleteStep_of_length (by rw [lengthOf_append]; omega)) 0
        · have hall := (cut_append hc isUnicode_nil).2
          rw [List.append_nil, show charsLen (c.result forms .localT12r) = 1 by
            rw [CharChunk.getLength] at hle; omega] at hall
          simp [textOf_append, hall]
      · rw [if_neg hle] at hstep
        have hwell := hfirst c rest (by rw [List.dropWhile_cons, if_neg (by simp [hzero])])
          (by omega)
        obtain ⟨l, r, hsplit, -, hr⟩ := CharChunk.splitChunk_result hwell Nat.one_pos (by omega) hc
        rw [hsplit] at hstep
        have hparts := utf8SubString_append_utf8Rest hc 1
        have hlength : r.getLength forms .localT12r + 1 = c.getLength forms .localT12r := by
          have hcount := congrArg charsLen hparts
          rw [charsLen_append, charsLen_utf8SubString hc hone] at hcount
          simp [CharChunk.getLength, hr]
          omega
        refine ⟨2, left ++ r :: rest, ?_, ?_⟩
        · rw [run_of_inl hstep]
          exact run_of_inr (deleteStep_of_length (by
            rw [lengthOf_append, lengthOf_cons]; omega)) 0
        · rw [textOf_append, textOf_cons, hr]

/-- **A character of a composition is deleted.** -/
theorem deleteAt_of_lt {comp : Composition} (hvalid : AllUnicode forms comp.chunks)
    (hsplits : SplitsAt forms comp.chunks position)
    (hfirst : DeletesFirst forms (maybeSplitChunkAt forms comp.chunks position).2)
    (hlt : position < comp.getLength forms) :
    ∃ fuel comp', comp.deleteAt forms fuel position = some (comp', position) ∧
      comp'.getString forms = utf8SubString (comp.getString forms) 0 position ++
        utf8Rest (comp.getString forms) (position + 1) := by
  have hcut := maybeSplitChunkAt_cut hvalid hsplits
  have hends := hcut.endsAt (Nat.le_of_lt hlt)
  have hlength : lengthOf forms .localT12r ((maybeSplitChunkAt forms comp.chunks position).1 ++
      (maybeSplitChunkAt forms comp.chunks position).2) = comp.getLength forms := by
    rw [lengthOf_eq_charsLen, textOf_append, hcut.text, ← lengthOf_eq_charsLen, getLength]
  obtain ⟨fuel, chunks, hrun, htext⟩ := run_deleteStep hends _ position hcut.validRight hfirst
    hlength hlt
  refine ⟨fuel, { comp with chunks := chunks }, ?_, ?_⟩
  · -- the first round splits in the same way
    have hsame : deleteStep forms (comp.getLength forms) position (comp.chunks, position) =
        deleteStep forms (comp.getLength forms) position
          ((maybeSplitChunkAt forms comp.chunks position).1 ++
            (maybeSplitChunkAt forms comp.chunks position).2, position) := by
      have hnil : ∀ chunks, lengthOf forms .localT12r chunks = comp.getLength forms →
          chunks.isEmpty = false := by
        rintro chunks hsize
        cases chunks with
        | nil =>
          rw [lengthOf_nil] at hsize
          omega
        | cons c chunks => rfl
      have hsplit := @maybeSplitChunkAt_endsAt forms position _
        (maybeSplitChunkAt forms comp.chunks position).2 hends
      rw [deleteStep, deleteStep]
      dsimp only
      rw [if_neg (by simp [hnil comp.chunks rfl, getLength]),
        if_neg (by simp [hnil _ hlength, hlength]), hsplit]
    have hrun' : run (deleteStep forms (comp.getLength forms) position) fuel
        (comp.chunks, position) = some (chunks, position) := by
      cases fuel with
      | zero => cases hrun
      | succ fuel =>
        rw [run] at hrun ⊢
        rwa [hsame]
    rw [deleteAt, hrun']
    rfl
  · have htext' := hcut.text
    have hleft : charsLen (textOf forms (maybeSplitChunkAt forms comp.chunks position).1)
        = position := by
      rw [← lengthOf_eq_charsLen, hends.1]
    have hparts := cut_append hcut.validLeft.textOf hcut.validRight.textOf
    rw [htext', hleft] at hparts
    show textOf forms chunks = utf8SubString (textOf forms comp.chunks) 0 position ++
      utf8Rest (textOf forms comp.chunks) (position + 1)
    rw [htext, ← hparts.2, utf8Rest_utf8Rest hvalid.textOf, hparts.1]

/-- Behind the end no chunk is split, unless nothing is shown of the last one. -/
theorem maybeSplitChunkAt_end (hnil : chunks ≠ [])
    (hle : lengthOf forms .localT12r chunks ≤ position)
    (hvisible : position = lengthOf forms .localT12r chunks ∨ chunks.length = 1 →
      ∀ last, chunks.getLast? = some last → 0 < last.getLength forms .localT12r) :
    maybeSplitChunkAt forms chunks position = (chunks, []) := by
  cases hfound : getChunkAt forms chunks position .localT12r with
  | none => exact absurd (getChunkAt_eq_none hfound) hnil
  | some found =>
    obtain ⟨hin, hout⟩ := getChunkFrom_position hfound
    have hchunks := getChunkAt_chunks hfound
    have hlength : lengthOf forms .localT12r chunks = lengthOf forms .localT12r found.left +
        (found.chunk.getLength forms .localT12r + lengthOf forms .localT12r found.right) := by
      rw [← hchunks, lengthOf_append, lengthOf_cons]
    have hend : found.right = [] ∧
        found.innerPosition = found.chunk.getLength forms .localT12r ∧
        ¬(found.left = [] ∧ found.innerPosition = 0) := by
      by_cases heq : position = lengthOf forms .localT12r chunks
      · -- nothing is shown behind the chunk, so it is the last one
        have hlast := hvisible (Or.inl heq)
        obtain ⟨hsum, hinner, -⟩ := hin (Nat.le_of_eq heq)
        rw [lengthOf_nil, Nat.zero_add] at hsum
        have hright : found.right = [] := by
          rcases List.eq_nil_or_concat found.right with hright | ⟨front, last, hright⟩
          · exact hright
          · rw [List.concat_eq_append] at hright
            have hpos := hlast last (by
              rw [← hchunks, hright, ← List.cons_append, ← List.append_assoc, List.getLast?_concat])
            rw [hright, lengthOf_append, lengthOf_cons] at hlength
            omega
        have hpos := hlast found.chunk (by rw [← hchunks, hright]; simp)
        rw [hright, lengthOf_nil] at hlength
        exact ⟨hright, by omega, by omega⟩
      · obtain ⟨hright, hinner⟩ := hout (by omega)
        refine ⟨hright, hinner, ?_⟩
        rintro ⟨hleft, hzero⟩
        rw [hleft, hright, List.nil_append] at hchunks
        have hpos := hvisible (Or.inr (by rw [← hchunks]; rfl)) found.chunk
          (by rw [← hchunks]; rfl)
        omega
    obtain ⟨hright, hinner, hbegin⟩ := hend
    rw [maybeSplitChunkAt, hfound]
    dsimp only
    rw [if_neg (by simpa using hbegin), if_pos hinner, ← hchunks, hright]

/-- **Behind its end nothing is deleted.** -/
theorem deleteAt_of_le {comp : Composition} (hle : comp.getLength forms ≤ position)
    (hvisible : position = comp.getLength forms ∨ comp.chunks.length = 1 →
      ∀ last, comp.chunks.getLast? = some last → 0 < last.getLength forms .localT12r) :
    ∃ fuel newPosition, comp.deleteAt forms fuel position = some (comp, newPosition) := by
  by_cases hnil : comp.chunks = []
  · refine ⟨1, position, ?_⟩
    have hstep : deleteStep forms (comp.getLength forms) position (comp.chunks, position)
        = .inr (comp.chunks, position) := by
      rw [deleteStep]
      dsimp only
      rw [if_pos (by simp [hnil])]
    rw [deleteAt, run_of_inr hstep 0]
    rfl
  · have hsplit := maybeSplitChunkAt_end hnil hle hvisible
    have hstep : deleteStep forms (comp.getLength forms) position (comp.chunks, position)
        = .inr (comp.chunks, lengthOf forms .localT12r comp.chunks) := by
      rw [deleteStep]
      dsimp only
      rw [if_neg (by simp [hnil, getLength]), hsplit]
    refine ⟨1, lengthOf forms .localT12r comp.chunks, ?_⟩
    rw [deleteAt, run_of_inr hstep 0]
    rfl

/-! ## Cuts between characters -/

/-- What is asked of a composition and a position. -/
structure Cuttable (forms : CharacterForms) (comp : Composition) (position : Nat) : Prop where
  valid : AllUnicode forms comp.chunks
  splits : SplitsAt forms comp.chunks position
  /-- A chunk that begins at the position is split behind its first character. -/
  deletes : position < comp.getLength forms →
    DeletesFirst forms (maybeSplitChunkAt forms comp.chunks position).2
  /-- `DeleteAt` also removes a chunk at the end that shows nothing. -/
  visible : position = comp.getLength forms ∨ comp.chunks.length = 1 →
    comp.getLength forms ≤ position →
    ∀ last, comp.chunks.getLast? = some last → 0 < last.getLength forms .localT12r

/-- **A composition is cut between characters.** The conversion and the pending text of a chunk that
is split are those that the transliterator hands out, and the sizes are not subtracted below 0. -/
theorem cuts_between_characters (forms : CharacterForms) (comp : Composition) (position : Nat)
    (h : Cuttable forms comp position) :
    (textOf forms ((maybeSplitChunkAt forms comp.chunks position).1 ++
          (maybeSplitChunkAt forms comp.chunks position).2) = comp.getString forms ∧
        textOf forms (maybeSplitChunkAt forms comp.chunks position).1
          = utf8SubString (comp.getString forms) 0 (min position (comp.getLength forms))) ∧
      (position < comp.getLength forms →
        ∃ fuel comp', comp.deleteAt forms fuel position = some (comp', position) ∧
          comp'.getString forms = utf8SubString (comp.getString forms) 0 position ++
            utf8Rest (comp.getString forms) (position + 1)) ∧
      (comp.getLength forms ≤ position →
        ∃ fuel newPosition, comp.deleteAt forms fuel position = some (comp, newPosition)) ∧
      ∀ found left right, getChunkAt forms comp.chunks position .localT12r = some found →
        found.chunk.splitChunk forms .localT12r found.innerPosition = some (left, right) →
        let texts := found.chunk.splitTexts forms .localT12r found.innerPosition
        left.conversion ++ left.pending ++ (right.conversion ++ right.pending)
            = texts.convertedLhs ++ texts.convertedRhs ∧
          (found.chunk.conversion.length < texts.convertedLhs.length ∨
            found.chunk.pending.length ≤ texts.convertedRhs.length) := by
  have hcut := maybeSplitChunkAt_cut h.valid h.splits
  refine ⟨⟨?_, ?_⟩, fun hlt => deleteAt_of_lt h.valid h.splits (h.deletes hlt) hlt,
    fun hle => deleteAt_of_le hle fun hend => h.visible hend hle, ?_⟩
  · rw [textOf_append, hcut.text, getString]
  · have hparts := (cut_append hcut.validLeft.textOf hcut.validRight.textOf).1
    rw [hcut.text, ← lengthOf_eq_charsLen, hcut.length] at hparts
    exact hparts.symm
  · intro found left right hfound hsplit
    obtain ⟨hpos, hlen⟩ := CharChunk.splitChunk_some hsplit
    have hfits := (h.splits found hfound hpos hlen).fits
    refine ⟨(CharChunk.splitChunk_parts_iff hsplit).mpr hfits, ?_⟩
    unfold CharChunk.Fits at hfits
    dsimp only at hfits
    split at hfits
    · next hlt => exact Or.inl hlt
    · exact Or.inr hfits.length_le

/-- "kya" with a "t" behind it. -/
def kyat : Composition where
  table := ⟨0, Table.new⟩
  chunks := [{
    transliterator := .conversionString
    table := ⟨0, Table.new⟩
    raw := utf8 "kyat"
    conversion := utf8 "きゃ"
    pending := utf8 "t" }]

theorem kyat_cuttable : Cuttable sameForms kyat 1 := by
  refine ⟨?_, ?_, fun _ => ?_, ?_⟩
  · unfold AllUnicode
    decide
  · intro found hfound _ _
    rw [← Option.some.inj hfound]
    exact ⟨Or.inl rfl, by unfold CharChunk.Fits; decide, trivial, fun _ => rfl, fun h => by cases h⟩
  · rintro c rest hright _
    rw [← (List.cons.inj hright).1]
    exact ⟨Or.inl rfl, by unfold CharChunk.Fits; decide, trivial, fun _ => rfl, fun h => by cases h⟩
  · rintro - hle
    exact absurd hle (by decide)

theorem kyat_delete : ∃ fuel comp', kyat.deleteAt sameForms fuel 1 = some (comp', 1) ∧
    comp'.getString sameForms = utf8 "きt" := by
  obtain ⟨fuel, comp', hdelete, htext⟩ :=
    (cuts_between_characters sameForms kyat 1 kyat_cuttable).2.1 (by decide)
  refine ⟨fuel, comp', hdelete, htext.trans ?_⟩
  decide

/-! ## Compositions that are cut elsewhere -/

/-- A displayed ambiguous result, for which a longer input may still be typed. -/
def ambiguousRules : List Rule :=
  [⟨utf8 "ab", utf8 "かき", [], { displayAmbiguousResult := true }⟩, ⟨utf8 "abc", utf8 "く", [], {}⟩]

def ambiguousTable : SharedTable := ⟨0, (Table.new.addRules 2 ambiguousRules).getD Table.new⟩

/-- **The result is shown, but what was typed is cut.** -/
theorem cut_elsewhere : ¬∀ forms table t12r keys fuel comp,
    pressAll forms fuel ⟨table, t12r, []⟩ keys = .ok comp → ∀ position,
      textOf forms ((maybeSplitChunkAt forms comp.chunks position).1 ++
        (maybeSplitChunkAt forms comp.chunks position).2) = comp.getString forms := by
  intro h
  have hcut := h sameForms ambiguousTable .conversionString [typedAt 0 (utf8 "ab")] 2 _ rfl 1
  revert hcut
  decide

/-- The pending text has a special key, of which nothing is shown. -/
def hiddenRules : List Rule := [⟨utf8 "x", utf8 "ぁ", utf8 "\x7b*\x7dぁ", {}⟩]

def hiddenTable : SharedTable := ⟨0, (Table.new.addRules 2 hiddenRules).getD Table.new⟩

/-- What is left of the chunk when its first character is split off. -/
def hiddenChunk : CharChunk where
  transliterator := .conversionString
  table := hiddenTable
  raw := utf8 "ぁ"
  conversion := utf8 "ぁ"
  pending := codepointToUtf8 0xF001 ++ utf8 "ぁ"

/-- **The first character is split off without end**, as the chunk that is left still shows two. -/
theorem delete_hangs : ∃ comp,
    pressAll sameForms 2 ⟨hiddenTable, .conversionString, []⟩ [typedAt 0 (utf8 "x")] = .ok comp ∧
      ∀ fuel, comp.deleteAt sameForms fuel 0 = none := by
  refine ⟨_, rfl, fun fuel => ?_⟩
  have hfirst : deleteStep sameForms 2 0 ([{ hiddenChunk with raw := utf8 "x" }], 0)
      = .inl ([hiddenChunk], 0) := rfl
  have hagain : deleteStep sameForms 2 0 ([hiddenChunk], 0) = .inl ([hiddenChunk], 0) := rfl
  have hnot : ¬Terminates (deleteStep sameForms 2 0) ([hiddenChunk], 0) := by
    refine not_terminates_of_invariant (I := fun s => s = ([hiddenChunk], 0)) ?_ rfl
    rintro s rfl
    exact ⟨_, hagain, rfl⟩
  have hnone : run (deleteStep sameForms 2 0) fuel ([{ hiddenChunk with raw := utf8 "x" }], 0)
      = none := by
    cases hrun :
      run (deleteStep sameForms 2 0) fuel ([{ hiddenChunk with raw := utf8 "x" }], 0) with
    | none => rfl
    | some r => exact absurd ((terminates_of_inl hfirst).mp ⟨fuel, r, hrun⟩) hnot
  exact congrArg (Option.map _) hnone

end Composition

end Mozkey.Composer
