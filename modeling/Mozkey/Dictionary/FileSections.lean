import Mozkey.Dictionary.FileCodec

/-!
# Reading a dictionary file

A file is a chain of headers, each of which says where the next one is. As long as the sizes of the
chain are sizes that the writer could have written, the sections lie one behind another inside the
image. A section of a negative size has its end in front of its data, and its view is larger than
any memory.
-/

namespace Mozkey.Dictionary

open Infra

variable {image : Bytes} {s t : SectionReader}

/-! ## Sizes -/

/-- A size that is neither the end marker nor too large to be rounded up. -/
def IsReadableSize (n : Int) : Prop := 0 < n ∧ n < 2 ^ 31 - 3

theorem roundedUp_of_nonneg {n : Int} (h : 0 ≤ n) :
    n ≤ roundedUp n ∧ roundedUp n ≤ n + 3 ∧ roundedUp n % 4 = 0 := by
  unfold roundedUp
  rw [Int.tmod_eq_emod_of_nonneg h, Int.tmod_eq_emod_of_nonneg (by omega)]
  omega

theorem roundedUp_of_neg {n : Int} (h : n < 0) : n ≤ roundedUp n ∧ roundedUp n ≤ 0 := by
  have hrem : n.tmod 4 = -((-n) % 4) := by
    rw [← Int.tmod_eq_emod_of_nonneg (by omega), Int.neg_tmod, Int.neg_neg]
  unfold roundedUp
  rw [hrem, Int.tmod_eq_emod_of_nonneg (by omega)]
  omega

theorem roundUp4_of_lt {n : Int} (hlo : -2 ^ 31 ≤ n) (hhi : n < 2 ^ 31 - 3) :
    roundUp4 n = some (roundedUp n) := by
  rw [roundUp4, checkedInt, if_pos]
  unfold int32Max
  by_cases h : 0 ≤ n
  · have := roundedUp_of_nonneg h
    omega
  · have := roundedUp_of_neg (show n < 0 by omega)
    omega

theorem roundUp4_of_le {n : Int} (hlo : 2 ^ 31 - 3 ≤ n) : roundUp4 n = none := by
  have := roundedUp_of_nonneg (show 0 ≤ n by omega)
  rw [roundUp4, checkedInt, if_neg]
  unfold int32Max
  omega

theorem roundUp4_eq_some {n padded : Int} (h : roundUp4 n = some padded) :
    padded = roundedUp n ∧ n < 2 ^ 31 - 3 := by
  by_cases hn : 2 ^ 31 - 3 ≤ n
  · simp [roundUp4_of_le hn] at h
  · unfold roundUp4 checkedInt at h
    split at h
    · exact ⟨(Option.some.inj h).symm, by omega⟩
    · cases h

/-! ## One round -/

theorem readSection_inl (h : readSection image s = .inl t) :
    ∃ n fingerprint, loadInt32 image s.ptr = some n ∧ n ≠ 0 ∧ n < 2 ^ 31 - 3 ∧
      s.ptr + 12 + roundedUp n ≤ image.length ∧
      bytesAt image (s.ptr + 4) 8 = some fingerprint ∧
      t = ⟨s.sectionIndex + 1, s.ptr + 12 + roundedUp n,
        s.sections ++ [⟨fingerprint, s.ptr + 12, toSizeT n⟩]⟩ := by
  unfold readSection at h
  split at h
  · cases h
  · split at h
    · cases h
    · next n hload =>
      split at h
      · cases h
      · next hzero =>
        split at h
        · cases h
        · next padded hround =>
          obtain ⟨rfl, hlt⟩ := roundUp4_eq_some hround
          dsimp only at h
          split at h
          · cases h
          · next hend =>
            split at h
            · cases h
            · next fingerprint hname =>
              have hptr : s.ptr + 4 + 8 = s.ptr + 12 := by omega
              rw [hptr] at h hend
              exact ⟨n, fingerprint, hload, hzero, hlt, by omega, hname, (Sum.inl.inj h).symm⟩

/-- The loop is left without an error behind an end marker, at the end of the image. -/
theorem readSection_returned {status : Status} {sections : List SectionView}
    (h : readSection image s = .inr (.returned status sections)) :
    sections = s.sections ∧
      (status.code = .ok → loadInt32 image s.ptr = some 0 ∧ s.ptr + 4 = image.length) := by
  unfold readSection at h
  split at h
  · cases h
    exact ⟨rfl, fun hok => by cases hok⟩
  · split at h
    · cases h
    · next n hload =>
      split at h
      · next hzero =>
        rw [Sum.inr.injEq, leave] at h
        split at h
        · cases h
          exact ⟨rfl, fun hok => by cases hok⟩
        · next hend =>
          cases h
          exact ⟨rfl, fun _ => ⟨hzero ▸ hload, not_not.mp hend⟩⟩
      · split at h
        · cases h
        · dsimp only at h
          split at h
          · cases h
            exact ⟨rfl, fun hok => by cases hok⟩
          · split at h <;> cases h

/-- What is undefined is a read outside of the image, or the rounding of a size. -/
theorem readSection_undefined (h : readSection image s = .inr .undefined) :
    s.ptr + 4 ≤ image.length ∧ ∀ n, loadInt32 image s.ptr = some n →
      n < 2 ^ 31 - 3 → -2 ^ 31 ≤ n ∧ s.ptr + 12 + roundedUp n ≤ image.length ∧
        bytesAt image (s.ptr + 4) 8 = none := by
  unfold readSection at h
  split at h
  · cases h
  · next hlength =>
    refine ⟨by omega, fun n hload hlt => ?_⟩
    have hlo := (loadInt32_range hload).1
    rw [hload] at h
    dsimp only at h
    split at h
    · rw [Sum.inr.injEq, leave] at h
      split at h <;> cases h
    · rw [roundUp4_of_lt hlo hlt] at h
      dsimp only at h
      split at h
      · cases h
      · split at h
        · next hend hname => exact ⟨hlo, by omega, hname⟩
        · cases h

/-! ## The chain of headers -/

/-- Where the loop looks for a header, as long as the sizes are readable. -/
inductive IsHeader (image : Bytes) : Int → Prop where
  | first : 12 ≤ image.length → loadInt32 image 0 = some filemagic → IsHeader image 8
  | next {ptr n : Int} : IsHeader image ptr → loadInt32 image ptr = some n → IsReadableSize n →
      ptr + 12 + roundedUp n ≤ image.length → IsHeader image (ptr + 12 + roundedUp n)

/-- No header holds a size that cannot be rounded up, or a negative one whose section ends inside
the image. -/
def IsForward (image : Bytes) : Prop :=
  ∀ ptr n, IsHeader image ptr → loadInt32 image ptr = some n →
    n < 2 ^ 31 - 3 ∧ (n < 0 → image.length < ptr + 12 + roundedUp n)

theorem IsHeader.range {ptr : Int} (h : IsHeader image ptr) : 8 ≤ ptr ∧ ptr ≤ image.length := by
  induction h with
  | first hlength _ => omega
  | next _ _ hsize hend ih =>
    have hpos := hsize.1
    have hround := roundedUp_of_nonneg (Int.le_of_lt hpos)
    omega

/-! ## Sections inside the image -/

def SectionView.IsInside (image : Bytes) (view : SectionView) : Prop :=
  0 ≤ view.start ∧ view.start + view.size ≤ image.length

/-- One section lies behind the other. -/
def SectionView.IsBefore (a b : SectionView) : Prop := a.start + a.size ≤ b.start

/-- The image ends in the end marker, and the sections lie in front of it. -/
def EndsWithMarker (image : Bytes) (sections : List SectionView) : Prop :=
  loadInt32 image (image.length - 4) = some 0 ∧
    ∀ view ∈ sections, view.start + view.size ≤ image.length - 4

/-- The state of the loop at a header. -/
structure SectionReader.IsAtHeader (image : Bytes) (s : SectionReader) : Prop where
  header : IsHeader image s.ptr
  start_nonneg : ∀ view ∈ s.sections, 0 ≤ view.start
  end_le : ∀ view ∈ s.sections, view.start + view.size ≤ s.ptr
  sorted : s.sections.Pairwise SectionView.IsBefore

/-- A round in an image whose headers lead forward. -/
theorem SectionReader.IsAtHeader.next (hs : s.IsAtHeader image) (himage : IsForward image)
    (h : readSection image s = .inl t) : t.IsAtHeader image ∧ s.ptr < t.ptr := by
  obtain ⟨n, fingerprint, hload, hzero, hlt, hend, -, rfl⟩ := readSection_inl h
  have hpos : 0 < n := by
    have := (himage _ _ hs.header hload).2
    omega
  have hround := roundedUp_of_nonneg (Int.le_of_lt hpos)
  have hsize : (toSizeT n : Int) = n :=
    toSizeT_of_nonneg (Int.le_of_lt hpos) (loadInt32_range hload).2
  have hptr := hs.header.range
  refine ⟨⟨hs.header.next hload ⟨hpos, hlt⟩ hend, ?_, ?_, ?_⟩,
    show s.ptr < s.ptr + 12 + roundedUp n by omega⟩
  · rintro view hview
    rcases List.mem_append.mp hview with hview | hview
    · exact hs.start_nonneg view hview
    · rw [List.mem_singleton.mp hview]
      show 0 ≤ s.ptr + 12
      omega
  · rintro view hview
    rcases List.mem_append.mp hview with hview | hview
    · have := hs.end_le view hview
      show _ ≤ s.ptr + 12 + roundedUp n
      omega
    · rw [List.mem_singleton.mp hview]
      show s.ptr + 12 + (toSizeT n : Int) ≤ s.ptr + 12 + roundedUp n
      omega
  · refine List.pairwise_append.mpr ⟨hs.sorted, List.pairwise_singleton _ _, ?_⟩
    intro a ha b hb
    rw [List.mem_singleton.mp hb]
    have := hs.end_le a ha
    show a.start + a.size ≤ s.ptr + 12
    omega

/-- Nothing is undefined at a header that leads forward. -/
theorem SectionReader.IsAtHeader.defined (hs : s.IsAtHeader image) (himage : IsForward image) :
    readSection image s ≠ .inr .undefined := by
  intro h
  obtain ⟨hlength, hbad⟩ := readSection_undefined h
  have hptr := hs.header.range
  obtain ⟨n, hload⟩ := exists_loadInt32 (show 0 ≤ s.ptr by omega) hlength
  obtain ⟨hlt, hneg⟩ := himage _ _ hs.header hload
  obtain ⟨-, hend, hname⟩ := hbad n hload hlt
  have hnonneg : 0 ≤ n := by omega
  have hround := roundedUp_of_nonneg hnonneg
  rw [bytesAt, if_pos (by omega)] at hname
  cases hname

/-! ## Every image -/

/-- A block of memory that is aligned at a 32-bit boundary, as long as a view can be. -/
structure AlignedImage where
  address : Nat
  bytes : Bytes
  aligned : address % 4 = 0
  length_lt : bytes.length < 2 ^ 63

/-- The image is rejected, or its sections lie inside of it up to an end marker at its end. -/
def RejectsOrReadsInside (image : AlignedImage) : Prop :=
  ∀ codec, ∃ fuel status sections codec',
    readSections fuel codec image.address image.bytes =
      some (.returned status sections, codec') ∧
    (status.code ≠ .ok ∨ ((∀ view ∈ sections, view.IsInside image.bytes) ∧
      sections.Pairwise SectionView.IsBefore ∧ EndsWithMarker image.bytes sections))

/-- Nothing outside of the image is handed out, not even along with an error. -/
def ReadsInside (image : AlignedImage) : Prop :=
  ∀ codec, ∃ fuel status sections codec',
    readSections fuel codec image.address image.bytes =
      some (.returned status sections, codec') ∧
    (∀ view ∈ sections, view.IsInside image.bytes) ∧ sections.Pairwise SectionView.IsBefore ∧
    (status.code = .ok → EndsWithMarker image.bytes sections)

theorem ReadsInside.rejects {image : AlignedImage} (h : ReadsInside image) :
    RejectsOrReadsInside image := by
  intro codec
  obtain ⟨fuel, status, sections, codec', hread, hinside, hsorted, hend⟩ := h codec
  refine ⟨fuel, status, sections, codec', hread, ?_⟩
  by_cases hok : status.code = .ok
  · exact Or.inr ⟨hinside, hsorted, hend hok⟩
  · exact Or.inl hok

/-- The header is checked: the loop is entered behind the magic number, or there is an error. -/
theorem readHeader_cases (address : Nat) (image : Bytes) :
    (∃ status, readHeader address image = .inr (.returned status []) ∧ status.code ≠ .ok ∧
      (address % 4 = 0 → 12 ≤ image.length → loadInt32 image 0 ≠ some filemagic)) ∨
    ∃ seed, readHeader address image = .inl seed ∧ 12 ≤ image.length ∧
      loadInt32 image 0 = some filemagic := by
  unfold readHeader
  split
  · exact Or.inl ⟨_, rfl, by simp, fun _ h => by omega⟩
  · split
    · next haddress => exact Or.inl ⟨_, rfl, by simp, fun h => absurd h haddress⟩
    · next hlength _ =>
      obtain ⟨magic, hmagic⟩ :=
        exists_loadInt32 (Int.le_refl 0) (show 0 + 4 ≤ (image.length : Int) by omega)
      obtain ⟨seed, hseed⟩ := exists_loadInt32 (show (0 : Int) ≤ 4 by omega)
        (show 4 + 4 ≤ (image.length : Int) by omega)
      simp only [hmagic, hseed]
      split
      · next hne => exact Or.inl ⟨_, rfl, by simp, fun _ _ h => hne (Option.some.inj h)⟩
      · next heq => exact Or.inr ⟨_, rfl, by omega, by rw [not_not.mp heq]⟩

theorem isAtHeader_first (hlength : 12 ≤ image.length)
    (hmagic : loadInt32 image 0 = some filemagic) :
    firstSection.IsAtHeader image where
  header := .first hlength hmagic
  start_nonneg := by simp [firstSection]
  end_le := by simp [firstSection]
  sorted := .nil

/-- **Headers that lead forward are read to the end.** -/
theorem readsInside_of_isForward {image : AlignedImage} (himage : IsForward image.bytes) :
    ReadsInside image := by
  intro codec
  rcases readHeader_cases image.address image.bytes with
    ⟨status, hheader, hcode, -⟩ | ⟨seed, hheader, hlength, hmagic⟩
  · refine ⟨0, status, [], codec, by rw [readSections, hheader], by simp, .nil, ?_⟩
    exact fun hok => absurd hok hcode
  · have hfirst := isAtHeader_first hlength hmagic
    have hends : Terminates (readSection image.bytes) firstSection := by
      refine terminates_of_lt Nat.lt_wfRel.wf
        (fun s : SectionReader => (image.bytes.length - s.ptr).toNat)
        (I := SectionReader.IsAtHeader image.bytes) (fun s t hs hstep => ?_) hfirst
      obtain ⟨ht, hlt⟩ := hs.next himage hstep
      have hrange := ht.header.range
      exact ⟨ht, show _ < _ by omega⟩
    obtain ⟨fuel, outcome, hrun⟩ := hends
    obtain ⟨s, hs, hlast⟩ := (returns_of_run hrun).invariant
      (fun s t hs hstep => (hs.next himage hstep).1) hfirst
    cases outcome with
    | undefined => exact absurd hlast (hs.defined himage)
    | returned status sections =>
      obtain ⟨rfl, hok⟩ := readSection_returned hlast
      have hrange := hs.header.range
      refine ⟨fuel, status, s.sections, ⟨seed⟩, by rw [readSections, hheader, hrun]; rfl, ?_,
        hs.sorted, fun hcode => ?_⟩
      · intro view hview
        have := hs.end_le view hview
        exact ⟨hs.start_nonneg view hview, by omega⟩
      · obtain ⟨hmarker, hend⟩ := hok hcode
        have hptr : s.ptr = image.bytes.length - 4 := by omega
        exact ⟨hptr ▸ hmarker, fun view hview => hptr ▸ hs.end_le view hview⟩

end Mozkey.Dictionary
