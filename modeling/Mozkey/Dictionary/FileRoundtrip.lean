import Mozkey.Dictionary.FileSections

/-!
# What is written and what is read

A file is read back if and only if no section is empty and none is too large to be rounded up. An
image is read without leaving it if and only if its headers lead forward: from a header that does
not, the loop runs into something undefined or hands out a view that no memory can hold.
-/

namespace Mozkey.Dictionary

open Infra

variable {image : Bytes} {s t : SectionReader}

/-! ## Rounds at a given size -/

theorem readSection_of_size {n : Int} (hptr : s.ptr + 4 ≤ image.length)
    (hload : loadInt32 image s.ptr = some n) (hzero : n ≠ 0) (hlt : n < 2 ^ 31 - 3)
    (hend : s.ptr + 12 + roundedUp n ≤ image.length) {fingerprint : Bytes}
    (hname : bytesAt image (s.ptr + 4) 8 = some fingerprint) :
    readSection image s = .inl ⟨s.sectionIndex + 1, s.ptr + 12 + roundedUp n,
      s.sections ++ [⟨fingerprint, s.ptr + 12, toSizeT n⟩]⟩ := by
  have hsum : s.ptr + 4 + 8 = s.ptr + 12 := by omega
  unfold readSection
  rw [if_neg (by omega), hload]
  dsimp only
  rw [if_neg hzero, roundUp4_of_lt (loadInt32_range hload).1 hlt]
  dsimp only
  rw [hsum, if_neg (by omega), hname]

theorem readSection_of_large {n : Int} (hptr : s.ptr + 4 ≤ image.length)
    (hload : loadInt32 image s.ptr = some n) (hle : 2 ^ 31 - 3 ≤ n) :
    readSection image s = .inr .undefined := by
  unfold readSection
  rw [if_neg (by omega), hload]
  dsimp only
  rw [if_neg (by omega), roundUp4_of_le hle]

/-- The fingerprint is read from outside of the image. -/
theorem readSection_of_short {n : Int} (hptr : s.ptr + 4 ≤ image.length)
    (hload : loadInt32 image s.ptr = some n) (hzero : n ≠ 0) (hlt : n < 2 ^ 31 - 3)
    (hend : s.ptr + 12 + roundedUp n ≤ image.length)
    (hname : bytesAt image (s.ptr + 4) 8 = none) : readSection image s = .inr .undefined := by
  have hsum : s.ptr + 4 + 8 = s.ptr + 12 := by omega
  unfold readSection
  rw [if_neg (by omega), hload]
  dsimp only
  rw [if_neg hzero, roundUp4_of_lt (loadInt32_range hload).1 hlt]
  dsimp only
  rw [hsum, if_neg (by omega), hname]

theorem readSection_of_marker (hptr : s.ptr + 4 = image.length)
    (hload : loadInt32 image s.ptr = some 0) :
    readSection image s = .inr (.returned {} s.sections) := by
  unfold readSection
  rw [if_neg (by omega), hload]
  dsimp only
  rw [if_pos rfl, leave, if_neg (by omega)]

/-! ## Headers that lead backward -/

theorem IsHeader.of_first {ptr : Int} (h : IsHeader image ptr) :
    12 ≤ image.length ∧ loadInt32 image 0 = some filemagic := by
  induction h with
  | first hlength hmagic => exact ⟨hlength, hmagic⟩
  | next _ _ _ _ ih => exact ih

theorem IsHeader.exists_reaches {ptr : Int} (h : IsHeader image ptr) :
    ∃ s, Reaches (readSection image) firstSection s ∧ s.ptr = ptr := by
  induction h with
  | first _ _ => exact ⟨firstSection, .refl, rfl⟩
  | @next ptr n h hload hsize hend ih =>
    obtain ⟨s, hs, rfl⟩ := ih
    have hpos := hsize.1
    have hround := roundedUp_of_nonneg (Int.le_of_lt hpos)
    have hrange := h.range
    obtain ⟨fingerprint, hname⟩ := @exists_bytesAt image (s.ptr + 4) 8
      (by omega) (by omega)
    exact ⟨_, hs.tail (readSection_of_size (by omega) hload (by omega) hsize.2 hend hname), rfl⟩

/-- What was handed out stays in the hands of the caller. -/
theorem mem_of_returns {view : SectionView} {status : Status} {sections : List SectionView}
    (h : Returns (readSection image) s (.returned status sections)) (hview : view ∈ s.sections) :
    view ∈ sections := by
  obtain ⟨t, ht, hlast⟩ := h.invariant (I := fun s => view ∈ s.sections) (fun s t hs hstep => by
    obtain ⟨n, fingerprint, -, -, -, -, -, rfl⟩ := readSection_inl hstep
    exact List.mem_append_left _ hs) hview
  rw [(readSection_returned hlast).1]
  exact ht

/-- **Sections are read from outside of the image, or not at all, behind a header that does not
lead forward.** -/
theorem isForward_of_readsInside {image : AlignedImage} (h : ReadsInside image) :
    IsForward image.bytes := by
  intro ptr n hheader hload
  obtain ⟨fuel, status, sections, codec', hread, hinside, -⟩ := h {}
  obtain ⟨s, hs, rfl⟩ := hheader.exists_reaches
  have hfirst := hheader.of_first
  have hreturns : Returns (readSection image.bytes) s (.returned status sections) := by
    rcases readHeader_cases image.address image.bytes with
      ⟨_, -, -, hno⟩ | ⟨seed, hseed, -⟩
    · exact absurd hfirst.2 (hno image.aligned hfirst.1)
    · rw [readSections, hseed] at hread
      obtain ⟨outcome, hrun, heq⟩ := Option.map_eq_some_iff.mp hread
      obtain ⟨rfl, -⟩ := Prod.mk.inj heq
      exact (returns_of_run hrun).of_reaches hs
  obtain ⟨bytes, hbytes, -⟩ := Option.map_eq_some_iff.mp hload
  have hptr := (bytesAt_eq_some hbytes).2.1
  have hundefined : ∀ {r}, readSection image.bytes s = .inr r → r = .returned status sections :=
    fun hr => (hreturns.of_inr hr).symm
  by_cases hlt : n < 2 ^ 31 - 3
  · refine ⟨hlt, fun hneg => ?_⟩
    by_contra hend
    cases hname : bytesAt image.bytes (s.ptr + 4) 8 with
    | none =>
      cases hundefined (readSection_of_short hptr hload (by omega) hlt (by omega) hname)
    | some fingerprint =>
      have hstep := readSection_of_size hptr hload (by omega) hlt (by omega) hname
      have hmem :=
        mem_of_returns (hreturns.of_inl hstep) (List.mem_append_right _ List.mem_cons_self)
      have hsize := toSizeT_of_neg (loadInt32_range hload).1 hneg
      have hview := (hinside _ hmem).2
      have hlength := image.length_lt
      have hrange := hheader.range
      dsimp only at hview
      omega
  · cases hundefined (readSection_of_large hptr hload (by omega))

/-! ## What was written -/

theorem padFrom_eq : ∀ {k rounds : Nat} {i : Int}, 0 ≤ i → (i + k) % 4 = 0 → k < 4 → k < rounds →
    i + k ≤ int32Max → padFrom rounds i = some (List.replicate k 0)
  | 0, rounds + 1, i, hi, hmod, _, _, _ => by
    rw [padFrom, Int.tmod_eq_emod_of_nonneg hi, if_pos (by omega)]
    rfl
  | k + 1, rounds + 1, i, hi, hmod, hk, hrounds, hmax => by
    have hmax' := hmax
    unfold int32Max at hmax'
    have hnext : checkedInt (i + 1) = some (i + 1) := if_pos (by unfold int32Max; omega)
    have hrest : padFrom rounds (i + 1) = some (List.replicate k 0) :=
      padFrom_eq (by omega) (by omega) (by omega) (by omega) (by omega)
    rw [padFrom, Int.tmod_eq_emod_of_nonneg hi, if_neg (by omega), hnext, Option.bind_eq_bind,
      Option.bind_some, hrest]
    rfl

theorem toInt32_of_size {n : Int} (h : IsReadableSize n) : toInt32 n = n := by
  obtain ⟨hlo, hhi⟩ := h
  refine toInt32_of_range (by omega) ?_
  unfold int32Max
  omega

theorem pad4_of_size {n : Int} (h : IsReadableSize n) :
    ∃ padding, pad4 (toInt32 n) = some padding ∧ n + padding.length = roundedUp n := by
  obtain ⟨hlo, hlt⟩ := id h
  have hround := roundedUp_of_nonneg (Int.le_of_lt hlo)
  rw [toInt32_of_size h]
  refine ⟨List.replicate (roundedUp n - n).toNat 0, padFrom_eq (Int.le_of_lt hlo) ?_ ?_ ?_ ?_, ?_⟩
  · omega
  · omega
  · omega
  · unfold int32Max
    omega
  · simp
    omega

theorem writeSection_of_pad4 {s : DictionaryFileSection} {padding : Bytes}
    (h : pad4 (toInt32 s.image.length) = some padding) :
    writeSection s = some (int32Bytes s.image.length ++ (s.name ++ (s.image ++ padding))) := by
  rw [writeSection, h]
  rfl

/-- What a section is, as it is given to the writer. -/
def DictionaryFileSection.contents (s : DictionaryFileSection) : Bytes × Option Bytes :=
  (s.name, some s.image)

/-- **The loop reads the sections one after another, as they were written.** -/
theorem reads_written : ∀ {sections : List DictionaryFileSection},
    (∀ s ∈ sections, IsReadableSize s.image.length) → ∃ written, writeEach sections = some written ∧
      ∀ (image before : Bytes) (index : Nat) (views : List SectionView),
        image = before ++ (written ++ int32Bytes 0) → ∃ more,
          Returns (readSection image) ⟨index, before.length, views⟩
            (.returned {} (views ++ more)) ∧
          more.map (SectionView.contents image) = sections.map DictionaryFileSection.contents
  | [], _ => by
    refine ⟨[], rfl, fun image before index views himage => ⟨[], .left ?_, rfl⟩⟩
    rw [List.append_nil]
    refine readSection_of_marker ?_ ?_
    · simp [himage]
    · have hload := loadInt32_append before [] 0
      rw [List.append_nil] at hload
      rw [himage]
      simpa [toInt32] using hload
  | s :: rest, hsizes => by
    have hsize := hsizes s List.mem_cons_self
    obtain ⟨padding, hpad, hpadding⟩ := pad4_of_size hsize
    have hwrite := writeSection_of_pad4 hpad
    obtain ⟨written, hwritten, hrest⟩ := reads_written
      (List.forall_mem_cons.mp hsizes).2
    refine ⟨int32Bytes s.image.length ++ (s.name ++ (s.image ++ padding)) ++ written, ?_,
      fun image before index views himage => ?_⟩
    · simp [writeEach, hwrite, hwritten]
    -- the header of the section, its name, its data and what is behind them
    have hheader : image = before ++ (int32Bytes s.image.length ++
        (s.name ++ (s.image ++ padding) ++ (written ++ int32Bytes 0))) := by
      rw [himage]
      simp
    have hname : image = (before ++ int32Bytes s.image.length) ++
        (s.name ++ (s.image ++ padding ++ (written ++ int32Bytes 0))) := by
      rw [himage]
      simp
    have hdata : image = (before ++ int32Bytes s.image.length ++ s.name) ++
        (s.image ++ (padding ++ (written ++ int32Bytes 0))) := by
      rw [himage]
      simp
    have hbehind : image = (before ++ int32Bytes s.image.length ++ s.name ++ s.image ++ padding) ++
        (written ++ int32Bytes 0) := by
      rw [himage]
      simp
    have hlength := congrArg List.length hbehind
    simp only [List.length_append, length_int32Bytes, s.name_length] at hlength
    have hload := loadInt32_append before
      (s.name ++ (s.image ++ padding) ++ (written ++ int32Bytes 0)) s.image.length
    rw [← hheader, toInt32_of_size hsize] at hload
    have hbytes : bytesAt image (before.length + 4) 8 = some s.name := by
      have hat := bytesAt_append (before ++ int32Bytes s.image.length) s.name
        (s.image ++ padding ++ (written ++ int32Bytes 0))
      rw [← hname, s.name_length] at hat
      simpa using hat
    have hview : bytesAt image (before.length + 12) s.image.length = some s.image := by
      have hat := bytesAt_append (before ++ int32Bytes s.image.length ++ s.name) s.image
        (padding ++ (written ++ int32Bytes 0))
      rw [← hdata] at hat
      simpa [s.name_length, Int.add_assoc] using hat
    have hpos := hsize.1
    have hto : (toSizeT s.image.length : Int) = s.image.length := by
      have hlt := hsize.2
      refine toSizeT_of_nonneg (Int.le_of_lt hpos) ?_
      unfold int32Max
      omega
    obtain ⟨more, hreturns, hmore⟩ := hrest image _ (index + 1)
      (views ++ [⟨s.name, before.length + 12, s.image.length⟩]) hbehind
    have hptr :
        ((before ++ int32Bytes s.image.length ++ s.name ++ s.image ++ padding).length : Int) =
        before.length + 12 + roundedUp s.image.length := by
      simp [length_int32Bytes, s.name_length]
      omega
    rw [hptr, List.append_assoc, List.singleton_append] at hreturns
    refine ⟨⟨s.name, before.length + 12, s.image.length⟩ :: more,
      .next (readSection_of_size ?_ hload ?_ hsize.2 ?_ hbytes) ?_, ?_⟩
    · show (before.length : Int) + 4 ≤ image.length
      omega
    · omega
    · show (before.length : Int) + 12 + roundedUp s.image.length ≤ image.length
      omega
    · rw [Int.ofNat_inj.mp hto]
      exact hreturns
    · rw [List.map_cons, List.map_cons, hmore, SectionView.contents, hview]
      rfl

/-! ## Reading back -/

/-- `ReadSections` of what `WriteSections` wrote gives the sections back, in some order. -/
def ReadsBack (sections : List DictionaryFileSection) : Prop :=
  ∀ (writer reader : DictionaryFileCodec) (address : Nat), address % 4 = 0 →
    ∃ image fuel views codec, writeSections writer sections = some image ∧
      readSections fuel reader address image = some (.returned {} views, codec) ∧
      (views.map (SectionView.contents image)).Perm
        (sections.map DictionaryFileSection.contents)

theorem writtenOrder_perm (sections : List DictionaryFileSection) :
    (writtenOrder sections).Perm sections := by
  unfold writtenOrder
  split
  · exact .cons _ (.swap _ _ _)
  · exact .refl _

theorem readsBack_of_readable {sections : List DictionaryFileSection}
    (h : ∀ s ∈ sections, IsReadableSize s.image.length) : ReadsBack sections := by
  intro writer reader address haddress
  have hperm := writtenOrder_perm sections
  obtain ⟨written, hwritten, hreads⟩ := reads_written fun s hs => h s (hperm.mem_iff.mp hs)
  obtain ⟨views, hreturns, hviews⟩ := hreads _ (writeHeader writer) 0 [] rfl
  have hwrites : writeSections writer sections =
      some (writeHeader writer ++ (written ++ int32Bytes 0)) := by
    rw [writeSections, hwritten]
    rfl
  have hmagic : loadInt32 (writeHeader writer ++ (written ++ int32Bytes 0)) 0 = some filemagic := by
    have hload :=
      loadInt32_append [] (int32Bytes writer.seed ++ (written ++ int32Bytes 0)) filemagic
    rw [List.nil_append, ← List.append_assoc] at hload
    exact hload
  obtain ⟨fuel, hrun⟩ := hreturns.exists_run
  rcases readHeader_cases address (writeHeader writer ++ (written ++ int32Bytes 0)) with
    ⟨_, -, -, hno⟩ | ⟨seed, hheader, -⟩
  · refine absurd hmagic (hno haddress ?_)
    simp [writeHeader, length_int32Bytes]
    omega
  · refine ⟨_, fuel, views, ⟨seed⟩, hwrites, ?_, ?_⟩
    · rw [readSections, hheader]
      show (run _ fuel firstSection).map _ = _
      exact congrArg (Option.map _) hrun
    · rw [hviews]
      exact hperm.map _

/-- What the loop hands out is as large as a size that can be rounded up, or too large. -/
theorem size_of_returns {status : Status} {sections : List SectionView}
    (h : Returns (readSection image) s (.returned status sections))
    (hs : ∀ view ∈ s.sections, IsReadableSize view.size ∨ 2 ^ 63 ≤ view.size) :
    ∀ view ∈ sections, IsReadableSize view.size ∨ 2 ^ 63 ≤ view.size := by
  obtain ⟨t, ht, hlast⟩ := h.invariant
    (I := fun s => ∀ view ∈ s.sections, IsReadableSize view.size ∨ 2 ^ 63 ≤ view.size)
    (fun s t hs hstep => by
      obtain ⟨n, fingerprint, hload, hzero, hlt, -, -, rfl⟩ := readSection_inl hstep
      have hrange := loadInt32_range hload
      rintro view hview
      rcases List.mem_append.mp hview with hview | hview
      · exact hs view hview
      · rw [List.mem_singleton.mp hview]
        by_cases hneg : n < 0
        · exact Or.inr (toSizeT_of_neg hrange.1 hneg)
        · refine Or.inl ?_
          show IsReadableSize (toSizeT n)
          rw [toSizeT_of_nonneg (by omega) hrange.2]
          exact ⟨by omega, hlt⟩) hs
  rw [(readSection_returned hlast).1]
  exact ht

theorem readable_of_readsBack {sections : List DictionaryFileSection} (h : ReadsBack sections) :
    ∀ s ∈ sections, IsReadableSize s.image.length := by
  intro s hs
  obtain ⟨image, fuel, views, codec, -, hread, hperm⟩ := h {} {} 0 rfl
  have hsizes : ∀ view ∈ views, IsReadableSize view.size ∨ 2 ^ 63 ≤ view.size := by
    rcases readHeader_cases 0 image with ⟨status, hheader, hcode, -⟩ | ⟨seed, hheader, -⟩
    · rw [readSections, hheader, Option.some.injEq, Prod.mk.injEq, ReadOutcome.returned.injEq]
        at hread
      exact absurd (congrArg Status.code hread.1.1) hcode
    · rw [readSections, hheader] at hread
      obtain ⟨outcome, hrun, heq⟩ := Option.map_eq_some_iff.mp hread
      obtain ⟨rfl, -⟩ := Prod.mk.inj heq
      exact size_of_returns (returns_of_run hrun) (by simp [firstSection])
  have hmem := hperm.mem_iff.mpr (List.mem_map_of_mem hs)
  obtain ⟨view, hview, heq⟩ := List.mem_map.mp hmem
  obtain ⟨hstart, hend, htake⟩ := bytesAt_eq_some (congrArg Prod.snd heq)
  have hlength : s.image.length = view.size := by
    simp [← htake]
    omega
  have hlt := s.image_lt
  rcases hsizes view hview with hsize | hsize
  · rw [hlength]
    exact hsize
  · omega

/-- **A file is read back if and only if no section is empty or has 2 ^ 31 - 3 bytes or more. An
image is read without leaving it if and only if its headers lead forward.** -/
theorem readsBack_iff_and_readsInside_iff (sections : List DictionaryFileSection)
    (image : AlignedImage) :
    (ReadsBack sections ↔ ∀ s ∈ sections, IsReadableSize s.image.length) ∧
      (ReadsInside image ↔ IsForward image.bytes) ∧
      (IsForward image.bytes → RejectsOrReadsInside image) :=
  ⟨⟨readable_of_readsBack, readsBack_of_readable⟩,
    ⟨isForward_of_readsInside, readsInside_of_isForward⟩,
    fun h => (readsInside_of_isForward h).rejects⟩

/-- An empty section. -/
def emptySection : DictionaryFileSection := ⟨utf8 "section1", [], by decide +kernel, by decide⟩

/-- A section whose end is its own header. -/
def backwardImage : AlignedImage where
  address := 0
  bytes := writeHeader {} ++ (int32Bytes (-12) ++ (utf8 "section1" ++ int32Bytes 0))
  aligned := rfl
  length_lt := by decide +kernel

theorem not_readsBack_and_not_rejects :
    ¬ReadsBack [emptySection] ∧ ¬RejectsOrReadsInside backwardImage := by
  constructor
  · intro h
    exact absurd (readable_of_readsBack h _ List.mem_cons_self).1 (by decide)
  · intro h
    obtain ⟨fuel, status, sections, codec, hread, -⟩ := h {}
    have hheader : readHeader backwardImage.address backwardImage.bytes = .inl 2135654146 := by
      decide +kernel
    rw [readSections, hheader] at hread
    obtain ⟨outcome, hrun, -⟩ := Option.map_eq_some_iff.mp hread
    -- the loop comes back to the header
    refine not_terminates_of_invariant (I := fun s => s.ptr = 8) (fun s hs => ?_) rfl
      ⟨fuel, outcome, hrun⟩
    have hstep : readSection backwardImage.bytes s = .inl ⟨s.sectionIndex + 1,
        s.ptr + 12 + roundedUp (-12), s.sections ++
          [⟨utf8 "section1", s.ptr + 12, toSizeT (-12)⟩]⟩ := by
      refine readSection_of_size ?_ ?_ (by decide) (by decide) ?_ ?_ <;> rw [hs] <;> decide +kernel
    refine ⟨_, hstep, ?_⟩
    show s.ptr + 12 + roundedUp (-12) = 8
    rw [hs]
    decide

end Mozkey.Dictionary
