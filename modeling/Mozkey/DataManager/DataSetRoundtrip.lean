import Mathlib.Data.List.Forall2
import Mathlib.Data.List.Nodup
import Mozkey.DataManager.DataSet

/-!
# What is read of a data set that was written

The writer puts the chunks one behind the other, and the reader finds them there. It rejects an
entry that begins where the metadata begin, and metadata of no bytes, so a data set can be read if
and only if the last chunk has data (`roundtrip_iff`).
-/

namespace Mozkey.DataManager

open Infra DataSetReader

/-- What the entry of a chunk says of it. -/
structure Kept (image : Bytes) (c : Chunk) (e : Entry) : Prop where
  name : e.name = c.name
  size : e.size.toNat = c.data.length
  data : (image.drop e.offset.toNat).take c.data.length = c.data
  fits : e.offset.toNat + c.data.length ≤ image.length
  /-- Alignments are in bits. -/
  aligned : e.offset.toNat % (c.alignment / 8) = 0

variable {image : Bytes} {entries : List Entry}

theorem Kept.append {c : Chunk} {e : Entry} (h : Kept image c e) (more : Bytes) :
    Kept (image ++ more) c e where
  name := h.name
  size := h.size
  data := by
    have hfits := h.fits
    rw [List.drop_append_of_le_length (by omega), List.take_append_of_le_length (by
      rw [List.length_drop]
      omega), h.data]
  fits := by
    have hfits := h.fits
    simp
    omega
  aligned := h.aligned

theorem DataSetReader.Laid.append {lo hi hi' : Nat} {e : Entry} (h : Laid lo hi entries)
    (hlo : lo ≤ hi) (he : hi ≤ e.offset.toNat) (hhi : e.offset.toNat + e.size.toNat ≤ hi') :
    Laid lo hi' (entries ++ [e]) where
  inside f hf := by
    rcases List.mem_append.mp hf with hf | hf
    · have hin := h.inside f hf
      omega
    · rw [List.mem_singleton.mp hf]
      omega
  apart := by
    refine List.pairwise_append.mpr ⟨h.apart, List.pairwise_singleton .., fun f hf g hg => ?_⟩
    rw [List.mem_singleton.mp hg]
    have hin := (h.inside f hf).2
    omega

namespace DataSetWriter

variable {magic : Bytes} {chunks : List Chunk} {w w' : DataSetWriter} {c : Chunk}

theorem appendPadding_spec (image : Bytes) {alignment : Nat}
    (h : isValidAlignment alignment = true) :
    ∃ padding, appendPadding image alignment = image ++ padding ∧
      (appendPadding image alignment).length % (alignment / 8) = 0 := by
  simp only [isValidAlignment, Bool.and_eq_true, decide_eq_true_eq] at h
  have hpos : 0 < alignment / 8 := Nat.div_pos h.1 (by decide)
  unfold appendPadding
  dsimp only
  split
  · refine ⟨_, rfl, ?_⟩
    have hlt := Nat.mod_lt image.length hpos
    have hsplit := Nat.div_add_mod image.length (alignment / 8)
    have hlen : image.length + (alignment / 8 - image.length % (alignment / 8)) =
        alignment / 8 * (image.length / (alignment / 8)) + alignment / 8 := by omega
    simp [hlen]
  · exact ⟨[], by simp, by omega⟩

/-- What the writer has when it was given some chunks. -/
structure Written (magic : Bytes) (chunks : List Chunk) (w : DataSetWriter) : Prop where
  magic_prefix : magic <+: w.image
  names : ∀ name, name ∈ w.seenNames ↔ name ∈ chunks.map Chunk.name
  nodup : (chunks.map Chunk.name).Nodup
  kept : List.Forall₂ (Kept w.image) chunks w.metadata
  laid : Laid magic.length w.image.length w.metadata
  last : ∀ e ∈ w.metadata.getLast?, e.offset.toNat + e.size.toNat = w.image.length

theorem written_new (magic : Bytes) : Written magic [] { image := magic } where
  magic_prefix := List.prefix_refl _
  names := by simp
  nodup := by simp
  kept := .nil
  laid := .nil _ _
  last := by simp

/-- `Add` puts one more chunk behind the others. -/
theorem Written.add (h : Written magic chunks w) (hadd : w.add c = some w')
    (hsize : w'.image.length < 2 ^ 64) : Written magic (chunks ++ [c]) w' := by
  unfold DataSetWriter.add at hadd
  split at hadd
  · cases hadd
  · next hcheck =>
    obtain ⟨hnew, halign⟩ := not_or.mp hcheck
    obtain ⟨padding, hpadding, haligned⟩ := appendPadding_spec w.image (by simpa using halign)
    simp only [Option.some.injEq] at hadd
    subst hadd
    dsimp only at hsize
    rw [List.length_append] at hsize
    have hoffset : (UInt64.ofNat (appendPadding w.image c.alignment).length).toNat =
        (appendPadding w.image c.alignment).length := by
      rw [UInt64.toNat_ofNat', Nat.mod_eq_of_lt (by omega)]
    have hlen : (UInt64.ofNat c.data.length).toNat = c.data.length := by
      rw [UInt64.toNat_ofNat', Nat.mod_eq_of_lt (by omega)]
    have hle : w.image.length ≤ (appendPadding w.image c.alignment).length := by
      rw [hpadding, List.length_append]
      omega
    have hmagic : magic.length ≤ w.image.length := h.magic_prefix.length_le
    have himage : appendPadding w.image c.alignment ++ c.data = w.image ++ (padding ++ c.data) := by
      simp [hpadding]
    refine ⟨?_, ?_, ?_, ?_, ?_, ?_⟩
    · dsimp only
      rw [himage]
      exact h.magic_prefix.trans (List.prefix_append _ _)
    · intro name
      simp [h.names name, or_comm]
    · rw [List.map_append, List.nodup_append]
      refine ⟨h.nodup, by simp, fun a ha b hb hab => ?_⟩
      simp only [List.map_cons, List.map_nil, List.mem_singleton] at hb
      rw [hab, hb] at ha
      exact hnew ((h.names _).mpr ha)
    · refine List.rel_append ?_ (.cons ?_ .nil)
      · dsimp only
        rw [himage]
        exact h.kept.imp fun _ _ hkept => hkept.append _
      · refine ⟨rfl, hlen, ?_, ?_, ?_⟩ <;> dsimp only <;> rw [hoffset]
        · simp
        · simp
        · exact haligned
    · refine h.laid.append hmagic (by dsimp only; omega) ?_
      dsimp only
      simp [hoffset, hlen]
    · intro e he
      rw [List.getLast?_concat, Option.mem_some_iff] at he
      subst he
      dsimp only
      simp [hoffset, hlen]

theorem length_le_add (hadd : w.add c = some w') : w.image.length ≤ w'.image.length := by
  unfold DataSetWriter.add at hadd
  split at hadd
  · cases hadd
  · next hcheck =>
    obtain ⟨padding, hpadding, _⟩ :=
      appendPadding_spec w.image (by simpa using (not_or.mp hcheck).2)
    simp only [Option.some.injEq] at hadd
    subst hadd
    dsimp only
    rw [hpadding, List.length_append, List.length_append]
    omega

theorem length_le_addAll : ∀ {chunks : List Chunk} {w w' : DataSetWriter},
    addAll w chunks = some w' → w.image.length ≤ w'.image.length
  | [], w, w', h => by
    cases (show some w = some w' from h)
    exact Nat.le_refl _
  | c :: chunks, w, w', h => by
    obtain ⟨w₁, hadd, hrest⟩ := Option.bind_eq_some_iff.mp (show (add w c).bind _ = _ from h)
    exact Nat.le_trans (length_le_add hadd) (length_le_addAll hrest)

/-- Any number of `Add`s. -/
theorem Written.addAll : ∀ {more chunks : List Chunk} {w w' : DataSetWriter},
    Written magic chunks w → DataSetWriter.addAll w more = some w' → w'.image.length < 2 ^ 64 →
    Written magic (chunks ++ more) w'
  | [], chunks, w, w', h, hall, _ => by
    cases (show some w = some w' from hall)
    rwa [List.append_nil]
  | c :: more, chunks, w, w', h, hall, hsize => by
    obtain ⟨w₁, hadd, hrest⟩ := Option.bind_eq_some_iff.mp
      (show (DataSetWriter.add w c).bind _ = _ from hall)
    have hle := length_le_addAll hrest
    have hwritten := Written.addAll (h.add hadd (by omega)) hrest hsize
    rwa [List.append_assoc] at hwritten

/-! ## The layout of the image -/

section Finish

variable {codec : MetadataCodec} {makeDigest : Bytes → Bytes}

/-- A part that has something in front of it and something behind it. -/
theorem clippedSubstr_append (front part back : Bytes) {v : View}
    (hpos : v.pos.toNat = front.length)
    (hlen : v.len.toNat = part.length) : clippedSubstr (front ++ (part ++ back)) v = part := by
  have hmin : min v.pos.toNat (front ++ (part ++ back)).length = front.length := by
    rw [hpos, List.length_append]
    omega
  rw [clippedSubstr, hmin, hlen, List.drop_left, List.take_left]

/-- The parts of the image, from the front. -/
theorem finish_parts : finish codec makeDigest w = w.image ++ (codec.serialize w.metadata ++
    (serializeUint64 (UInt64.ofNat (codec.serialize w.metadata).length) ++
      (makeDigest (w.image ++ codec.serialize w.metadata ++
        serializeUint64 (UInt64.ofNat (codec.serialize w.metadata).length)) ++
          serializeUint64 (UInt64.ofNat (finish codec makeDigest w).length)))) := by
  have hlen : (finish codec makeDigest w).length =
      (w.image ++ codec.serialize w.metadata ++
        serializeUint64 (UInt64.ofNat (codec.serialize w.metadata).length) ++
        makeDigest (w.image ++ codec.serialize w.metadata ++
          serializeUint64 (UInt64.ofNat (codec.serialize w.metadata).length))).length + 8 := by
    rw [finish, List.length_append, length_serializeUint64]
  rw [hlen, finish]
  simp

/-- What the reader makes of such parts. -/
theorem initLength_parts {image s digest block : Bytes} {magicLength : UInt64}
    {entries : List Entry}
    (hparts : block = image ++ (s ++ (serializeUint64 (UInt64.ofNat s.length) ++
      (digest ++ serializeUint64 (UInt64.ofNat block.length)))))
    (hdigest : digest.length = 20) (hsize : block.length < 2 ^ 63)
    (hmagic : magicLength.toNat ≤ image.length) (hparse : codec.parse s = some entries) :
    if s = [] then (initLength codec block magicLength).ok = false
    else
      (initLength codec block magicLength).ok =
          (readEntries (UInt64.ofNat image.length) magicLength entries []).1 ∧
        (initLength codec block magicLength).reader.nameToDataMap =
          (readEntries (UInt64.ofNat image.length) magicLength entries []).2 := by
  have hlen : block.length = image.length + s.length + 36 := by
    rw [hparts]
    simp [length_serializeUint64, hdigest]
    omega
  have hsmall : (UInt64.ofNat block.length).toNat = block.length := by
    rw [UInt64.toNat_ofNat', Nat.mod_eq_of_lt (by omega)]
  have hslen : (UInt64.ofNat s.length).toNat = s.length := by
    rw [UInt64.toNat_ofNat', Nat.mod_eq_of_lt (by omega)]
  have hfooter : (UInt64.ofNat block.length - kFooterSize).toNat = block.length - 36 := by
    rw [UInt64.toNat_sub, hsmall]
    show (2 ^ 64 - 36 + _) % 2 ^ 64 = _
    omega
  have hbegin : UInt64.ofNat block.length - kFooterSize - UInt64.ofNat s.length =
      UInt64.ofNat image.length := by
    refine UInt64.toNat_inj.mp ?_
    rw [UInt64.toNat_sub, hfooter, hslen, UInt64.toNat_ofNat']
    omega
  -- The three parts that the reader asks for.
  have hfilesize : clippedSubstr block ⟨UInt64.ofNat block.length - 8, 8⟩ =
      serializeUint64 (UInt64.ofNat block.length) := by
    have hpos : (UInt64.ofNat block.length - 8).toNat = block.length - 8 := by
      rw [UInt64.toNat_sub, hsmall]
      show (2 ^ 64 - 8 + _) % 2 ^ 64 = _
      omega
    have hsplit : block = (image ++ (s ++ (serializeUint64 (UInt64.ofNat s.length) ++ digest))) ++
        (serializeUint64 (UInt64.ofNat block.length) ++ []) := by
      conv_lhs => rw [hparts]
      simp
    conv_lhs => rw [hsplit]
    refine clippedSubstr_append _ _ _ ?_ rfl
    rw [← hsplit, hpos]
    simp [length_serializeUint64, hdigest]
    omega
  have hmetadataSize : clippedSubstr block ⟨UInt64.ofNat block.length - kFooterSize, 8⟩ =
      serializeUint64 (UInt64.ofNat s.length) := by
    have hsplit : block = (image ++ s) ++ (serializeUint64 (UInt64.ofNat s.length) ++
        (digest ++ serializeUint64 (UInt64.ofNat block.length))) := by
      conv_lhs => rw [hparts]
      simp
    conv_lhs => rw [hsplit]
    refine clippedSubstr_append _ _ _ ?_ rfl
    simp [← hsplit, hfooter]
    omega
  have hmetadata : clippedSubstr block ⟨UInt64.ofNat image.length, UInt64.ofNat s.length⟩ = s := by
    conv_lhs => rw [hparts]
    refine clippedSubstr_append _ _ _ ?_ hslen
    rw [UInt64.toNat_ofNat', Nat.mod_eq_of_lt (by omega)]
  have henough : ¬UInt64.ofNat block.length < magicLength + kFooterSize := by
    rw [UInt64.lt_iff_toNat_lt, hsmall, UInt64.toNat_add]
    show ¬_ < (_ + 36) % 2 ^ 64
    omega
  unfold initLength
  dsimp only
  have hsame : ¬UInt64.ofNat block.length ≠ UInt64.ofNat block.length := not_not_intro rfl
  rw [if_neg henough, hfilesize, deserialize_serialize]
  dsimp only
  rw [if_neg hsame, hmetadataSize, deserialize_serialize]
  dsimp only
  by_cases hnil : s = []
  · rw [if_pos hnil, if_pos (.inl (by rw [hnil]; rfl))]
  · have hpos : 0 < s.length := List.length_pos_iff.mpr hnil
    have hok : ¬(UInt64.ofNat s.length = 0 ∨
        UInt64.ofNat block.length - magicLength - kFooterSize < UInt64.ofNat s.length) := by
      rw [not_or]
      constructor
      · intro hzero
        rw [hzero] at hslen
        exact absurd hslen (by show ¬0 = _; omega)
      · rw [UInt64.lt_iff_toNat_lt, UInt64.toNat_sub, UInt64.toNat_sub, hsmall, hslen]
        show ¬(2 ^ 64 - 36 + _) % 2 ^ 64 < _
        omega
    simp [hnil, hok, hbegin, hmetadata, hparse]

/-- The images of the writer as the reader sees them. -/
theorem init_finish (hdigest : ∀ s, (makeDigest s).length = 20) (hmagic : magic <+: w.image)
    (hsize : (finish codec makeDigest w).length < 2 ^ 63)
    (hcodec : codec.RoundTrips w.metadata) :
    if w.metadata = [] then (init codec (finish codec makeDigest w) magic).ok = false
    else
      (init codec (finish codec makeDigest w) magic).ok =
          (readEntries (UInt64.ofNat w.image.length) (UInt64.ofNat magic.length) w.metadata []).1 ∧
        (init codec (finish codec makeDigest w) magic).reader.nameToDataMap =
          (readEntries (UInt64.ofNat w.image.length) (UInt64.ofNat magic.length) w.metadata
            []).2 := by
  have hparts := @finish_parts w codec makeDigest
  have hprefix : magic.isPrefixOf (finish codec makeDigest w) = true := by
    rw [List.isPrefixOf_iff_prefix, hparts]
    exact hmagic.trans (List.prefix_append _ _)
  have hle := hmagic.length_le
  have hlen : w.image.length ≤ (finish codec makeDigest w).length := by
    rw [hparts, List.length_append]
    omega
  have h := @initLength_parts codec _ _ _ _ (UInt64.ofNat magic.length) _ hparts (hdigest _) hsize
    (by rw [UInt64.toNat_ofNat', Nat.mod_eq_of_lt (by omega)]; exact hle) hcodec.parse_serialize
  simp only [hcodec.eq_nil_iff] at h
  rw [init, if_pos hprefix]
  exact h

end Finish

end DataSetWriter

/-! ## Reading it again -/

open DataSetWriter

/-- Every chunk is found under its name, with its data and where it is to be aligned. -/
def ReadsBack (codec : MetadataCodec) (block magic : Bytes) (chunks : List Chunk) : Prop :=
  (init codec block magic).ok = true ∧ ∀ c ∈ chunks, ∃ v : View,
    (init codec block magic).reader.find c.name = some v ∧ v.len.toNat = c.data.length ∧
      v.pos.toNat % (c.alignment / 8) = 0 ∧
      (init codec block magic).reader.get c.name = some c.data

variable {codec : MetadataCodec} {makeDigest : Bytes → Bytes} {magic : Bytes} {chunks : List Chunk}
  {w : DataSetWriter}

theorem find_of_nodup {k : Bytes} {v : View} : ∀ {l : List (Bytes × View)},
    (l.map Prod.fst).Nodup → (k, v) ∈ l → l.find? (fun e => e.1 = k) = some (k, v)
  | (k', v') :: l, hnodup, hmem => by
    rw [List.map_cons, List.nodup_cons] at hnodup
    rcases List.mem_cons.mp hmem with heq | hmem
    · cases heq
      exact List.find?_cons_of_pos (by simp)
    · have hne : k' ≠ k := by
        rintro rfl
        exact hnodup.1 (List.mem_map.mpr ⟨_, hmem, rfl⟩)
      rw [List.find?_cons_of_neg (by simpa using hne)]
      exact find_of_nodup hnodup.2 hmem

theorem names_eq {chunks : List Chunk} (h : List.Forall₂ (Kept image) chunks entries) :
    entries.map Entry.name = chunks.map Chunk.name := by
  induction h with
  | nil => rfl
  | cons hkept _ ih => rw [List.map_cons, List.map_cons, hkept.name, ih]

theorem exists_entry {chunks : List Chunk} (h : List.Forall₂ (Kept image) chunks entries)
    {c : Chunk} (hc : c ∈ chunks) :
    ∃ e ∈ entries, Kept image c e := by
  induction h with
  | nil => cases hc
  | cons hkept _ ih =>
    rcases List.mem_cons.mp hc with rfl | hc
    · exact ⟨_, List.mem_cons_self, hkept⟩
    · obtain ⟨e, he, hk⟩ := ih hc
      exact ⟨e, List.mem_cons_of_mem _ he, hk⟩

theorem last_entry {chunks : List Chunk} (h : List.Forall₂ (Kept image) chunks entries) {c : Chunk}
    (hc : chunks.getLast? = some c) :
    ∃ e, entries.getLast? = some e ∧ Kept image c e := by
  induction h with
  | nil => cases hc
  | cons hkept hrest ih =>
    cases hrest with
    | nil =>
      cases hc
      exact ⟨_, rfl, hkept⟩
    | cons _ _ =>
      rw [List.getLast?_cons_cons] at hc ⊢
      exact ih hc

/-- What the map has under the name of a chunk. -/
theorem find_chunk {r : DataSetReader} (hwritten : Written magic chunks w)
    (hmap : r.nameToDataMap = (w.metadata.map fun e => (e.name, View.mk e.offset e.size)).reverse)
    {c : Chunk} (hc : c ∈ chunks) :
    ∃ e ∈ w.metadata, Kept w.image c e ∧ r.find c.name = some ⟨e.offset, e.size⟩ := by
  obtain ⟨e, he, hkept⟩ := exists_entry hwritten.kept hc
  refine ⟨e, he, hkept, ?_⟩
  have hnodup : (r.nameToDataMap.map Prod.fst).Nodup := by
    have hnames : (w.metadata.map fun e => (e.name, View.mk e.offset e.size)).map Prod.fst =
        chunks.map Chunk.name := by
      simp [← names_eq hwritten.kept]
    simpa [hmap, hnames] using hwritten.nodup
  have hmem : (c.name, View.mk e.offset e.size) ∈ r.nameToDataMap := by
    rw [hmap, List.mem_reverse, List.mem_map]
    exact ⟨e, he, by rw [hkept.name]⟩
  rw [DataSetReader.find, find_of_nodup hnodup hmem]
  rfl

/-- The entries begin in front of the metadata exactly when the last chunk has data. -/
theorem begins_iff (hwritten : Written magic chunks w) (hne : w.metadata ≠ []) :
    (∀ e ∈ w.metadata, e.offset.toNat < w.image.length) ↔
      ∃ c, chunks.getLast? = some c ∧ c.data ≠ [] := by
  have hchunks : chunks ≠ [] := by
    rintro rfl
    exact hne (List.forall₂_nil_left_iff.mp hwritten.kept)
  obtain ⟨c, hc⟩ : ∃ c, chunks.getLast? = some c :=
    ⟨_, List.getLast?_eq_some_getLast hchunks⟩
  obtain ⟨e, he, hkept⟩ := last_entry hwritten.kept hc
  have hend := hwritten.last e he
  have hsize := hkept.size
  obtain ⟨front, hsplit⟩ := List.getLast?_eq_some_iff.mp he
  constructor
  · intro h
    have hlt := h e (hsplit ▸ List.mem_append_right _ List.mem_cons_self)
    refine ⟨c, hc, List.ne_nil_of_length_pos ?_⟩
    omega
  · rintro ⟨c', hc', hdata⟩ f hf
    rw [hc] at hc'
    cases hc'
    have hpos := List.length_pos_iff.mpr hdata
    have hapart := hwritten.laid.apart
    rw [hsplit] at hf hapart
    rcases List.mem_append.mp hf with hf | hf
    · have hle := (List.pairwise_append.mp hapart).2.2 f hf e List.mem_cons_self
      omega
    · rw [List.mem_singleton.mp hf]
      omega

/-- What was written can be read if and only if the last chunk has data. -/
theorem readsBack_iff (hw : addAll { image := magic } chunks = some w)
    (hdigest : ∀ s, (makeDigest s).length = 20) (hcodec : codec.RoundTrips w.metadata)
    (hsize : (finish codec makeDigest w).length < 2 ^ 63) :
    ReadsBack codec (finish codec makeDigest w) magic chunks ↔
      ∃ c, chunks.getLast? = some c ∧ c.data ≠ [] := by
  have hlen : w.image.length ≤ (finish codec makeDigest w).length := by
    rw [finish_parts, List.length_append]
    omega
  have hwritten : Written magic chunks w :=
    (written_new magic).addAll hw (by omega)
  have hmagic := hwritten.magic_prefix.length_le
  have himage : (UInt64.ofNat w.image.length).toNat = w.image.length := by
    rw [UInt64.toNat_ofNat', Nat.mod_eq_of_lt (by omega)]
  have hmagicLength : (UInt64.ofNat magic.length).toNat = magic.length := by
    rw [UInt64.toNat_ofNat', Nat.mod_eq_of_lt (by omega)]
  have hinit := init_finish hdigest hwritten.magic_prefix hsize hcodec
  by_cases hnil : w.metadata = []
  · rw [if_pos hnil] at hinit
    constructor
    · rintro ⟨hok, _⟩
      simp [hinit] at hok
    · rintro ⟨c, hc, _⟩
      obtain ⟨e, he, _⟩ := last_entry hwritten.kept hc
      simp [hnil] at he
  · rw [if_neg hnil] at hinit
    obtain ⟨hok, hmap⟩ := hinit
    rw [← begins_iff hwritten hnil]
    constructor
    · rintro ⟨hread, _⟩ e he
      rw [hok] at hread
      have hlt := (readEntries_ok hread).2.2 e he
      rwa [himage] at hlt
    · intro hbegins
      have hlaid : Laid (UInt64.ofNat magic.length).toNat (UInt64.ofNat w.image.length).toNat
          w.metadata := by
        rw [hmagicLength, himage]
        exact hwritten.laid
      have hread := @readEntries_of_laid _ w.metadata (UInt64.ofNat magic.length) [] hlaid
        (by rw [himage]; exact hbegins)
      refine ⟨hok.trans hread, fun c hc => ?_⟩
      rw [(readEntries_ok hread).2.1, List.append_nil] at hmap
      obtain ⟨e, he, hkept, hfind⟩ := find_chunk hwritten hmap hc
      refine ⟨_, hfind, hkept.size, hkept.aligned, ?_⟩
      have hparts := @finish_parts w codec makeDigest
      have hfits := hkept.fits
      rw [DataSetReader.get, hfind, memblock_init, Option.map_some, clippedSubstr, hkept.size,
        Nat.min_eq_left (by dsimp only; omega), hparts, List.drop_append_of_le_length (by
          dsimp only
          omega), List.take_append_of_le_length (by
          rw [List.length_drop]
          dsimp only
          omega), hkept.data]

/-- Nothing outside of the block is read, and the entries of an accepted block lie in their
order between the magic string and the metadata. -/
structure SafelyRead (codec : MetadataCodec) (block magic : Bytes) : Prop where
  requests : ∀ v ∈ (init codec block magic).requests, Inside block v
  kept : ∀ x ∈ (init codec block magic).reader.nameToDataMap, Inside block x.2
  laid : (init codec block magic).ok = true → ∃ metadataOffset entries,
    Accepted codec block magic metadataOffset entries (init codec block magic).reader

/-- **A data set is read back if and only if its last chunk has data, and no block whatsoever is
read outside of it.** No block of memory has 2 ^ 63 bytes. -/
theorem roundtrip_iff (hw : addAll { image := magic } chunks = some w)
    (hdigest : ∀ s, (makeDigest s).length = 20) (hcodec : codec.RoundTrips w.metadata)
    (hsize : (finish codec makeDigest w).length < 2 ^ 63) :
    (ReadsBack codec (finish codec makeDigest w) magic chunks ↔
        ∃ c, chunks.getLast? = some c ∧ c.data ≠ []) ∧
      ∀ (codec : MetadataCodec) (block magic : Bytes), block.length < 2 ^ 63 →
        SafelyRead codec block magic :=
  ⟨readsBack_iff hw hdigest hcodec hsize, fun codec _ magic hblock =>
    ⟨(init_inside codec magic hblock).1, (init_inside codec magic hblock).2, init_laid hblock⟩⟩

/-! ## Two data sets -/

/-- What protobuf makes of some entries, and nothing of no entries. -/
def codecFor (entries : List Entry) (bytes : Bytes) : MetadataCodec where
  serialize es := if es = [] then [] else bytes
  parse s := if s = bytes then some entries else none

/-- Two chunks, the second of which is aligned to 64 bits. -/
def googleAndMozc : List Chunk :=
  [⟨utf8 "google", 16, utf8 "GOOGLE"⟩, ⟨utf8 "mozc", 64, [0x6D, 0x00, 0x7A, 0x63, 0xEF]⟩]

def googleAndMozcEntries : List Entry := [⟨utf8 "google", 6, 6⟩, ⟨utf8 "mozc", 16, 5⟩]

def googleAndMozcCodec : MetadataCodec := codecFor googleAndMozcEntries
  [0x0A, 0x0C, 0x0A, 0x06, 0x67, 0x6F, 0x6F, 0x67, 0x6C, 0x65, 0x10, 0x06, 0x18, 0x06, 0x0A, 0x0A,
   0x0A, 0x04, 0x6D, 0x6F, 0x7A, 0x63, 0x10, 0x10, 0x18, 0x05]

/-- The SHA-1 digest of the image. -/
def googleAndMozcDigest : Bytes :=
  [0x99, 0xF7, 0xBC, 0x3B, 0x64, 0x21, 0xC2, 0x3F, 0xCA, 0x8A, 0x7E, 0x46, 0xF1, 0x74, 0x3E, 0x62,
   0x70, 0x11, 0x4E, 0x2F]

theorem roundtrip_iff_googleAndMozc : ∃ w,
    addAll { image := [0x6D, 0x61, 0x00, 0x67, 0x69, 0x63] } googleAndMozc = some w ∧
      (ReadsBack googleAndMozcCodec (finish googleAndMozcCodec (fun _ => googleAndMozcDigest) w)
          [0x6D, 0x61, 0x00, 0x67, 0x69, 0x63] googleAndMozc ↔
        ∃ c, googleAndMozc.getLast? = some c ∧ c.data ≠ []) :=
  ⟨_, rfl, (roundtrip_iff rfl (fun _ => rfl) ⟨by decide, by decide⟩ (by decide)).1⟩

/-- One chunk without data. -/
def nothing : List Chunk := [⟨utf8 "a", 8, []⟩]

def nothingCodec : MetadataCodec := codecFor [⟨utf8 "a", 5, 0⟩]
  [0x0A, 0x07, 0x0A, 0x01, 0x61, 0x10, 0x05, 0x18, 0x00]

/-- The SHA-1 digest of the image. -/
def nothingDigest : Bytes :=
  [0xF2, 0x56, 0xC3, 0x7C, 0x58, 0xB9, 0x84, 0xCB, 0xC4, 0x0C, 0xFD, 0x9C, 0x11, 0x7F, 0xCD, 0x54,
   0x7F, 0x48, 0x39, 0x90]

/-- It begins where the metadata begin, and is rejected. -/
theorem not_readsBack_nothing : ∃ w, addAll { image := utf8 "magic" } nothing = some w ∧
    nothingCodec.RoundTrips w.metadata ∧
      ¬ReadsBack nothingCodec (finish nothingCodec (fun _ => nothingDigest) w) (utf8 "magic")
        nothing :=
  ⟨_, rfl, ⟨by decide, by decide⟩, fun h => absurd h.1 (by decide)⟩

end Mozkey.DataManager
