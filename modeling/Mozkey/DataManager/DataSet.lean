import Mozkey.Infra.Bytes

/-!
# Data sets

`data_manager/dataset_writer.cc` and `dataset_reader.cc`. The protobuf encoding of the metadata and
the digest are parameters.

* `init_inside` — whatever the reader is given, it reads within it
* `init_laid` — the entries of an accepted image lie one behind the other in front of the metadata
-/

namespace Mozkey.DataManager

open Infra

/-! ## Numbers of 8 bytes -/

/-- `Util::SerializeUint64` -/
def serializeUint64 (x : UInt64) : Bytes :=
  [56, 48, 40, 32, 24, 16, 8, 0].map fun k => UInt8.ofNat (x.toNat / 2 ^ k)

/-- `Util::DeserializeUint64` -/
def deserializeUint64 (s : Bytes) : Option UInt64 :=
  if s.length ≠ 8 then none
  else some (UInt64.ofNat (s.foldl (fun n c => n * 256 + c.toNat) 0))

@[simp] theorem length_serializeUint64 (x : UInt64) : (serializeUint64 x).length = 8 := rfl

theorem deserialize_serialize (x : UInt64) : deserializeUint64 (serializeUint64 x) = some x := by
  have hx : x.toNat < 2 ^ 64 := x.toNat_lt
  rw [deserializeUint64, if_neg (by simp)]
  refine congrArg some ((congrArg UInt64.ofNat ?_).trans UInt64.ofNat_toNat)
  simp [serializeUint64]
  omega

/-! ## Metadata -/

/-- `DataSetMetadata::Entry` -/
structure Entry where
  name : Bytes
  offset : UInt64
  size : UInt64
  deriving DecidableEq

/-- `SerializeAsString` and `ParseFromString` of `DataSetMetadata`. -/
structure MetadataCodec where
  serialize : List Entry → Bytes
  parse : Bytes → Option (List Entry)

/-- What protobuf makes of these entries can be read back, and only no entries are no bytes. -/
structure MetadataCodec.RoundTrips (codec : MetadataCodec) (entries : List Entry) : Prop where
  parse_serialize : codec.parse (codec.serialize entries) = some entries
  eq_nil_iff : codec.serialize entries = [] ↔ entries = []

/-! ## The writer -/

/-- `IsValidAlignment`: a power of two, 8 or more. -/
def isValidAlignment (a : Nat) : Bool := 8 ≤ a && a &&& (a - 1) = 0

structure DataSetWriter where
  image : Bytes
  metadata : List Entry := []
  seenNames : List Bytes := []

/-- The arguments of `Add`. The alignment is in bits. -/
structure Chunk where
  name : Bytes
  alignment : Nat
  data : Bytes
  deriving DecidableEq

namespace DataSetWriter

/-- `AppendPadding` of a valid alignment. -/
def appendPadding (image : Bytes) (alignment : Nat) : Bytes :=
  let alignment := alignment / 8
  if image.length % alignment > 0 then
    image ++ List.replicate (alignment - image.length % alignment) 0
  else image

/-- `Add`. A `CHECK` that fails ends the program. -/
def add (w : DataSetWriter) (c : Chunk) : Option DataSetWriter :=
  if c.name ∈ w.seenNames ∨ isValidAlignment c.alignment = false then none
  else
    let image := appendPadding w.image c.alignment
    some {
      image := image ++ c.data
      metadata := w.metadata ++
        [⟨c.name, UInt64.ofNat image.length, UInt64.ofNat c.data.length⟩]
      seenNames := c.name :: w.seenNames }

def addAll (w : DataSetWriter) (chunks : List Chunk) : Option DataSetWriter := chunks.foldlM add w

/-- The bytes that `Finish` writes. -/
def finish (codec : MetadataCodec) (makeDigest : Bytes → Bytes) (w : DataSetWriter) : Bytes :=
  let s := codec.serialize w.metadata
  let image := w.image ++ s ++ serializeUint64 (UInt64.ofNat s.length)
  let image := image ++ makeDigest image
  image ++ serializeUint64 (UInt64.ofNat (image.length + 8))

end DataSetWriter

/-! ## The reader -/

def kFooterSize : UInt64 := 36

/-- A part of the block: where it begins and how long it is. -/
structure View where
  pos : UInt64
  len : UInt64
  deriving DecidableEq

/-- `absl::ClippedSubstr` -/
def clippedSubstr (memblock : Bytes) (v : View) : Bytes :=
  (memblock.drop (min v.pos.toNat memblock.length)).take v.len.toNat

structure DataSetReader where
  memblock : Bytes
  /-- The entry of a name that was put in last comes first. -/
  nameToDataMap : List (Bytes × View) := []

namespace DataSetReader

/-- What `Init` returns, what it leaves, and the parts it asked for on its way. -/
structure Loading where
  ok : Bool
  reader : DataSetReader
  requests : List View := []

/-- The loop over the entries. -/
def readEntries (metadataOffset : UInt64) : UInt64 → List Entry → List (Bytes × View) →
    Bool × List (Bytes × View)
  | _, [], m => (true, m)
  | prevChunkEnd, e :: entries, m =>
    if e.offset < prevChunkEnd ∨ metadataOffset ≤ e.offset then (false, m)
    else if metadataOffset < e.size ∨ metadataOffset - e.size < e.offset then (false, m)
    else readEntries metadataOffset (e.offset + e.size) entries ((e.name, ⟨e.offset, e.size⟩) :: m)

/-- `Init` with the length of the magic string. -/
def initLength (codec : MetadataCodec) (memblock : Bytes) (magicLength : UInt64) : Loading :=
  let size := UInt64.ofNat memblock.length
  if size < magicLength + kFooterSize then { ok := false, reader := { memblock } }
  else
    let filesizeAt : View := ⟨size - 8, 8⟩
    match deserializeUint64 (clippedSubstr memblock filesizeAt) with
    | none => { ok := false, reader := { memblock }, requests := [filesizeAt] }
    | some filesize =>
      if filesize ≠ size then { ok := false, reader := { memblock }, requests := [filesizeAt] }
      else
        let metadataSizeAt : View := ⟨size - kFooterSize, 8⟩
        match deserializeUint64 (clippedSubstr memblock metadataSizeAt) with
        | none => { ok := false, reader := { memblock }, requests := [filesizeAt, metadataSizeAt] }
        | some metadataSize =>
          let contentAndMetadataSize := size - magicLength - kFooterSize
          if metadataSize = 0 ∨ contentAndMetadataSize < metadataSize then
            { ok := false, reader := { memblock }, requests := [filesizeAt, metadataSizeAt] }
          else
            let metadataOffset := size - kFooterSize - metadataSize
            let metadataAt : View := ⟨metadataOffset, metadataSize⟩
            match codec.parse (clippedSubstr memblock metadataAt) with
            | none =>
              { ok := false, reader := { memblock },
                requests := [filesizeAt, metadataSizeAt, metadataAt] }
            | some entries =>
              let (ok, nameToDataMap) := readEntries metadataOffset magicLength entries []
              { ok, reader := { memblock, nameToDataMap },
                requests := [filesizeAt, metadataSizeAt, metadataAt] }

def init (codec : MetadataCodec) (memblock magic : Bytes) : Loading :=
  if magic.isPrefixOf memblock then initLength codec memblock (UInt64.ofNat magic.length)
  else { ok := false, reader := { memblock } }

/-- The part of the block that is kept under a name. -/
def find (r : DataSetReader) (name : Bytes) : Option View :=
  (r.nameToDataMap.find? fun e => e.1 = name).map Prod.snd

def get (r : DataSetReader) (name : Bytes) : Option Bytes :=
  (r.find name).map (clippedSubstr r.memblock)

/-! ## Inside the block -/

def Inside (memblock : Bytes) (v : View) : Prop := v.pos.toNat + v.len.toNat ≤ memblock.length

/-- The entries lie between `lo` and `hi`, each behind the one before it. -/
structure Laid (lo hi : Nat) (entries : List Entry) : Prop where
  inside : ∀ e ∈ entries, lo ≤ e.offset.toNat ∧ e.offset.toNat + e.size.toNat ≤ hi
  apart : entries.Pairwise fun e f => e.offset.toNat + e.size.toNat ≤ f.offset.toNat

theorem Laid.nil (lo hi : Nat) : Laid lo hi [] := ⟨by simp, .nil⟩

theorem laid_cons {lo hi : Nat} {e : Entry} {entries : List Entry} :
    Laid lo hi (e :: entries) ↔ lo ≤ e.offset.toNat ∧ e.offset.toNat + e.size.toNat ≤ hi ∧
      Laid (e.offset.toNat + e.size.toNat) hi entries := by
  constructor
  · rintro ⟨hin, hap⟩
    obtain ⟨hfirst, hrest⟩ := List.pairwise_cons.mp hap
    exact ⟨(hin e List.mem_cons_self).1, (hin e List.mem_cons_self).2,
      fun f hf => ⟨hfirst f hf, (hin f (List.mem_cons_of_mem _ hf)).2⟩, hrest⟩
  · rintro ⟨hlo, hhi, hin, hap⟩
    refine ⟨fun f hf => ?_, List.pairwise_cons.mpr ⟨fun f hf => (hin f hf).1, hap⟩⟩
    rcases List.mem_cons.mp hf with rfl | hf
    · exact ⟨hlo, hhi⟩
    · exact ⟨by have := (hin f hf).1; omega, (hin f hf).2⟩

variable {codec : MetadataCodec} {memblock magic : Bytes} {metadataOffset : UInt64}

/-- The bounds that the loop checks, without wrapping. -/
theorem entry_checks {prev : UInt64} {e : Entry}
    (h₁ : ¬(e.offset < prev ∨ metadataOffset ≤ e.offset))
    (h₂ : ¬(metadataOffset < e.size ∨ metadataOffset - e.size < e.offset)) :
    prev.toNat ≤ e.offset.toNat ∧ e.offset.toNat + e.size.toNat ≤ metadataOffset.toNat ∧
      (e.offset + e.size).toNat = e.offset.toNat + e.size.toNat := by
  simp only [not_or, UInt64.lt_iff_toNat_lt, UInt64.le_iff_toNat_le, UInt64.toNat_sub] at h₁ h₂
  have hm := metadataOffset.toNat_lt
  simp
  omega

theorem mem_readEntries : ∀ {entries : List Entry} {prev : UInt64} {m : List (Bytes × View)},
    ∀ x ∈ (readEntries metadataOffset prev entries m).2,
      x ∈ m ∨ x.2.pos.toNat + x.2.len.toNat ≤ metadataOffset.toNat
  | [], _, _, x, hx => .inl hx
  | e :: entries, prev, m, x, hx => by
    unfold readEntries at hx
    split at hx
    · exact .inl hx
    · split at hx
      · exact .inl hx
      · next h₁ h₂ =>
        rcases mem_readEntries x hx with hmem | hin
        · rcases List.mem_cons.mp hmem with rfl | hmem
          · exact .inr (entry_checks h₁ h₂).2.1
          · exact .inl hmem
        · exact .inr hin

theorem readEntries_ok : ∀ {entries : List Entry} {prev : UInt64} {m : List (Bytes × View)},
    (readEntries metadataOffset prev entries m).1 = true →
      Laid prev.toNat metadataOffset.toNat entries ∧
        (readEntries metadataOffset prev entries m).2 =
          (entries.map fun e => (e.name, View.mk e.offset e.size)).reverse ++ m ∧
        ∀ e ∈ entries, e.offset.toNat < metadataOffset.toNat
  | [], _, _, _ => ⟨.nil _ _, rfl, by simp⟩
  | e :: entries, prev, m, h => by
    unfold readEntries at h ⊢
    split at h
    · exact absurd h Bool.false_ne_true
    · split at h
      · exact absurd h Bool.false_ne_true
      · next h₁ h₂ =>
        obtain ⟨hlo, hhi, hsum⟩ := entry_checks h₁ h₂
        obtain ⟨hlaid, hmap, hbegins⟩ := readEntries_ok h
        rw [hsum] at hlaid
        refine ⟨laid_cons.mpr ⟨hlo, hhi, hlaid⟩, ?_, List.forall_mem_cons.mpr ⟨?_, hbegins⟩⟩
        · simp [h₁, h₂, hmap]
        · exact Nat.lt_of_not_le fun hle => h₁ (.inr hle)

/-- Entries that lie in front of the metadata, and begin there, are accepted. -/
theorem readEntries_of_laid : ∀ {entries : List Entry} {prev : UInt64} {m : List (Bytes × View)},
    Laid prev.toNat metadataOffset.toNat entries →
    (∀ e ∈ entries, e.offset.toNat < metadataOffset.toNat) →
    (readEntries metadataOffset prev entries m).1 = true
  | [], _, _, _, _ => rfl
  | e :: entries, prev, m, hlaid, hlt => by
    obtain ⟨hlo, hhi, hrest⟩ := laid_cons.mp hlaid
    have hbegin := hlt e List.mem_cons_self
    have hm := metadataOffset.toNat_lt
    have h₁ : ¬(e.offset < prev ∨ metadataOffset ≤ e.offset) := by
      simp only [not_or, UInt64.lt_iff_toNat_lt, UInt64.le_iff_toNat_le]
      omega
    have h₂ : ¬(metadataOffset < e.size ∨ metadataOffset - e.size < e.offset) := by
      simp only [not_or, UInt64.lt_iff_toNat_lt, UInt64.toNat_sub]
      omega
    rw [readEntries, if_neg h₁, if_neg h₂]
    refine readEntries_of_laid ?_ (List.forall_mem_cons.mp hlt).2
    rwa [(entry_checks h₁ h₂).2.2]

/-- Where the metadata begin. -/
def metadataBegin (memblock : Bytes) (metadataSize : UInt64) : UInt64 :=
  UInt64.ofNat memblock.length - kFooterSize - metadataSize

/-- What has been checked when the metadata are parsed. -/
structure Checked (codec : MetadataCodec) (memblock : Bytes) (magicLength : UInt64)
    (metadataSize : UInt64) (entries : List Entry) (l : Loading) : Prop where
  fits : magicLength.toNat + 36 + metadataSize.toNat ≤ memblock.length
  parsed : codec.parse (clippedSubstr memblock
    ⟨metadataBegin memblock metadataSize, metadataSize⟩) = some entries
  ok_eq : l.ok = (readEntries (metadataBegin memblock metadataSize) magicLength entries []).1
  map_eq : l.reader.nameToDataMap =
    (readEntries (metadataBegin memblock metadataSize) magicLength entries []).2

theorem toNat_metadataBegin {metadataSize : UInt64} (hsize : memblock.length < 2 ^ 63)
    (hfits : 36 + metadataSize.toNat ≤ memblock.length) :
    (metadataBegin memblock metadataSize).toNat = memblock.length - 36 - metadataSize.toNat := by
  rw [metadataBegin, UInt64.toNat_sub, UInt64.toNat_sub, UInt64.toNat_ofNat']
  show (2 ^ 64 - _ + (2 ^ 64 - 36 + _) % 2 ^ 64) % 2 ^ 64 = _
  omega

/-- Either something is wrong, or the entries are looked at. -/
theorem initLength_cases {magicLength : UInt64} (hsize : memblock.length < 2 ^ 63)
    (hmagic : magicLength.toNat ≤ memblock.length) :
    (∀ v ∈ (initLength codec memblock magicLength).requests, Inside memblock v) ∧
      ((initLength codec memblock magicLength).ok = false ∧
          (initLength codec memblock magicLength).reader.nameToDataMap = [] ∨
        ∃ metadataSize entries, Checked codec memblock magicLength metadataSize entries
          (initLength codec memblock magicLength)) := by
  have hlen : (UInt64.ofNat memblock.length).toNat = memblock.length := by
    rw [UInt64.toNat_ofNat', Nat.mod_eq_of_lt (by omega)]
  have hfooter : (magicLength + kFooterSize).toNat = magicLength.toNat + 36 := by
    rw [UInt64.toNat_add]
    show (_ + 36) % 2 ^ 64 = _
    omega
  unfold initLength
  dsimp only
  split
  · exact ⟨by simp, .inl ⟨rfl, rfl⟩⟩
  · next hshort =>
    rw [UInt64.lt_iff_toNat_lt, hlen, hfooter] at hshort
    have hfilesize : Inside memblock ⟨UInt64.ofNat memblock.length - 8, 8⟩ := by
      show (UInt64.ofNat memblock.length - 8).toNat + 8 ≤ _
      rw [UInt64.toNat_sub, hlen]
      show (2 ^ 64 - 8 + _) % 2 ^ 64 + 8 ≤ _
      omega
    have hmetadataSize : Inside memblock ⟨UInt64.ofNat memblock.length - kFooterSize, 8⟩ := by
      show (UInt64.ofNat memblock.length - kFooterSize).toNat + 8 ≤ _
      rw [UInt64.toNat_sub, hlen]
      show (2 ^ 64 - 36 + _) % 2 ^ 64 + 8 ≤ _
      omega
    split
    · exact ⟨by simpa using hfilesize, .inl ⟨rfl, rfl⟩⟩
    · split
      · exact ⟨by simpa using hfilesize, .inl ⟨rfl, rfl⟩⟩
      · split
        · exact ⟨by simpa using ⟨hfilesize, hmetadataSize⟩, .inl ⟨rfl, rfl⟩⟩
        · next metadataSize _ =>
          split
          · exact ⟨by simpa using ⟨hfilesize, hmetadataSize⟩, .inl ⟨rfl, rfl⟩⟩
          · next hbroken =>
            have hfits : magicLength.toNat + 36 + metadataSize.toNat ≤ memblock.length := by
              have hle : ¬UInt64.ofNat memblock.length - magicLength - kFooterSize < metadataSize :=
                fun hlt => hbroken (.inr hlt)
              rw [UInt64.lt_iff_toNat_lt, UInt64.toNat_sub, UInt64.toNat_sub, hlen] at hle
              change ¬(2 ^ 64 - 36 + _) % 2 ^ 64 < _ at hle
              omega
            have hmetadata : Inside memblock
                ⟨metadataBegin memblock metadataSize, metadataSize⟩ := by
              show (metadataBegin memblock metadataSize).toNat + metadataSize.toNat ≤ _
              rw [toNat_metadataBegin hsize (by omega)]
              omega
            split
            · exact ⟨by simpa using ⟨hfilesize, hmetadataSize, hmetadata⟩, .inl ⟨rfl, rfl⟩⟩
            · next entries hparse =>
              exact ⟨by simpa using ⟨hfilesize, hmetadataSize, hmetadata⟩,
                .inr ⟨metadataSize, entries, hfits, hparse, rfl, rfl⟩⟩

/-- The reader asks for nothing outside of the block, and keeps nothing outside of it. -/
theorem init_inside (codec : MetadataCodec) (magic : Bytes) (hsize : memblock.length < 2 ^ 63) :
    (∀ v ∈ (init codec memblock magic).requests, Inside memblock v) ∧
      ∀ x ∈ (init codec memblock magic).reader.nameToDataMap, Inside memblock x.2 := by
  unfold init
  split
  · next hprefix =>
    have hle : magic.length ≤ memblock.length := (List.isPrefixOf_iff_prefix.mp hprefix).length_le
    have hmagic : (UInt64.ofNat magic.length).toNat = magic.length := by
      rw [UInt64.toNat_ofNat', Nat.mod_eq_of_lt (by omega)]
    obtain ⟨hrequests, hcase⟩ :=
      @initLength_cases codec memblock (UInt64.ofNat magic.length) hsize (by omega)
    refine ⟨hrequests, fun x hx => ?_⟩
    rcases hcase with ⟨_, hnil⟩ | ⟨metadataSize, entries, h⟩
    · simp [hnil] at hx
    · rw [h.map_eq] at hx
      have hfits := h.fits
      have hbegin := toNat_metadataBegin hsize (show 36 + metadataSize.toNat ≤ _ by omega)
      rcases mem_readEntries x hx with hnil | hin
      · cases hnil
      · rw [hbegin] at hin
        unfold Inside
        omega
  · exact ⟨by simp, by simp⟩

/-- The image of an accepted block: the magic string, the entries, the metadata, the footer. -/
structure Accepted (codec : MetadataCodec) (memblock magic : Bytes) (metadataOffset : Nat)
    (entries : List Entry) (r : DataSetReader) : Prop where
  magic_prefix : magic <+: memblock
  parsed : codec.parse ((memblock.take (memblock.length - 36)).drop metadataOffset) = some entries
  laid : Laid magic.length metadataOffset entries
  metadata : metadataOffset ≤ memblock.length - 36
  map_eq : r.nameToDataMap = (entries.map fun e => (e.name, View.mk e.offset e.size)).reverse
  memblock_eq : r.memblock = memblock

theorem memblock_initLength {magicLength : UInt64} :
    (initLength codec memblock magicLength).reader.memblock = memblock := by
  unfold initLength
  dsimp only
  repeat' split
  all_goals rfl

theorem memblock_init : (init codec memblock magic).reader.memblock = memblock := by
  unfold init
  split
  · exact memblock_initLength
  · rfl

/-- **The entries of an accepted block lie between the magic string and the metadata, each behind
the one before it.** -/
theorem init_laid (hsize : memblock.length < 2 ^ 63) (hok : (init codec memblock magic).ok = true) :
    ∃ metadataOffset entries,
      Accepted codec memblock magic metadataOffset entries (init codec memblock magic).reader := by
  unfold init at hok ⊢
  split at hok
  · next hprefix =>
    rw [if_pos hprefix]
    have hmem := List.isPrefixOf_iff_prefix.mp hprefix
    have hle := hmem.length_le
    have hmagic : (UInt64.ofNat magic.length).toNat = magic.length := by
      rw [UInt64.toNat_ofNat', Nat.mod_eq_of_lt (by omega)]
    obtain ⟨_, hcase⟩ :=
      @initLength_cases codec memblock (UInt64.ofNat magic.length) hsize (by omega)
    rcases hcase with ⟨hbad, _⟩ | ⟨metadataSize, entries, h⟩
    · simp [hbad] at hok
    · rw [h.ok_eq] at hok
      obtain ⟨hlaid, hmap, _⟩ := readEntries_ok hok
      have hfits := h.fits
      have hbegin := toNat_metadataBegin hsize (show 36 + metadataSize.toNat ≤ _ by omega)
      have hparsed := h.parsed
      rw [hmagic] at hlaid hfits
      refine ⟨(metadataBegin memblock metadataSize).toNat, entries, hmem, ?_, hlaid, by omega, ?_,
        memblock_initLength⟩
      · rw [clippedSubstr] at hparsed
        dsimp only at hparsed
        rw [Nat.min_eq_left (by omega)] at hparsed
        rw [List.drop_take, ← hparsed]
        congr 2
        omega
      · simp [h.map_eq, hmap]
  · exact absurd hok Bool.false_ne_true

end DataSetReader

end Mozkey.DataManager
