import Mozkey.Infra.Bits
import Mozkey.Infra.NewestFirst

/-!
# The file of an `LruStorage`

`storage/lru_storage.cc`, the slots of the mapped file: what `Open` makes of them, and how `Merge`
writes the slots of two files into the first one. A slot that is not in use has the time zero.

* `merge_lruList` — after a merge the newest entries of both files are left
-/

namespace Mozkey.Storage

open Infra

def kMaxLruSize : Nat := 1000000
def kMaxValueSize : Nat := 1024
def kFileHeaderSize : Nat := 12
def kItemHeaderSize : Nat := 12

/-! ## Slots -/

def getFP (item : Bytes) : Nat := leNat (item.take 8)

def getTimeStamp (item : Bytes) : Nat := leNat ((item.drop 8).take 4)

/-- The number at this place of the header. -/
def headerField (mmap : Bytes) (i : Nat) : Nat := leNat ((mmap.drop (4 * i)).take 4)

/-- The bytes from `begin` on, cut at every `itemSize` of them. -/
def slotsOf (itemSize : Nat) (region : Bytes) : List Bytes :=
  (List.range ((region.length + itemSize - 1) / itemSize)).map fun i =>
    (region.drop (i * itemSize)).take itemSize

/-- What `Open` asks of the mapped bytes. -/
def openChecks (mmap : Bytes) : Bool :=
  let valueSize := headerField mmap 0
  let size := headerField mmap 1
  if valueSize % 4 ≠ 0 then false
  else if size = 0 || kMaxLruSize < size then false
  else if valueSize = 0 || kMaxValueSize < valueSize then false
  else mmap.length == kFileHeaderSize + (valueSize + kItemHeaderSize) * size

/-- An open file. The sizes and the seed are those of its header, which nothing writes. -/
structure LruFile where
  mmap : Bytes
  opened : openChecks mmap = true

namespace LruFile

variable (file own other : LruFile)

def valueSize : Nat := headerField file.mmap 0
def size : Nat := headerField file.mmap 1
def seed : Nat := headerField file.mmap 2
def itemSize : Nat := file.valueSize + kItemHeaderSize

/-- The bytes from `begin_` to `end_`. -/
def region : Bytes := file.mmap.drop kFileHeaderSize

def slots : List Bytes := slotsOf file.itemSize file.region

/-- The list that `Open` makes, the newest item in front. -/
def lruList : List Bytes :=
  (newestFirst getTimeStamp file.slots).filter fun item => getTimeStamp item ≠ 0

/-- The slots that are in use, in the order of the file. -/
def liveSlots : List Bytes := file.slots.filter fun item => getTimeStamp item ≠ 0

/-- The mapped bytes after a buffer was written over the slots, with zeros after it. -/
def overwrite (buf : Bytes) : Bytes :=
  let oldSize := file.region.length
  let newSize := min buf.length oldSize
  file.mmap.take kFileHeaderSize ++ buf.take newSize ++ List.replicate (oldSize - newSize) 0

/-- This file and the other one after `Merge`, which returns false where there is none. -/
def merge : Option (LruFile × LruFile) :=
  if other.valueSize ≠ own.valueSize then none
  else if own.seed ≠ other.seed then none
  else
    let ary := newestFirst getTimeStamp (own.slots ++ other.slots)
    let buf := (distinct getFP [] ary).flatten
    if h : openChecks (own.overwrite buf) = true then some (⟨_, h⟩, other) else none

end LruFile

/-! ## Cutting a region into slots -/

theorem flatten_slotsOf {itemSize count : Nat} (hpos : 0 < itemSize) {region : Bytes}
    (h : region.length = itemSize * count) : (slotsOf itemSize region).length = count ∧
      (∀ item ∈ slotsOf itemSize region, item.length = itemSize) := by
  have hcount : (region.length + itemSize - 1) / itemSize = count := by
    rw [h, Nat.add_sub_assoc hpos, Nat.mul_add_div hpos, Nat.div_eq_of_lt (by omega), Nat.add_zero]
  unfold slotsOf
  rw [hcount, List.length_map, List.length_range]
  refine ⟨rfl, fun item hitem => ?_⟩
  obtain ⟨i, hi, rfl⟩ := List.mem_map.mp hitem
  have hle : (i + 1) * itemSize ≤ count * itemSize :=
    Nat.mul_le_mul_right _ (List.mem_range.mp hi)
  rw [List.length_take, List.length_drop, h]
  rw [Nat.add_mul, Nat.mul_comm count] at hle
  omega

/-- The bytes of some slots are cut into these slots. -/
theorem slotsOf_flatten {itemSize : Nat} (hpos : 0 < itemSize) : ∀ {items : List Bytes},
    (∀ item ∈ items, item.length = itemSize) → slotsOf itemSize items.flatten = items
  | [], _ => by
    unfold slotsOf
    rw [List.flatten_nil, List.length_nil, Nat.zero_add, Nat.div_eq_of_lt (by omega)]
    rfl
  | item :: items, h => by
    obtain ⟨hitem, hitems⟩ := List.forall_mem_cons.mp h
    have hrest := slotsOf_flatten hpos hitems
    unfold slotsOf at hrest ⊢
    have hcount : ((item :: items).flatten.length + itemSize - 1) / itemSize =
        (items.flatten.length + itemSize - 1) / itemSize + 1 := by
      rw [List.flatten_cons, List.length_append, hitem, ← Nat.add_div_right _ hpos]
      congr 1
      omega
    have hdrop : ∀ i, (item :: items).flatten.drop ((i + 1) * itemSize) =
        items.flatten.drop (i * itemSize) := by
      intro i
      rw [List.flatten_cons, Nat.add_mul, Nat.one_mul, Nat.add_comm, ← List.drop_drop,
        List.drop_left' hitem]
    rw [hcount, List.range_succ_eq_map, List.map_cons, List.map_map, Nat.zero_mul, List.drop_zero,
      List.flatten_cons, List.take_left' hitem]
    congr 1
    conv_rhs => rw [← hrest]
    refine List.map_congr_left fun i _ => ?_
    simp [← List.flatten_cons, hdrop]

theorem length_flatten_slots {itemSize : Nat} : ∀ {items : List Bytes},
    (∀ item ∈ items, item.length = itemSize) → items.flatten.length = itemSize * items.length
  | [], _ => rfl
  | item :: items, h => by
    obtain ⟨hitem, hitems⟩ := List.forall_mem_cons.mp h
    rw [List.flatten_cons, List.length_append, hitem, length_flatten_slots hitems, List.length_cons,
      Nat.mul_succ, Nat.add_comm]

/-- The first bytes of some slots, when no slot is cut. -/
theorem take_flatten_slots {itemSize : Nat} : ∀ {items : List Bytes} (count : Nat),
    (∀ item ∈ items, item.length = itemSize) →
    items.flatten.take (itemSize * count) = (items.take count).flatten
  | [], count, _ => by rw [List.take_nil, List.flatten_nil, List.take_nil]
  | item :: items, 0, _ => rfl
  | item :: items, count + 1, h => by
    obtain ⟨hitem, hitems⟩ := List.forall_mem_cons.mp h
    rw [List.flatten_cons, List.take_succ_cons, List.flatten_cons, List.take_append, hitem,
      List.take_of_length_le (by rw [hitem, Nat.mul_succ]; omega), Nat.mul_succ,
      Nat.add_sub_cancel, take_flatten_slots count hitems]

/-! ## Open files -/

theorem openChecks_iff {mmap : Bytes} : openChecks mmap = true ↔
    headerField mmap 0 % 4 = 0 ∧ (0 < headerField mmap 1 ∧ headerField mmap 1 ≤ kMaxLruSize) ∧
      (0 < headerField mmap 0 ∧ headerField mmap 0 ≤ kMaxValueSize) ∧
      mmap.length =
        kFileHeaderSize + (headerField mmap 0 + kItemHeaderSize) * headerField mmap 1 := by
  unfold openChecks
  dsimp only
  split
  · next h => exact iff_of_false Bool.false_ne_true fun h' => h h'.1
  · next h =>
    rw [not_not] at h
    split
    · next hsize =>
      rw [Bool.or_eq_true, decide_eq_true_eq, decide_eq_true_eq] at hsize
      exact iff_of_false Bool.false_ne_true (by omega)
    · next hsize =>
      rw [Bool.or_eq_true, decide_eq_true_eq, decide_eq_true_eq] at hsize
      split
      · next hvalue =>
        rw [Bool.or_eq_true, decide_eq_true_eq, decide_eq_true_eq] at hvalue
        exact iff_of_false Bool.false_ne_true (by omega)
      · next hvalue =>
        rw [Bool.or_eq_true, decide_eq_true_eq, decide_eq_true_eq] at hvalue
        rw [beq_iff_eq]
        exact ⟨fun hlen => ⟨h, by omega, by omega, hlen⟩, fun hall => hall.2.2.2⟩

/-- The fields of the header are in its bytes. -/
theorem headerField_append {mmap rest : Bytes} {i : Nat} (hi : i < 3)
    (hlen : kFileHeaderSize ≤ mmap.length) :
    headerField (mmap.take kFileHeaderSize ++ rest) i = headerField mmap i := by
  unfold headerField kFileHeaderSize at *
  have htake : (mmap.take 12).length = 12 := by
    simp
    omega
  have hinside : ((mmap.take 12 ++ rest).drop (4 * i)).take 4 =
      ((mmap.take 12).drop (4 * i)).take 4 := by
    rw [List.drop_append_of_le_length (by omega), List.take_append_of_le_length]
    simp
    omega
  rw [hinside, List.drop_take, List.take_take, Nat.min_eq_left (by omega)]

namespace LruFile

variable {file own other : LruFile}

theorem itemSize_pos (file : LruFile) : 0 < file.itemSize := Nat.succ_pos _

theorem length_mmap (file : LruFile) :
    file.mmap.length = kFileHeaderSize + file.itemSize * file.size :=
  (openChecks_iff.mp file.opened).2.2.2

theorem length_region (file : LruFile) : file.region.length = file.itemSize * file.size := by
  simp [region, length_mmap]

theorem length_of_mem_slots {item : Bytes} (h : item ∈ file.slots) :
    item.length = file.itemSize :=
  (flatten_slotsOf file.itemSize_pos file.length_region).2 item h

/-- **A file whose slots were overwritten can be opened, and has these slots.** -/
theorem overwrite_slots {items : List Bytes} (h : ∀ item ∈ items, item.length = file.itemSize) :
    ∃ file' : LruFile, file'.mmap = file.overwrite items.flatten ∧
      file'.slots = items.take file.size ++
        List.replicate (file.size - items.length) (List.replicate file.itemSize 0) := by
  have hlen := file.length_mmap
  have hregion := file.length_region
  have hpos := file.itemSize_pos
  have htake : (file.mmap.take kFileHeaderSize).length = kFileHeaderSize := by
    rw [List.length_take, hlen]
    omega
  have hmin : min (file.itemSize * items.length) (file.itemSize * file.size) =
      file.itemSize * min items.length file.size := Nat.mul_min_mul_left _ _ _
  have hzeros : ∀ k, List.replicate (file.itemSize * k) (0 : UInt8) =
      (List.replicate k (List.replicate file.itemSize 0)).flatten := by
    intro k
    rw [List.flatten_replicate_replicate, Nat.mul_comm]
  have hbuf : file.overwrite items.flatten = file.mmap.take kFileHeaderSize ++
      (items.take file.size ++
        List.replicate (file.size - items.length) (List.replicate file.itemSize 0)).flatten := by
    have hfirst : items.take (min items.length file.size) = items.take file.size := by
      rw [Nat.min_comm, ← List.take_take, List.take_length]
    have hrest : file.size - min items.length file.size = file.size - items.length := by omega
    unfold overwrite
    dsimp only
    simp [hregion, length_flatten_slots h, hmin, ← Nat.mul_sub, hzeros, take_flatten_slots _ h,
      hfirst, hrest]
  have hitems : ∀ item ∈ items.take file.size ++
      List.replicate (file.size - items.length) (List.replicate file.itemSize 0),
      item.length = file.itemSize := by
    intro item hitem
    obtain hitem | hitem := List.mem_append.mp hitem
    · exact h item (List.mem_of_mem_take hitem)
    · simp [List.eq_of_mem_replicate hitem]
  have hheader : ∀ i < 3, headerField (file.overwrite items.flatten) i =
      headerField file.mmap i := by
    intro i hi
    rw [hbuf, headerField_append hi (by omega)]
  have hall : (file.overwrite items.flatten).length = file.mmap.length := by
    rw [hbuf, List.length_append, htake, length_flatten_slots hitems, hlen, List.length_append,
      List.length_take, List.length_replicate]
    congr 2
    omega
  have hopened : openChecks (file.overwrite items.flatten) = true := by
    have := file.opened
    rw [openChecks_iff] at this ⊢
    rw [hheader 0 (by omega), hheader 1 (by omega), hall]
    exact this
  refine ⟨⟨_, hopened⟩, rfl, ?_⟩
  have hsize : (⟨_, hopened⟩ : LruFile).itemSize = file.itemSize := by
    rw [itemSize, valueSize, hheader 0 (by omega)]
    rfl
  have hslots : (⟨_, hopened⟩ : LruFile).region = (items.take file.size ++
      List.replicate (file.size - items.length) (List.replicate file.itemSize 0)).flatten := by
    change (file.overwrite items.flatten).drop kFileHeaderSize = _
    rw [hbuf, List.drop_left' htake]
  rw [slots, hsize, hslots, slotsOf_flatten hpos hitems]

/-! ## Merging -/

theorem pairwise_newerOf {own other : List Bytes} :
    (newerOf getFP getTimeStamp own other).Pairwise fun a b => getTimeStamp b ≤ getTimeStamp a :=
  pairwise_newestFirst _

/-- Without the slots that are not in use, the list is sorted alone. -/
theorem lruList_eq (file : LruFile) : file.lruList = newestFirst getTimeStamp file.liveSlots :=
  filter_newestFirst _ _

theorem getTimeStamp_replicate_zero (n : Nat) : getTimeStamp (List.replicate n 0) = 0 := by
  rw [getTimeStamp, List.drop_replicate, List.take_replicate]
  generalize min 4 (n - 8) = k
  induction k with
  | zero => rfl
  | succ k ih => rw [List.replicate_succ, leNat, ih]; rfl

/-- What is left of the slots of two files: first the newer ones in use, then some that are not. -/
theorem distinct_slots (hown : (own.liveSlots.map getFP).Nodup)
    (hother : (other.liveSlots.map getFP).Nodup) : ∃ unused : List Bytes,
    (∀ item ∈ unused, getTimeStamp item = 0) ∧
      distinct getFP [] (newestFirst getTimeStamp (own.slots ++ other.slots)) =
        newerOf getFP getTimeStamp own.liveSlots other.liveSlots ++ unused := by
  have hpart : Partitioned (fun item => getTimeStamp item ≠ 0)
      (newestFirst getTimeStamp (own.slots ++ other.slots)) := partitioned_newestFirst _
  have hsplit := hpart.eq_append
  rw [filter_newestFirst, List.filter_append] at hsplit
  obtain ⟨seen, hdistinct⟩ : ∃ seen, distinct getFP [] (_ ++ _) = _ ++ distinct getFP seen _ :=
    distinct_append [] (newestFirst getTimeStamp (own.liveSlots ++ other.liveSlots))
      ((newestFirst getTimeStamp (own.slots ++ other.slots)).filter
        fun item => !decide (getTimeStamp item ≠ 0))
  refine ⟨distinct getFP seen ((newestFirst getTimeStamp (own.slots ++ other.slots)).filter
    fun item => !decide (getTimeStamp item ≠ 0)), ?_, ?_⟩
  · intro item hitem
    have hmem := List.mem_filter.mp ((distinct_sublist _ _).subset hitem)
    simpa using hmem.2
  · rw [← distinct_newestFirst hown hother, ← hdistinct]
    exact congrArg (distinct getFP []) hsplit

theorem mem_newerOf {own other : List Bytes} {item : Bytes}
    (h : item ∈ newerOf getFP getTimeStamp own other) : item ∈ own ∨ item ∈ other := by
  obtain hmem | hmem := List.mem_append.mp (mem_newestFirst.mp h)
  · exact Or.inl (List.mem_filter.mp hmem).1
  · exact Or.inr (List.mem_filter.mp hmem).1

/-- **A merge keeps the newest entries of both files**, as many as there is room for. The other file
stays as it is. -/
theorem merge_lruList (hvalueSize : other.valueSize = own.valueSize) (hseed : own.seed = other.seed)
    (hown : (own.liveSlots.map getFP).Nodup) (hother : (other.liveSlots.map getFP).Nodup) :
    ∃ merged : LruFile, own.merge other = some (merged, other) ∧
      merged.lruList =
        (newerOf getFP getTimeStamp own.liveSlots other.liveSlots).take own.size ∧
      merged.lruList.length =
        min own.size ((own.liveSlots ++ other.liveSlots).map getFP).dedup.length := by
  obtain ⟨unused, hunused, hdistinct⟩ := distinct_slots hown hother
  have hitems : ∀ item ∈ distinct getFP [] (newestFirst getTimeStamp (own.slots ++ other.slots)),
      item.length = own.itemSize := by
    intro item hitem
    have hmem := mem_newestFirst.mp ((distinct_sublist _ _).subset hitem)
    obtain hmem | hmem := List.mem_append.mp hmem
    · exact length_of_mem_slots hmem
    · simp [length_of_mem_slots hmem, itemSize, hvalueSize]
  obtain ⟨merged, hmmap, hslots⟩ := overwrite_slots hitems
  have hlive : ∀ item ∈ newerOf getFP getTimeStamp own.liveSlots other.liveSlots,
      decide (getTimeStamp item ≠ 0) = true := by
    intro item hitem
    obtain hmem | hmem := mem_newerOf hitem
    · exact (List.mem_filter.mp hmem).2
    · exact (List.mem_filter.mp hmem).2
  have hkept : merged.liveSlots =
      (newerOf getFP getTimeStamp own.liveSlots other.liveSlots).take own.size := by
    rw [liveSlots, hslots, hdistinct, List.take_append, List.append_assoc, List.filter_append,
      List.filter_eq_self.mpr fun item hitem => hlive item (List.mem_of_mem_take hitem),
      List.filter_eq_nil_iff.mpr, List.append_nil]
    intro item hitem
    rw [decide_eq_true_eq, not_not]
    obtain hmem | hmem := List.mem_append.mp hitem
    · exact hunused item (List.mem_of_mem_take hmem)
    · rw [List.eq_of_mem_replicate hmem, getTimeStamp_replicate_zero]
  have hlist : merged.lruList =
      (newerOf getFP getTimeStamp own.liveSlots other.liveSlots).take own.size := by
    rw [lruList_eq, hkept]
    exact newestFirst_of_pairwise (pairwise_newerOf.sublist (List.take_sublist _ _))
  have hcount : (newerOf getFP getTimeStamp own.liveSlots other.liveSlots).length =
      ((own.liveSlots ++ other.liveSlots).map getFP).dedup.length := by
    rw [← distinct_newestFirst hown hother, ← List.length_map (f := getFP)]
    refine List.Perm.length_eq ((List.perm_ext_iff_of_nodup ?_ (List.nodup_dedup _)).mpr ?_)
    · exact nodup_map_distinct _ _
    · intro fp
      simp [mem_map_distinct, ((perm_newestFirst _).map getFP).mem_iff]
  refine ⟨merged, ?_, hlist, ?_⟩
  · rw [merge, if_neg (not_not.mpr hvalueSize), if_neg (not_not.mpr hseed)]
    dsimp only
    rw [dif_pos (hmmap ▸ merged.opened)]
    cases merged
    cases hmmap
    rfl
  · simp [hlist, hcount]

/-! A file with one slot, and another with the same item, which was used later. -/

def oneSlotFile (time : UInt8) : LruFile where
  mmap :=
    [4, 0, 0, 0, 1, 0, 0, 0, 7, 0, 0, 0] ++ [1, 0, 0, 0, 0, 0, 0, 0, time, 0, 0, 0, 5, 5, 5, 5]
  opened := openChecks_iff.mpr (by
    simp [headerField, leNat, kMaxLruSize, kMaxValueSize, kFileHeaderSize, kItemHeaderSize])

theorem merge_lruList_oneSlot : ∃ merged : LruFile,
    (oneSlotFile 1).merge (oneSlotFile 2) = some (merged, oneSlotFile 2) ∧
      merged.lruList = (newerOf getFP getTimeStamp (oneSlotFile 1).liveSlots
        (oneSlotFile 2).liveSlots).take (oneSlotFile 1).size ∧
      merged.lruList.length = min (oneSlotFile 1).size
        (((oneSlotFile 1).liveSlots ++ (oneSlotFile 2).liveSlots).map getFP).dedup.length :=
  merge_lruList (by rfl) (by rfl) (by decide) (by decide)

end LruFile

end Mozkey.Storage
