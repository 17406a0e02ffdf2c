import Mozkey.Storage.LruCacheLists

/-!
# The blocks of an `LruCache`

* `exists_construct_iff` — the constructor returns up to a capacity of `2 ^ 63`
* `Blocks` — the elements that there are, and those that there can be
* `Lists.addBlock` — a new block has an element, and no more than there can be
-/

namespace Mozkey.Storage.LruCache

open Infra

variable {Key Value : Type} [DecidableEq Key] [Inhabited Key] [Inhabited Value]
variable {cache cache' : LruCache Key Value} {lru : List Nat} {maxElements max fuel size : Nat}

structure Blocks (max : Nat) (cache : LruCache Key Value) : Prop where
  maxElements_eq : cache.maxElements = max
  maxElements_pos : 1 ≤ cache.maxElements
  maxElements_le : cache.maxElements ≤ 2 ^ 63
  blockCapacity_le : cache.blockCapacity ≤ cache.maxElements
  blockCount_le : cache.blockCount ≤ maxBlocks
  /-- Every block has an element. -/
  blockCapacity_pos : 1 ≤ cache.blockCount → 1 ≤ cache.blockCapacity
  /-- The next block takes all that is left, or leaves one for each of the blocks after it. -/
  next_block : cache.blockCount < maxBlocks → cache.blockCapacity < cache.maxElements →
    1 ≤ cache.nextBlockSize ∧
      (cache.nextBlockSize = cache.maxElements - cache.blockCapacity ∨
        cache.nextBlockSize + (maxBlocks - 1 - cache.blockCount) ≤
          cache.maxElements - cache.blockCapacity)

section Congruence

omit [DecidableEq Key] [Inhabited Key] [Inhabited Value]

theorem Blocks.congr (h : Blocks max cache) (hcount : cache'.blockCount = cache.blockCount)
    (hcap : cache'.blockCapacity = cache.blockCapacity)
    (hnext : cache'.nextBlockSize = cache.nextBlockSize)
    (hmax : cache'.maxElements = cache.maxElements) : Blocks max cache' := by
  refine ⟨?_, ?_, ?_, ?_, ?_, ?_, ?_⟩
  · rw [hmax]
    exact h.maxElements_eq
  · rw [hmax]
    exact h.maxElements_pos
  · rw [hmax]
    exact h.maxElements_le
  · rw [hmax, hcap]
    exact h.blockCapacity_le
  · rw [hcount]
    exact h.blockCount_le
  · rw [hcount, hcap]
    exact h.blockCapacity_pos
  · rw [hcount, hcap, hmax, hnext]
    exact h.next_block

theorem Blocks.of_sameData (h : Blocks max cache) (hd : SameData cache cache') :
    Blocks max cache' :=
  h.congr hd.blockCount hd.blockCapacity hd.nextBlockSize hd.maxElements

end Congruence

/-! ## Construction -/

theorem wrap_of_lt {n : Nat} (h : n < 2 ^ 64) : wrap n = n := Nat.mod_eq_of_lt h

theorem doubleBlock_inl {size' : Nat} (h : doubleBlock maxElements size = .inl size') :
    wrap (size * 1024) < maxElements ∧ size' = wrap (size * 2) := by
  unfold doubleBlock at h
  rw [Nat.shiftLeft_eq, Nat.shiftLeft_eq] at h
  split at h
  · next hlt => exact ⟨hlt, (Sum.inl.inj h).symm⟩
  · cases h

/-- The first block leaves room for the other nine. -/
theorem returns_doubleBlock (hmax : 128 < maxElements) (hle : maxElements ≤ 2 ^ 63)
    (h : Returns (doubleBlock maxElements) 64 size) : 1 ≤ size ∧ size + 9 ≤ maxElements := by
  have hstep : ∀ s t, (1 ≤ s ∧ s + 9 ≤ maxElements ∧ s < 2 ^ 54) →
      doubleBlock maxElements s = .inl t → 1 ≤ t ∧ t + 9 ≤ maxElements ∧ t < 2 ^ 54 := by
    rintro s t ⟨h1, -, h3⟩ hst
    obtain ⟨hlt, rfl⟩ := doubleBlock_inl hst
    rw [wrap_of_lt (by omega)] at hlt
    rw [wrap_of_lt (by omega)]
    omega
  obtain ⟨t, ht, hr⟩ := h.invariant hstep ⟨by omega, by omega, by omega⟩
  unfold doubleBlock at hr
  split at hr
  · cases hr
  · obtain rfl : t = size := Sum.inr.inj hr
    exact ⟨ht.1, ht.2.1⟩

theorem terminates_doubleBlock (hle : maxElements ≤ 2 ^ 63) :
    Terminates (doubleBlock maxElements) 64 := by
  refine terminates_of_lt (I := fun s => 1 ≤ s ∧ s < 2 ^ 54) Nat.lt_wfRel.wf
    (fun s => 2 ^ 54 - s) ?_ ⟨by omega, by omega⟩
  rintro s t ⟨h1, h2⟩ hst
  obtain ⟨hlt, rfl⟩ := doubleBlock_inl hst
  rw [wrap_of_lt (by omega)] at hlt
  rw [wrap_of_lt (by omega)]
  show _ ∧ 2 ^ 54 - s * 2 < 2 ^ 54 - s
  omega

/-- The shifted size never gets above `2 ^ 63`, and in the end it is zero. -/
theorem not_terminates_doubleBlock (hgt : 2 ^ 63 < maxElements) :
    ¬Terminates (doubleBlock maxElements) 64 := by
  refine not_terminates_of_invariant (I := fun s => ∃ i, s = wrap (2 ^ i)) ?_ ⟨6, rfl⟩
  rintro s ⟨i, rfl⟩
  have hshift : ∀ j, wrap (wrap (2 ^ i) <<< j) = wrap (2 ^ (i + j)) := fun j => by
    rw [Nat.shiftLeft_eq, wrap, wrap, wrap, Nat.mod_mul_mod, ← Nat.pow_add]
  have hlt : wrap (wrap (2 ^ i) <<< maxBlocks) < maxElements := by
    rw [hshift]
    refine lt_of_le_of_lt ?_ hgt
    rcases Nat.lt_or_ge (i + maxBlocks) 64 with hi | hi
    · rw [wrap_of_lt (Nat.pow_lt_pow_right (by omega) hi)]
      exact Nat.pow_le_pow_right (by omega) (by omega)
    · rw [wrap, Nat.mod_eq_zero_of_dvd (Nat.pow_dvd_pow 2 hi)]
      exact Nat.zero_le _
  exact ⟨_, by rw [doubleBlock, if_pos hlt], i + 1, hshift 1⟩

theorem exists_firstBlockSize_iff :
    (∃ fuel size, firstBlockSize fuel maxElements = some size) ↔ maxElements ≤ 2 ^ 63 := by
  unfold firstBlockSize
  by_cases hsmall : maxElements ≤ 128
  · simp only [if_pos hsmall]
    exact ⟨fun _ => by omega, fun _ => ⟨0, maxElements, rfl⟩⟩
  · simp only [if_neg hsmall]
    refine ⟨fun h => ?_, terminates_doubleBlock⟩
    by_contra hgt
    exact not_terminates_doubleBlock (by omega) h

/-- The first block takes everything, or leaves room for the other nine. -/
theorem firstBlockSize_le (hpos : 1 ≤ maxElements) (hle : maxElements ≤ 2 ^ 63)
    (h : firstBlockSize fuel maxElements = some size) :
    1 ≤ size ∧ (size = maxElements ∨ size + 9 ≤ maxElements) := by
  unfold firstBlockSize at h
  split at h
  · cases h
    exact ⟨hpos, .inl rfl⟩
  · obtain ⟨h1, h9⟩ := returns_doubleBlock (by omega) hle (returns_of_run h)
    exact ⟨h1, .inr h9⟩

theorem construct_eq_some (h : construct fuel maxElements = some cache) :
    ∃ size, firstBlockSize fuel maxElements = some size ∧
      cache = ⟨fun _ => none, fun _ => ⟨none, none, default, default⟩, none, none, none, 0, 0,
        size, maxElements⟩ := by
  unfold construct at h
  cases hs : firstBlockSize fuel maxElements with
  | none =>
    simp [hs] at h
  | some size =>
    rw [hs] at h
    exact ⟨size, rfl, (Option.some.inj h).symm⟩

/-- **The constructor returns for a capacity of up to `2 ^ 63`.** -/
theorem exists_construct_iff :
    (∃ fuel, (construct fuel maxElements : Option (LruCache Key Value)).isSome) ↔
      maxElements ≤ 2 ^ 63 := by
  rw [← exists_firstBlockSize_iff]
  constructor
  · rintro ⟨fuel, h⟩
    obtain ⟨cache, hc⟩ := Option.isSome_iff_exists.mp h
    obtain ⟨size, hs, -⟩ := construct_eq_some hc
    exact ⟨fuel, size, hs⟩
  · rintro ⟨fuel, size, hs⟩
    refine ⟨fuel, ?_⟩
    rw [construct, hs]
    rfl

theorem Blocks.of_construct (hpos : 1 ≤ maxElements) (hle : maxElements ≤ 2 ^ 63)
    (h : construct fuel maxElements = some cache) : Blocks maxElements cache := by
  obtain ⟨size, hs, rfl⟩ := construct_eq_some h
  have hsize := firstBlockSize_le hpos hle hs
  exact ⟨rfl, hpos, hle, Nat.zero_le _, Nat.zero_le _, fun h => absurd h (by simp), fun _ _ =>
    hsize⟩

theorem Lists.of_construct (h : construct fuel maxElements = some cache) :
    Lists cache [] [] [] := by
  obtain ⟨size, -, rfl⟩ := construct_eq_some h
  refine ⟨List.nodup_nil, fun a => ?_, linked_nil, rfl, rfl, chained_nil, rfl, ?_, ?_⟩ <;> simp

/-! ## A new block -/

/-- Whether there can be another block. -/
def CanGrow (cache : LruCache Key Value) : Prop :=
  cache.blockCount < maxBlocks ∧ cache.blockCapacity < cache.maxElements

/-- The size of the block after next keeps to what `Blocks` says. -/
theorem shrinkBlock_spec {remaining : Nat} (hcount : cache.blockCount < maxBlocks)
    (hcap : cache.blockCapacity ≤ cache.maxElements) (hmax : cache.maxElements < 2 ^ 64)
    (hremaining : remaining = cache.maxElements - cache.blockCapacity)
    (hsize : 1 ≤ cache.nextBlockSize) (hsize' : cache.nextBlockSize < 2 ^ 63)
    (hleft : maxBlocks - cache.blockCount ≤ remaining) :
    1 ≤ cache.shrinkBlock ∧
      cache.shrinkBlock + (maxBlocks - 1 - cache.blockCount) ≤ remaining := by
  obtain ⟨blocks, hblocks⟩ : ∃ blocks, maxBlocks - cache.blockCount = blocks + 1 :=
    ⟨maxBlocks - cache.blockCount - 1, by omega⟩
  have helements : wrap (2 ^ 64 + cache.maxElements - cache.blockCapacity) = remaining := by
    unfold wrap
    omega
  have hdouble : wrap (cache.nextBlockSize <<< 1) = cache.nextBlockSize * 2 := by
    rw [Nat.shiftLeft_eq]
    exact wrap_of_lt (by omega)
  -- an even share of what is left is one element or more
  have hshare : 1 ≤ remaining / (blocks + 1) :=
    (Nat.one_le_div_iff (by omega)).mpr (by omega)
  have hle : remaining / (blocks + 1) + blocks ≤ remaining := by
    have hmul : remaining / (blocks + 1) * (blocks + 1) ≤ remaining := Nat.div_mul_le_self _ _
    have : remaining / (blocks + 1) + blocks ≤ remaining / (blocks + 1) * (blocks + 1) := by
      rw [Nat.mul_add_one]
      have := Nat.le_mul_of_pos_left blocks hshare
      omega
    omega
  unfold shrinkBlock
  simp only [helements, hdouble, hblocks]
  split
  · rw [if_neg (by rw [wrap_of_lt] <;> omega)]
    omega
  · rw [if_neg (by rw [wrap_of_lt] <;> omega)]
    omega

/-- What is in the elements of `lru` is not touched. -/
structure Keeps (cache cache' : LruCache Key Value) (lru : List Nat) : Prop where
  table : cache'.table = cache.table
  maxElements : cache'.maxElements = cache.maxElements
  keyOf : ∀ a ∈ lru, cache'.keyOf a = cache.keyOf a
  valueOf : ∀ a ∈ lru, cache'.valueOf a = cache.valueOf a

omit [DecidableEq Key] [Inhabited Key] [Inhabited Value] in
theorem SameData.keeps (h : SameData cache cache') : Keeps cache cache' lru :=
  ⟨h.table, h.maxElements, fun a _ => congrFun h.keyOf a, fun a _ => congrFun h.valueOf a⟩

omit [DecidableEq Key] [Inhabited Key] [Inhabited Value] in
theorem Keeps.trans {cache'' : LruCache Key Value} (h : Keeps cache cache' lru)
    (h' : Keeps cache' cache'' lru) : Keeps cache cache'' lru :=
  ⟨h'.table.trans h.table, h'.maxElements.trans h.maxElements,
    fun a ha => (h'.keyOf a ha).trans (h.keyOf a ha),
    fun a ha => (h'.valueOf a ha).trans (h.valueOf a ha)⟩

/-- The cache after the loop of `AddBlock`. -/
def pushBlock (cache : LruCache Key Value) : LruCache Key Value :=
  let added := (List.range' cache.blockCapacity cache.nextBlockSize).foldl
    LruCache.pushFreeList cache.allocateBlock
  { added with blockCount := added.blockCount + 1 }

theorem addBlock_of_canGrow (hg : CanGrow cache) :
    cache.addBlock = if 0 < maxBlocks - (pushBlock cache).blockCount then
      { pushBlock cache with nextBlockSize := (pushBlock cache).shrinkBlock }
      else pushBlock cache := by
  unfold CanGrow at hg
  rw [LruCache.addBlock, if_pos hg]
  rfl

theorem addBlock_of_not_canGrow (hg : ¬CanGrow cache) : cache.addBlock = cache := by
  unfold CanGrow at hg
  rw [LruCache.addBlock, if_neg hg]

theorem lists_pushBlock (h : Lists cache lru [] [])
    (hsize : cache.blockCapacity + cache.nextBlockSize < 2 ^ 64) :
    Lists (pushBlock cache) lru
        (List.range' cache.blockCapacity cache.nextBlockSize).reverse [] ∧
      Keeps cache (pushBlock cache) lru ∧
      (pushBlock cache).blockCount = cache.blockCount + 1 ∧
      (pushBlock cache).blockCapacity = cache.blockCapacity + cache.nextBlockSize ∧
      (pushBlock cache).nextBlockSize = cache.nextBlockSize := by
  obtain ⟨hl, hd⟩ := pushAll (h.allocateBlock hsize)
  rw [List.append_nil] at hl
  have hold : ∀ a ∈ lru, cache.allocateBlock.elements a = cache.elements a := by
    intro a ha
    have hlt := (h.all a).mp (by simpa using ha)
    exact if_neg (by omega)
  refine ⟨⟨hl.nodup, hl.all, hl.linked, hl.head, hl.tail, hl.chained, hl.freeList, hl.freed,
    hl.loosened⟩, ⟨hd.table, hd.maxElements, fun a ha => ?_, fun a ha => ?_⟩, ?_, ?_, ?_⟩
  · exact (congrFun hd.keyOf a).trans (by rw [keyOf, keyOf, hold a ha])
  · exact (congrFun hd.valueOf a).trans (by rw [valueOf, valueOf, hold a ha])
  · exact congrArg (· + 1) hd.blockCount
  · exact hd.blockCapacity.trans (Nat.mod_eq_of_lt hsize)
  · exact hd.nextBlockSize

/-- **`AddBlock` finds room for an element, and for no more than there can be.** -/
theorem Lists.addBlock (h : Lists cache lru [] []) (hb : Blocks max cache) (hg : CanGrow cache) :
    ∃ a free, Lists cache.addBlock lru (a :: free) [] ∧ Blocks max cache.addBlock ∧
      Keeps cache cache.addBlock lru := by
  have hmax := hb.maxElements_le
  obtain ⟨hsize, hnext⟩ := hb.next_block hg.1 hg.2
  have hcap := hg.2
  obtain ⟨hl, hk, hcount, hcap', hsize'⟩ := lists_pushBlock h (by omega)
  have hle : (pushBlock cache).blockCapacity ≤ (pushBlock cache).maxElements := by
    rw [hcap', hk.maxElements]
    omega
  have hpush : ∀ size, (1 ≤ size ∧
      size + (maxBlocks - 1 - (pushBlock cache).blockCount) ≤
        (pushBlock cache).maxElements - (pushBlock cache).blockCapacity) ∨
      (pushBlock cache).blockCount = maxBlocks ∨
      (pushBlock cache).blockCapacity = (pushBlock cache).maxElements →
      Blocks max { pushBlock cache with nextBlockSize := size } := by
    intro size hs
    have hpos := hb.maxElements_pos
    refine ⟨hk.maxElements.trans hb.maxElements_eq, ?_, ?_, hle, ?_, fun _ => ?_,
      fun h1 h2 => ?_⟩
    · exact hk.maxElements.symm ▸ hpos
    · exact hk.maxElements.symm ▸ hmax
    · show (pushBlock cache).blockCount ≤ maxBlocks
      have := hg.1
      omega
    · show 1 ≤ (pushBlock cache).blockCapacity
      omega
    · replace h1 : (pushBlock cache).blockCount < maxBlocks := h1
      replace h2 : (pushBlock cache).blockCapacity < (pushBlock cache).maxElements := h2
      rcases hs with ⟨h3, h4⟩ | h3 | h3
      · exact ⟨h3, .inr h4⟩
      · omega
      · omega
  obtain ⟨free, hfree⟩ : ∃ free, (List.range' cache.blockCapacity
      cache.nextBlockSize).reverse = (cache.blockCapacity + cache.nextBlockSize - 1) :: free := by
    obtain ⟨n, hn⟩ : ∃ n, cache.nextBlockSize = n + 1 := ⟨cache.nextBlockSize - 1, by omega⟩
    rw [hn, List.range'_concat]
    simp
  rw [hfree] at hl
  refine ⟨cache.blockCapacity + cache.nextBlockSize - 1, free, ?_⟩
  rw [addBlock_of_canGrow hg]
  split
  · next hleft =>
    refine ⟨⟨hl.nodup, hl.all, hl.linked, hl.head, hl.tail, hl.chained, hl.freeList, hl.freed,
      hl.loosened⟩, hpush _ ?_, hk.table, hk.maxElements, hk.keyOf, hk.valueOf⟩
    by_cases hfull : (pushBlock cache).blockCapacity = (pushBlock cache).maxElements
    · exact .inr (.inr hfull)
    · rw [hcap', hk.maxElements] at hfull
      rcases hnext with hall | hshare
      · omega
      · refine .inl (shrinkBlock_spec (by omega) hle ?_ rfl (by omega) ?_ ?_)
        · rw [hk.maxElements]
          omega
        · omega
        · rw [hcap', hk.maxElements]
          omega
  · next hleft =>
    exact ⟨hl, hpush _ (.inr (.inl (by have := hg.1; omega))), hk⟩

end Mozkey.Storage.LruCache
