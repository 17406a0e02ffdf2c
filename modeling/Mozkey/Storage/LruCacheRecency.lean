import Mozkey.Storage.LruCacheBlocks
import Mozkey.Infra.RecencyMap

/-!
# `LruCache` is a bounded recency list

* `WellFormed` — the table and the lists have the same elements
* `WellFormed.perform` — every operation does what it does to the recency list
* `bounded_recency_map` — in every run
-/

namespace Mozkey.Storage.LruCache

open Infra

variable {Key Value : Type} [DecidableEq Key] [Inhabited Key] [Inhabited Value]
variable {cache cache' : LruCache Key Value} {lru lru₁ lru₂ free loose : List Nat} {a max : Nat}
variable {key : Key}

/-- The elements in use, the first one in front. -/
def lruElements (cache : LruCache Key Value) : List Nat :=
  follow cache.nextOf cache.blockCapacity cache.lruHead

def freeElements (cache : LruCache Key Value) : List Nat :=
  follow cache.nextOf cache.blockCapacity cache.freeList

def entriesOf (cache : LruCache Key Value) (lru : List Nat) : List (Key × Value) :=
  lru.map fun a => (cache.keyOf a, cache.valueOf a)

/-- The keys and values in use, the first one in front. -/
def entries (cache : LruCache Key Value) : List (Key × Value) := cache.entriesOf cache.lruElements

/-- `lru` are the elements that the table has, and `free` and `loose` are the others. -/
structure WellFormed (max : Nat) (cache : LruCache Key Value) (lru free loose : List Nat) :
    Prop where
  lists : Lists cache lru free loose
  blocks : Blocks max cache
  table : ∀ k a, cache.table k = some a ↔ a ∈ lru ∧ cache.keyOf a = k

/-! ## Reading the lists -/

section Reading

omit [DecidableEq Key] [Inhabited Key] [Inhabited Value]

theorem Lists.length_le (h : Lists cache lru free loose) :
    (lru ++ free ++ loose).length ≤ cache.blockCapacity := by
  have hsub : (lru ++ free ++ loose) ⊆ List.range cache.blockCapacity := fun a ha =>
    List.mem_range.mpr ((h.all a).mp ha)
  simpa using (List.subperm_of_subset h.nodup hsub).length_le

theorem Lists.lruElements_eq (h : Lists cache lru free loose) : cache.lruElements = lru := by
  have hlen := h.length_le
  simp only [List.length_append] at hlen
  rw [lruElements, h.head]
  exact h.linked.chained.follow_eq (by omega)

theorem Lists.freeElements_eq (h : Lists cache lru free loose) : cache.freeElements = free := by
  have hlen := h.length_le
  simp only [List.length_append] at hlen
  rw [freeElements, h.freeList]
  exact h.chained.follow_eq (by omega)

theorem Lists.entries_eq (h : Lists cache lru free loose) :
    cache.entries = cache.entriesOf lru := by
  rw [entries, h.lruElements_eq]

theorem keys_entriesOf (lru : List Nat) :
    Recency.keys (cache.entriesOf lru) = lru.map cache.keyOf := by
  simp [Recency.keys, entriesOf]

/-- No two elements have the same key. -/
theorem WellFormed.nodup_keys (h : WellFormed max cache lru free loose) :
    (Recency.keys (cache.entriesOf lru)).Nodup := by
  rw [keys_entriesOf]
  refine h.lists.nodup_lru.map_on fun a ha b hb hab => ?_
  have hta := (h.table (cache.keyOf b) a).mpr ⟨ha, hab⟩
  have htb := (h.table (cache.keyOf b) b).mpr ⟨hb, rfl⟩
  exact Option.some.inj (hta.symm.trans htb)

theorem WellFormed.table_eq_none (h : WellFormed max cache lru free loose)
    (hk : cache.table key = none) : key ∉ Recency.keys (cache.entriesOf lru) := by
  rw [keys_entriesOf]
  intro hmem
  obtain ⟨a, ha, hak⟩ := List.mem_map.mp hmem
  have := (h.table key a).mpr ⟨ha, hak⟩
  simp [hk] at this

/-- The element of a key, with the others before and after it. -/
theorem WellFormed.table_eq_some (h : WellFormed max cache lru free loose)
    (hk : cache.table key = some a) :
      cache.keyOf a = key ∧ ∃ lru₁ lru₂, lru = lru₁ ++ a :: lru₂ := by
  obtain ⟨ha, hkey⟩ := (h.table key a).mp hk
  exact ⟨hkey, List.append_of_mem ha⟩

theorem entriesOf_congr (hk : ∀ a ∈ lru, cache'.keyOf a = cache.keyOf a)
    (hv : ∀ a ∈ lru, cache'.valueOf a = cache.valueOf a) :
    cache'.entriesOf lru = cache.entriesOf lru :=
  List.map_congr_left fun a ha => by rw [hk a ha, hv a ha]

theorem entriesOf_append :
    cache.entriesOf (lru₁ ++ lru₂) = cache.entriesOf lru₁ ++ cache.entriesOf lru₂ :=
  List.map_append

theorem Keeps.entriesOf (h : Keeps cache cache' lru) :
    cache'.entriesOf lru = cache.entriesOf lru :=
  entriesOf_congr h.keyOf h.valueOf

theorem entriesOf_middle : cache.entriesOf (lru₁ ++ a :: lru₂) =
    cache.entriesOf lru₁ ++ (cache.keyOf a, cache.valueOf a) :: cache.entriesOf lru₂ := by
  rw [entriesOf_append]
  rfl

theorem entriesOf_setTable [DecidableEq Key] (cache : LruCache Key Value) (k : Key) (p : Option Nat)
    (lru : List Nat) : (cache.setTable k p).entriesOf lru = cache.entriesOf lru := rfl

end Reading

/-! ## Taking elements out and in -/

omit [Inhabited Key] [Inhabited Value] in
/-- **An element of the list is evicted, and the `CHECK` on its key holds.** -/
theorem WellFormed.evict (h : WellFormed max cache (lru₁ ++ a :: lru₂) free []) :
    ∃ cache', cache.evict (some a) = some (true, cache') ∧
      WellFormed max cache' (lru₁ ++ lru₂) (a :: free) [] ∧
      Keeps (cache.setTable (cache.keyOf a) none) cache' (lru₁ ++ lru₂) := by
  have hkey : cache.table (cache.elements a).key = some a := (h.table _ a).mpr ⟨by simp, rfl⟩
  have hne : cache.table (cache.elements a).key ≠ none := by simp [hkey]
  have hd : SameData (cache.setTable (cache.elements a).key none)
      (((cache.setTable (cache.elements a).key none).removeFromLru a).pushFreeList a) :=
    (sameData_removeFromLru _ a).trans (sameData_pushFreeList _ a)
  have hl : Lists (cache.setTable (cache.elements a).key none) (lru₁ ++ a :: lru₂) free [] :=
    ⟨h.lists.nodup, h.lists.all, h.lists.linked, h.lists.head, h.lists.tail, h.lists.chained,
      h.lists.freeList, h.lists.freed, h.lists.loosened⟩
  have hb :
    Blocks max (cache.setTable (cache.elements a).key none) := h.blocks.congr rfl rfl rfl rfl
  refine ⟨_, by rw [LruCache.evict, if_neg hne], ⟨hl.removeFromLru.pushFreeList,
    hb.of_sameData hd, fun k b => ?_⟩, hd.keeps⟩
  rw [hd.table, hd.keyOf]
  show (if k = cache.keyOf a then none else cache.table k) = some b ↔
    b ∈ lru₁ ++ lru₂ ∧ cache.keyOf b = k
  have hnd := h.lists.nodup_lru
  have hmem : b ∈ lru₁ ++ a :: lru₂ ↔ b = a ∨ b ∈ lru₁ ++ lru₂ := by
    simp only [List.mem_append, List.mem_cons]
    tauto
  have ha : a ∉ lru₁ ++ lru₂ := by
    rw [List.nodup_middle] at hnd
    exact (List.nodup_cons.mp hnd).1
  by_cases hk : k = cache.keyOf a
  · -- no other element has the key
    rw [if_pos hk]
    refine ⟨fun h => (by cases h), fun ⟨hb', hbk⟩ => ?_⟩
    have hta := (h.table k a).mpr ⟨by simp, hk.symm⟩
    have htb := (h.table k b).mpr ⟨hmem.mpr (.inr hb'), hbk⟩
    rw [hta, Option.some.injEq] at htb
    exact absurd (htb ▸ hb') ha
  · rw [if_neg hk, h.table, hmem]
    constructor
    · rintro ⟨rfl | hb', hbk⟩
      · exact absurd hbk.symm hk
      · exact ⟨hb', hbk⟩
    · exact fun ⟨hb', hbk⟩ => ⟨.inr hb', hbk⟩

/-- The next free element, if there is room for one. -/
theorem WellFormed.nextFreeElement (h : WellFormed max cache lru free []) :
    (cache.hasRoom = true ∧ ∃ a free' cache', cache.nextFreeElement = some (some a, cache') ∧
      WellFormed max cache' lru free' [a] ∧ Keeps cache cache' lru) ∨
    (cache.hasRoom = false ∧ free = [] ∧ cache.nextFreeElement = some (none, cache)) := by
  cases free with
  | cons a free =>
    obtain ⟨cache', hpop, hl, hd⟩ := h.lists.popFreeList
    refine .inl ⟨by simp [hasRoom, h.lists.freeList], a, free, cache', ?_,
      ⟨hl, h.blocks.of_sameData hd, ?_⟩, hd.keeps⟩
    · simp [LruCache.nextFreeElement, hpop]
    · intro k b
      rw [hd.table, hd.keyOf]
      exact h.table k b
  | nil =>
    have hpop := popFreeList_of_nil h.lists
    have hfree : cache.freeList = none := h.lists.freeList
    by_cases hg : CanGrow cache
    · obtain ⟨a, free', hl, hb, hk⟩ := h.lists.addBlock h.blocks hg
      obtain ⟨cache', hpop', hl', hd⟩ := hl.popFreeList
      refine .inl ⟨?_, a, free', cache', ?_, ⟨hl', hb.of_sameData hd, ?_⟩, hk.trans hd.keeps⟩
      · rw [hasRoom, hfree]
        simpa [CanGrow] using hg
      · rw [LruCache.nextFreeElement, hpop]
        exact hpop'
      · intro k b
        rw [hd.table, hk.table, hd.keyOf, h.table]
        exact and_congr_right fun hb => by rw [hk.keyOf b hb]
    · refine .inr ⟨?_, rfl, ?_⟩
      · rw [hasRoom, hfree]
        simpa [CanGrow] using hg
      · rw [LruCache.nextFreeElement, hpop]
        show cache.addBlock.popFreeList = _
        rw [addBlock_of_not_canGrow hg, hpop]

/-- An element that was taken off the lists gets a new key, in front. -/
def place (cache : LruCache Key Value) (a : Nat) (key : Key) : LruCache Key Value :=
  ((cache.setKey a key).setTable key (some a)).pushLruHead a

omit [Inhabited Key] [Inhabited Value] in
theorem WellFormed.place (h : WellFormed max cache lru free [a]) (hkey : cache.table key = none) :
    WellFormed max (cache.place a key) (a :: lru) free [] ∧ (cache.place a key).keyOf a = key ∧
      (cache.place a key).entriesOf lru = cache.entriesOf lru := by
  have hl : Lists ((cache.setKey a key).setTable key (some a)) lru free [a] := by
    have hn : ∀ b, ((cache.setKey a key).setTable key (some a)).nextOf b = cache.nextOf b := by
      intro b
      simp only [nextOf, setTable, setKey]
      split <;> rfl
    have hp : ∀ b, ((cache.setKey a key).setTable key (some a)).prevOf b = cache.prevOf b := by
      intro b
      simp only [prevOf, setTable, setKey]
      split <;> rfl
    exact ⟨h.lists.nodup, h.lists.all, h.lists.linked.congr (fun b _ => hn b) (fun b _ => hp b),
      h.lists.head, h.lists.tail, h.lists.chained.congr (fun b _ => hn b), h.lists.freeList,
      fun b hb => (hp b).trans (h.lists.freed b hb),
      fun b hb => ⟨(hn b).trans (h.lists.loosened b hb).1,
        (hp b).trans (h.lists.loosened b hb).2⟩⟩
  have hb :
    Blocks max ((cache.setKey a key).setTable key (some a)) := h.blocks.congr rfl rfl rfl rfl
  have hd := sameData_pushLruHead ((cache.setKey a key).setTable key (some a)) a
  have ha : a ∉ lru := fun ha => h.lists.not_mem_loose (List.mem_append_left _ ha) (by simp)
  have hkeyOf : ∀ b, (cache.place a key).keyOf b = if b = a then key else cache.keyOf b := by
    intro b
    rw [LruCache.place, hd.keyOf]
    simp only [keyOf, setTable, setKey]
    split <;> rfl
  have hvalueOf : ∀ b, (cache.place a key).valueOf b = cache.valueOf b := by
    intro b
    rw [LruCache.place, hd.valueOf]
    simp only [valueOf, setTable, setKey]
    split <;> rfl
  have hkeys : ∀ b ∈ lru, (cache.place a key).keyOf b = cache.keyOf b := fun b hb => by
    rw [hkeyOf, if_neg (fun e : b = a => ha (e ▸ hb))]
  refine ⟨⟨hl.pushLruHead, hb.of_sameData hd, fun k b => ?_⟩, by rw [hkeyOf, if_pos rfl],
    entriesOf_congr hkeys fun b _ => hvalueOf b⟩
  have htable : (cache.place a key).table k = if k = key then some a else cache.table k := by
    rw [LruCache.place, hd.table]
    rfl
  show (cache.place a key).table k = some b ↔ b ∈ a :: lru ∧ (cache.place a key).keyOf b = k
  rw [htable, List.mem_cons]
  by_cases hk : k = key
  · -- the key had no element before
    rw [if_pos hk, Option.some.injEq]
    constructor
    · rintro rfl
      exact ⟨.inl rfl, by rw [hkeyOf, if_pos rfl, hk]⟩
    · rintro ⟨rfl | hb, hbk⟩
      · rfl
      · rw [hkeys b hb] at hbk
        have := (h.table k b).mpr ⟨hb, hbk⟩
        simp [hk, hkey] at this
  · rw [if_neg hk, h.table]
    constructor
    · rintro ⟨hb, hbk⟩
      exact ⟨.inr hb, by rw [hkeys b hb, hbk]⟩
    · rintro ⟨rfl | hb, hbk⟩
      · rw [hkeyOf, if_pos rfl] at hbk
        exact absurd hbk.symm hk
      · exact ⟨hb, by rw [← hkeys b hb, hbk]⟩

omit [DecidableEq Key] [Inhabited Key] [Inhabited Value] in
/-- When there is no room, there is an element to be evicted. -/
theorem WellFormed.exists_last (h : WellFormed max cache lru [] [])
    (hroom : cache.hasRoom = false) :
    ∃ l b, lru = l ++ [b] := by
  rcases List.eq_nil_or_concat lru with rfl | ⟨l, b, hl⟩
  · have hcap : ¬0 < cache.blockCapacity := fun h0 => by
      have := (h.lists.all 0).mpr h0
      simp at this
    have hpos := h.blocks.maxElements_pos
    have hcount := h.blocks.blockCapacity_pos
    simp only [hasRoom, Bool.or_eq_false_iff, Bool.and_eq_false_iff, decide_eq_false_iff_not]
      at hroom
    rcases hroom.2 with hfull | hfull
    · have : maxBlocks = 10 := rfl
      omega
    · omega
  · exact ⟨l, b, by rw [hl, List.concat_eq_append]⟩

/-- **`Insert` puts the key in front, in an element of its own.** -/
theorem WellFormed.insertKey (h : WellFormed max cache lru free []) (key : Key) :
    ∃ a rest free' cache', cache.insertKey key = some (a, cache') ∧
      WellFormed max cache' (a :: rest) free' [] ∧ cache'.keyOf a = key ∧
      ∀ v, (key, v) :: cache'.entriesOf rest =
        Recency.put cache.hasRoom key v (cache.entriesOf lru) := by
  cases hk : cache.table key with
  | some b =>
    -- the element of the key becomes free, and is the next free one
    obtain ⟨hkey, l₁, l₂, rfl⟩ := h.table_eq_some hk
    obtain ⟨cache₁, hev, h₁, hkeep₁⟩ := h.evict
    rcases h₁.nextFreeElement with ⟨-, a, free', cache₂, hnext, h₂, hkeep₂⟩ | ⟨-, hnil, -⟩
    · have hnone : cache₂.table key = none := by
        rw [hkeep₂.table, hkeep₁.table]
        exact if_pos hkey.symm
      obtain ⟨h₃, hkey₃, hentries⟩ := h₂.place hnone
      refine ⟨a, l₁ ++ l₂, free', _, ?_, h₃, hkey₃, fun v => ?_⟩
      · simp only [LruCache.insertKey, hk]
        rw [if_pos (by simp), hev]
        simp only [Option.bind_eq_bind, Option.bind_some, guard, hnext]
        rfl
      · have hnd := h.nodup_keys
        rw [entriesOf_middle, hkey] at hnd
        rw [hentries, hkeep₂.entriesOf, hkeep₁.entriesOf, entriesOf_setTable, entriesOf_middle,
          hkey, Recency.put_middle _ _ hnd, entriesOf_append]
    · cases hnil
  | none =>
    have hnew := h.table_eq_none hk
    rcases h.nextFreeElement with ⟨hroom, a, free', cache₁, hnext, h₁, hkeep₁⟩ |
      ⟨hroom, rfl, hnext⟩
    · have hnone : cache₁.table key = none := by rw [hkeep₁.table, hk]
      obtain ⟨h₂, hkey₂, hentries⟩ := h₁.place hnone
      refine ⟨a, lru, free', _, ?_, h₂, hkey₂, fun v => ?_⟩
      · simp only [LruCache.insertKey, hk]
        rw [if_neg (by simp)]
        simp only [Option.bind_eq_bind, Option.bind_some, guard, hnext]
        rfl
      · simp [hentries, hkeep₁.entriesOf, Recency.put_of_not_mem _ _ hnew, hroom]
    · -- the last element makes room
      obtain ⟨l, b, rfl⟩ := h.exists_last hroom
      have htail : cache.lruTail = some b := by rw [h.lists.tail]; simp
      obtain ⟨cache₁, hev, h₁, hkeep₁⟩ :
          ∃ cache₁, cache.evict (some b) = some (true, cache₁) ∧
            WellFormed max cache₁ (l ++ []) [b] [] ∧
            Keeps (cache.setTable (cache.keyOf b) none) cache₁ (l ++ []) := h.evict
      rcases h₁.nextFreeElement with ⟨-, a, free', cache₂, hnext', h₂, hkeep₂⟩ | ⟨-, hnil, -⟩
      · have hnone : cache₂.table key = none := by
          rw [hkeep₂.table, hkeep₁.table]
          show (if key = cache.keyOf b then none else cache.table key) = none
          rw [hk, ite_self]
        obtain ⟨h₃, hkey₃, hentries⟩ := h₂.place hnone
        rw [List.append_nil] at h₃ hentries hkeep₁ hkeep₂
        refine ⟨a, l, free', _, ?_, h₃, hkey₃, fun v => ?_⟩
        · simp only [LruCache.insertKey, hk]
          rw [if_neg (by simp)]
          simp only [Option.bind_eq_bind, Option.bind_some, guard, hnext, htail, hev, hnext']
          rfl
        · rw [hentries, hkeep₂.entriesOf, hkeep₁.entriesOf, entriesOf_setTable,
            Recency.put_of_not_mem _ _ hnew, hroom, entriesOf_append]
          exact congrArg _ List.dropLast_concat.symm
      · cases hnil

/-! ## Looking up -/

omit [DecidableEq Key] [Inhabited Key] [Inhabited Value] in
/-- The value of an element is changed. -/
theorem WellFormed.setValue (h : WellFormed max cache lru free []) (a : Nat) (v : Value) :
    WellFormed max (cache.setValue a v) lru free [] := by
  have hn : (cache.setValue a v).nextOf = cache.nextOf := funext fun b => by
    simp only [nextOf, LruCache.setValue]
    split <;> rfl
  have hp : (cache.setValue a v).prevOf = cache.prevOf := funext fun b => by
    simp only [prevOf, LruCache.setValue]
    split <;> rfl
  have hk : (cache.setValue a v).keyOf = cache.keyOf := funext fun b => by
    simp only [keyOf, LruCache.setValue]
    split <;> rfl
  refine ⟨⟨h.lists.nodup, h.lists.all, ?_, h.lists.head, h.lists.tail, ?_, h.lists.freeList, ?_,
    ?_⟩, h.blocks.congr rfl rfl rfl rfl, ?_⟩
  · rw [hn, hp]
    exact h.lists.linked
  · rw [hn]
    exact h.lists.chained
  · rw [hp]
    exact h.lists.freed
  · simp
  · rw [hk]
    exact h.table

omit [DecidableEq Key] [Inhabited Key] [Inhabited Value] in
theorem entriesOf_setValue (h : (a :: lru).Nodup) (v : Value) :
    (cache.setValue a v).entriesOf (a :: lru) = (cache.keyOf a, v) :: cache.entriesOf lru := by
  have ha : (cache.setValue a v).elements a = { cache.elements a with value := v } := if_pos rfl
  have hlru : ∀ b ∈ lru, (cache.setValue a v).elements b = cache.elements b := fun b hb =>
    if_neg fun e : b = a => (List.nodup_cons.mp h).1 (e ▸ hb)
  have hrest : (cache.setValue a v).entriesOf lru = cache.entriesOf lru :=
    entriesOf_congr (fun b hb => congrArg Element.key (hlru b hb))
      (fun b hb => congrArg Element.value (hlru b hb))
  have hkey : (cache.setValue a v).keyOf a = cache.keyOf a := by
    rw [keyOf, ha]
    rfl
  have hvalue : (cache.setValue a v).valueOf a = v := by
    rw [valueOf, ha]
  calc (cache.setValue a v).entriesOf (a :: lru)
      = ((cache.setValue a v).keyOf a, (cache.setValue a v).valueOf a) ::
        (cache.setValue a v).entriesOf lru := rfl
    _ = (cache.keyOf a, v) :: cache.entriesOf lru := by rw [hkey, hvalue, hrest]

omit [Inhabited Key] [Inhabited Value] in
/-- **`MutableLookup` puts the element of the key in front**, if there is one. -/
theorem WellFormed.mutableLookup (h : WellFormed max cache lru free []) (key : Key) :
    (cache.mutableLookup key = (none, cache) ∧ key ∉ Recency.keys (cache.entriesOf lru)) ∨
    ∃ a rest cache', cache.mutableLookup key = (some a, cache') ∧
      WellFormed max cache' (a :: rest) free [] ∧ cache'.keyOf a = key ∧
      cache'.entriesOf (a :: rest) = Recency.touch key (cache.entriesOf lru) ∧
      Recency.value? key (cache.entriesOf lru) = some (cache'.valueOf a) := by
  cases hk : cache.table key with
  | none =>
    refine .inl ⟨?_, h.table_eq_none hk⟩
    rw [LruCache.mutableLookup, hk]
  | some a =>
    obtain ⟨hkey, l₁, l₂, rfl⟩ := h.table_eq_some hk
    have hd := sameData_pushLruHead cache a
    have hnd := h.nodup_keys
    rw [entriesOf_middle, hkey] at hnd
    refine .inr ⟨a, l₁ ++ l₂, cache.pushLruHead a, ?_, ⟨h.lists.moveToHead,
      h.blocks.of_sameData hd, fun k b => ?_⟩, by rw [hd.keyOf, hkey], ?_, ?_⟩
    · rw [LruCache.mutableLookup, hk]
    · rw [hd.table, hd.keyOf, h.table]
      simp only [List.mem_append, List.mem_cons]
      tauto
    · rw [hd.keeps.entriesOf, entriesOf_middle, hkey, Recency.touch_middle hnd]
      simp [LruCache.entriesOf, hkey]
    · rw [hd.valueOf, entriesOf_middle, hkey,
        Recency.value?_middle (Recency.not_mem_keys_of_nodup hnd).1]

omit [Inhabited Key] [Inhabited Value] in
theorem WellFormed.lookupWithoutInsert (h : WellFormed max cache lru free []) (key : Key) :
    cache.lookupWithoutInsert key = Recency.value? key (cache.entriesOf lru) := by
  cases hk : cache.table key with
  | none =>
    rw [LruCache.lookupWithoutInsert, hk, Recency.value?_of_not_mem (h.table_eq_none hk)]; rfl
  | some a =>
    obtain ⟨hkey, l₁, l₂, rfl⟩ := h.table_eq_some hk
    have hnd := h.nodup_keys
    rw [entriesOf_middle, hkey] at hnd
    rw [LruCache.lookupWithoutInsert, hk, entriesOf_middle, hkey,
      Recency.value?_middle (Recency.not_mem_keys_of_nodup hnd).1]
    rfl

/-! ## Taking out -/

omit [Inhabited Key] [Inhabited Value] in
theorem WellFormed.erase (h : WellFormed max cache lru free []) (key : Key) :
    ∃ lru' free' cache', cache.erase key =
        some ((Recency.value? key (cache.entriesOf lru)).isSome, cache') ∧
      WellFormed max cache' lru' free' [] ∧
      cache'.entriesOf lru' = Recency.remove key (cache.entriesOf lru) := by
  cases hk : cache.table key with
  | none =>
    have hnew := h.table_eq_none hk
    refine ⟨lru, free, cache, ?_, h, (Recency.remove_of_not_mem hnew).symm⟩
    rw [LruCache.erase, hk, Recency.value?_of_not_mem hnew]
    rfl
  | some a =>
    obtain ⟨hkey, l₁, l₂, rfl⟩ := h.table_eq_some hk
    obtain ⟨cache', hev, h', hkeep⟩ := h.evict
    have hnd := h.nodup_keys
    rw [entriesOf_middle, hkey] at hnd
    refine ⟨l₁ ++ l₂, a :: free, cache', ?_, h', ?_⟩
    · simp [LruCache.erase, hk, hev, entriesOf_middle, hkey, Recency.value?_middle
        (Recency.not_mem_keys_of_nodup hnd).1]
    · rw [hkeep.entriesOf, entriesOf_setTable, entriesOf_middle, hkey, Recency.remove_middle hnd,
        entriesOf_append]

/-- The loop of `Clear` has still to free the elements of `rest`. -/
structure Clearing (cache : LruCache Key Value) (rest free : List Nat) : Prop where
  nodup : (rest ++ free).Nodup
  all : ∀ a, a ∈ rest ++ free ↔ a < cache.blockCapacity
  rest : Chained cache.nextOf rest
  chained : Chained cache.nextOf free
  freeList : cache.freeList = free.head?
  freed : ∀ a ∈ free, cache.prevOf a = none

omit [DecidableEq Key] [Inhabited Key] [Inhabited Value] in
theorem Clearing.pushFreeList {rest : List Nat} (h : Clearing cache (a :: rest) free) :
    Clearing (cache.pushFreeList a) rest (a :: free) := by
  obtain ⟨hrest, hfree⟩ : a ∉ rest ∧ a ∉ free := by
    simpa using (List.nodup_cons.mp h.nodup).1
  have hn : ∀ b ≠ a, (cache.pushFreeList a).nextOf b = cache.nextOf b := fun b hb => by
    rw [nextOf_pushFreeList, if_neg hb]
  have hperm : (rest ++ a :: free).Perm (a :: rest ++ free) := List.perm_middle
  refine ⟨hperm.nodup_iff.mpr h.nodup, fun b => hperm.mem_iff.trans ?_, ?_, ?_, rfl, ?_⟩
  · rw [(sameData_pushFreeList cache a).blockCapacity]
    exact h.all b
  · exact (chained_cons.mp h.rest).2.congr fun b hb => hn b fun e => hrest (e ▸ hb)
  · refine chained_cons.mpr ⟨?_, h.chained.congr fun b hb => hn b fun e => hfree (e ▸ hb)⟩
    simp [nextOf_pushFreeList, h.freeList]
  · intro b hb
    rw [prevOf_pushFreeList]
    rcases List.mem_cons.mp hb with rfl | hb
    · simp
    · rw [h.freed b hb, ite_self]

omit [DecidableEq Key] [Inhabited Key] [Inhabited Value] in
/-- **The loop of `Clear` frees one element after the other.** -/
theorem Clearing.run : ∀ {rest : List Nat} {cache : LruCache Key Value} {free : List Nat}
    {fuel : Nat}, Clearing cache rest free → rest.length < fuel →
    ∃ free' cache', run clearStep fuel
        ((rest.head?, rest.head?.bind fun a => (cache.elements a).next), cache) = some cache' ∧
      Clearing cache' [] free' ∧ SameData cache cache'
  | [], cache, free, 0, _, hf => by simp at hf
  | [], cache, free, fuel + 1, h, _ => ⟨free, cache, rfl, h, .refl cache⟩
  | a :: rest, cache, free, 0, _, hf => by simp at hf
  | a :: rest, cache, free, fuel + 1, h, hf => by
    have hlen : rest.length < fuel := by simpa using hf
    obtain ⟨free', cache', hrun, h', hd⟩ := h.pushFreeList.run hlen
    refine ⟨free', cache', ?_, h', (sameData_pushFreeList cache a).trans hd⟩
    have hnext : (cache.elements a).next = rest.head? := (chained_cons.mp h.rest).1
    rw [List.head?_cons, Option.bind_some, hnext, ← hrun]
    rfl

omit [DecidableEq Key] [Inhabited Key] [Inhabited Value] in
theorem WellFormed.clear (h : WellFormed max cache lru free []) :
    ∃ free' cache', cache.clear = some cache' ∧ WellFormed max cache' [] free' [] := by
  have hc : Clearing { cache with table := fun _ => none } lru free := by
    have hnd := h.lists.nodup
    have hall := h.lists.all
    simp only [List.append_nil] at hnd hall
    exact ⟨hnd, hall, h.lists.linked.chained, h.lists.chained, h.lists.freeList, h.lists.freed⟩
  have hlen := h.lists.length_le
  simp only [List.length_append] at hlen
  have hfuel : lru.length < cache.blockCapacity + 1 := by omega
  obtain ⟨free', cache', hrun, h', hd⟩ := hc.run hfuel
  refine ⟨free', { cache' with lruHead := none, lruTail := none }, ?_, ⟨⟨?_, ?_, linked_nil, rfl,
    rfl, h'.chained, h'.freeList, h'.freed, by simp⟩, ?_, ?_⟩⟩
  · have hrun' : Infra.run clearStep (cache.blockCapacity + 1)
        ((cache.lruHead, cache.lruHead.bind fun a => (cache.elements a).next),
          { cache with table := fun _ => none }) = some cache' := by
      simpa [← h.lists.head] using hrun
    rw [LruCache.clear]
    simp only [hrun']
    rfl
  · simpa using h'.nodup
  · intro a
    simpa using h'.all a
  · exact h.blocks.congr hd.blockCount hd.blockCapacity hd.nextBlockSize hd.maxElements
  · intro k a
    show cache'.table k = some a ↔ _
    rw [hd.table]
    simp

/-! ## Runs -/

/-- A call. The caller of `MutableLookup` writes through the pointer that it gets. -/
inductive Op (Key Value : Type) where
  | insert (key : Key) (value : Value)
  | insertKey (key : Key)
  | lookup (key : Key)
  | mutableLookup (key : Key) (write : Value → Value)
  | lookupWithoutInsert (key : Key)
  | erase (key : Key)
  | clear

inductive Answer (Value : Type) where
  | done
  | found (value : Option Value)
  | erased (erased : Bool)
  deriving DecidableEq

def perform (op : Op Key Value) (cache : LruCache Key Value) :
    Option (Answer Value × LruCache Key Value) :=
  match op with
  | .insert key value => (cache.insert key value).map fun cache => (.done, cache)
  | .insertKey key => (cache.insertKey key).map fun (_, cache) => (.done, cache)
  | .lookup key =>
    let (value, cache) := cache.lookup key
    some (.found value, cache)
  | .mutableLookup key write =>
    let (e, cache) := cache.mutableLookup key
    some (.found (e.map cache.valueOf),
      e.elim cache fun e => cache.setValue e (write (cache.valueOf e)))
  | .lookupWithoutInsert key => some (.found (cache.lookupWithoutInsert key), cache)
  | .erase key => (cache.erase key).map fun (erased, cache) => (.erased erased, cache)
  | .clear => cache.clear.map fun cache => (.done, cache)

def performAll : List (Op Key Value) → LruCache Key Value → Option (LruCache Key Value)
  | [], cache => some cache
  | op :: ops, cache => do
    let (_, cache) ← perform op cache
    performAll ops cache

/-- What a call does to the recency list, when there is `room` for a new key or not. The value
after `Insert(key)` is the `stale` one that was in the element before. -/
def specify (room : Bool) (stale : Value) (op : Op Key Value) (entries : List (Key × Value)) :
    Answer Value × List (Key × Value) :=
  match op with
  | .insert key value => (.done, Recency.put room key value entries)
  | .insertKey key => (.done, Recency.put room key stale entries)
  | .lookup key => (.found (Recency.value? key entries), Recency.touch key entries)
  | .mutableLookup key write =>
    (.found (Recency.value? key entries), Recency.modify key write (Recency.touch key entries))
  | .lookupWithoutInsert key => (.found (Recency.value? key entries), entries)
  | .erase key => (.erased (Recency.value? key entries).isSome, Recency.remove key entries)
  | .clear => (.done, [])

/-- **Every call succeeds, and does to the list what it is specified to do.** -/
theorem WellFormed.perform (h : WellFormed max cache lru free []) (op : Op Key Value) :
    ∃ stale lru' free' cache', perform op cache =
        some ((specify cache.hasRoom stale op (cache.entriesOf lru)).1, cache') ∧
      WellFormed max cache' lru' free' [] ∧
      cache'.entriesOf lru' = (specify cache.hasRoom stale op (cache.entriesOf lru)).2 := by
  cases op with
  | insert key value =>
    obtain ⟨a, rest, free', cache', hins, h', hkey, hput⟩ := h.insertKey key
    refine ⟨value, a :: rest, free', cache'.setValue a value, ?_, h'.setValue a value, ?_⟩
    · rw [LruCache.perform, LruCache.insert, hins]
      rfl
    · rw [entriesOf_setValue h'.lists.nodup_lru, hkey, hput]
      rfl
  | insertKey key =>
    obtain ⟨a, rest, free', cache', hins, h', hkey, hput⟩ := h.insertKey key
    refine ⟨cache'.valueOf a, a :: rest, free', cache', ?_, h', ?_⟩
    · rw [LruCache.perform, hins]
      rfl
    · rw [specify, ← hput, ← hkey]
      rfl
  | lookup key =>
    rcases h.mutableLookup key with ⟨hl, hnew⟩ | ⟨a, rest, cache', hl, h', -, htouch, hvalue⟩
    · refine ⟨default, lru, free, cache, ?_, h, (Recency.touch_of_not_mem hnew).symm⟩
      simp [LruCache.perform, LruCache.lookup, hl, specify, Recency.value?_of_not_mem hnew]
    · refine ⟨default, a :: rest, free, cache', ?_, h', htouch⟩
      rw [LruCache.perform, LruCache.lookup, hl, specify, hvalue]
      rfl
  | mutableLookup key write =>
    rcases h.mutableLookup key with ⟨hl, hnew⟩ | ⟨a, rest, cache', hl, h', hkey, htouch, hvalue⟩
    · refine ⟨default, lru, free, cache, ?_, h, ?_⟩
      · simp [LruCache.perform, hl, specify, Recency.value?_of_not_mem hnew]
      · rw [specify, Recency.touch_of_not_mem hnew, Recency.modify_of_not_mem _ hnew]
    · refine ⟨default, a :: rest, free, cache'.setValue a (write (cache'.valueOf a)), ?_,
        h'.setValue _ _, ?_⟩
      · simp [LruCache.perform, hl, specify, hvalue]
      · have hnd := h'.nodup_keys
        rw [keys_entriesOf, List.map_cons, hkey, ← keys_entriesOf] at hnd
        rw [specify, ← htouch, entriesOf_setValue h'.lists.nodup_lru, hkey]
        show _ = Recency.modify key write ((cache'.keyOf a, cache'.valueOf a) ::
          cache'.entriesOf rest)
        rw [hkey, Recency.modify_cons _ (List.nodup_cons.mp hnd).1]
  | lookupWithoutInsert key =>
    refine ⟨default, lru, free, cache, ?_, h, rfl⟩
    rw [LruCache.perform, h.lookupWithoutInsert]
    rfl
  | erase key =>
    obtain ⟨lru', free', cache', her, h', hremove⟩ := h.erase key
    refine ⟨default, lru', free', cache', ?_, h', hremove⟩
    rw [LruCache.perform, her]
    rfl
  | clear =>
    obtain ⟨free', cache', hcl, h'⟩ := h.clear
    refine ⟨default, [], free', cache', ?_, h', rfl⟩
    rw [LruCache.perform, hcl]
    rfl

/-- The lists that the pointers make are those of a well-formed cache. -/
def Sound (max : Nat) (cache : LruCache Key Value) : Prop :=
  WellFormed max cache cache.lruElements cache.freeElements []

omit [DecidableEq Key] [Inhabited Key] [Inhabited Value] in
theorem WellFormed.sound (h : WellFormed max cache lru free []) : Sound max cache := by
  rw [Sound, h.lists.lruElements_eq, h.lists.freeElements_eq]
  exact h

theorem Sound.perform (h : Sound max cache) (op : Op Key Value) :
    ∃ stale cache', LruCache.perform op cache =
        some ((specify cache.hasRoom stale op cache.entries).1, cache') ∧ Sound max cache' ∧
      cache'.entries = (specify cache.hasRoom stale op cache.entries).2 := by
  obtain ⟨stale, lru', free', cache', hop, h', hentries⟩ := WellFormed.perform h op
  refine ⟨stale, cache', hop, h'.sound, ?_⟩
  rw [h'.lists.entries_eq]
  exact hentries

theorem Sound.performAll : ∀ (ops : List (Op Key Value)) {cache : LruCache Key Value},
    Sound max cache → ∃ cache', LruCache.performAll ops cache = some cache' ∧ Sound max cache'
  | [], cache, h => ⟨cache, rfl, h⟩
  | op :: ops, cache, h => by
    obtain ⟨_, cache₁, hop, h₁, -⟩ := h.perform op
    obtain ⟨cache₂, hops, h₂⟩ := Sound.performAll ops h₁
    refine ⟨cache₂, ?_, h₂⟩
    rw [LruCache.performAll, hop]
    exact hops

theorem Sound.of_construct {fuel : Nat} (hpos : 1 ≤ max) (hle : max ≤ 2 ^ 63)
    (h : construct fuel max = some cache) : Sound max cache ∧ cache.entries = [] := by
  have hl := Lists.of_construct h
  have hwf : WellFormed max cache [] [] [] := by
    refine ⟨hl, .of_construct hpos hle h, fun k a => ?_⟩
    obtain ⟨size, -, rfl⟩ := construct_eq_some h
    simp
  exact ⟨hwf.sound, hl.entries_eq⟩

/-- **A cache is a bounded recency list.** Its constructor returns for every capacity up to
`2 ^ 63`. After any calls the elements are in use or free, each on the one list that its
pointers are of, the table has the keys of those in use, and no more than `max` elements were
allocated. The next call passes its `CHECK`s and does to the recency list what it is specified
to do: only a new key takes the last one out, and only when there is no room. -/
theorem bounded_recency_map (max : Nat) (hpos : 1 ≤ max) :
    ((∃ fuel, (construct fuel max : Option (LruCache Key Value)).isSome) ↔ max ≤ 2 ^ 63) ∧
    ∀ (fuel : Nat) (cache : LruCache Key Value), construct fuel max = some cache →
      cache.entries = [] ∧ ∀ ops : List (Op Key Value), ∃ cache',
        performAll ops cache = some cache' ∧ Sound max cache' ∧ cache'.blockCapacity ≤ max ∧
        ∀ op, ∃ stale cache'', perform op cache' =
            some ((specify cache'.hasRoom stale op cache'.entries).1, cache'') ∧
          cache''.entries = (specify cache'.hasRoom stale op cache'.entries).2 := by
  refine ⟨exists_construct_iff, fun fuel cache h => ?_⟩
  have hle : max ≤ 2 ^ 63 :=
    (@exists_construct_iff Key Value _ _ _ max).mp ⟨fuel, by rw [h]; rfl⟩
  obtain ⟨hs, hnil⟩ := Sound.of_construct hpos hle h
  refine ⟨hnil, fun ops => ?_⟩
  obtain ⟨cache', hops, hs'⟩ := hs.performAll ops
  refine ⟨cache', hops, hs', ?_, fun op => ?_⟩
  · have hcap := hs'.blocks.blockCapacity_le
    rwa [hs'.blocks.maxElements_eq] at hcap
  · obtain ⟨stale, cache'', hop, -, hentries⟩ := hs'.perform op
    exact ⟨stale, cache'', hop, hentries⟩

theorem bounded_recency_map_three :
    ((∃ fuel, (construct fuel 3 : Option (LruCache Nat Nat)).isSome) ↔ 3 ≤ 2 ^ 63) ∧
    ∀ (fuel : Nat) (cache : LruCache Nat Nat), construct fuel 3 = some cache →
      cache.entries = [] ∧ ∀ ops : List (Op Nat Nat), ∃ cache',
        performAll ops cache = some cache' ∧ Sound 3 cache' ∧ cache'.blockCapacity ≤ 3 ∧
        ∀ op, ∃ stale cache'', perform op cache' =
            some ((specify cache'.hasRoom stale op cache'.entries).1, cache'') ∧
          cache''.entries = (specify cache'.hasRoom stale op cache'.entries).2 :=
  bounded_recency_map 3 (by decide)

end Mozkey.Storage.LruCache
