import Mozkey.Storage.LruCache
import Mozkey.Infra.Linked

/-!
# The lists of an `LruCache`

`Lists cache lru free loose` says which elements are in use, in the order of the list, which
are free, and which are on neither list because an operation has just taken them off.

* `Lists.pushFreeList`, `Lists.popFreeList`, `Lists.addBlock`
* `Lists.removeFromLru`, `Lists.pushLruHead`
-/

namespace Mozkey.Storage.LruCache

open Infra

variable {Key Value : Type} [DecidableEq Key] [Inhabited Key] [Inhabited Value]
variable {cache cache' : LruCache Key Value} {lru lru₁ lru₂ free loose : List Nat} {a b : Nat}
variable {p q : Option Nat}

def nextOf (cache : LruCache Key Value) (a : Nat) : Option Nat := (cache.elements a).next
def prevOf (cache : LruCache Key Value) (a : Nat) : Option Nat := (cache.elements a).prev
def keyOf (cache : LruCache Key Value) (a : Nat) : Key := (cache.elements a).key
def valueOf (cache : LruCache Key Value) (a : Nat) : Value := (cache.elements a).value

/-- Everything but the lists is the same. -/
structure SameData (cache cache' : LruCache Key Value) : Prop where
  table : cache'.table = cache.table
  keyOf : cache'.keyOf = cache.keyOf
  valueOf : cache'.valueOf = cache.valueOf
  blockCount : cache'.blockCount = cache.blockCount
  blockCapacity : cache'.blockCapacity = cache.blockCapacity
  nextBlockSize : cache'.nextBlockSize = cache.nextBlockSize
  maxElements : cache'.maxElements = cache.maxElements

/-- The elements are on one of the lists each, and the pointers are those of the lists. -/
structure Lists (cache : LruCache Key Value) (lru free loose : List Nat) : Prop where
  nodup : (lru ++ free ++ loose).Nodup
  all : ∀ a, a ∈ lru ++ free ++ loose ↔ a < cache.blockCapacity
  linked : Linked cache.nextOf cache.prevOf lru
  head : cache.lruHead = lru.head?
  tail : cache.lruTail = lru.getLast?
  chained : Chained cache.nextOf free
  freeList : cache.freeList = free.head?
  freed : ∀ a ∈ free, cache.prevOf a = none
  loosened : ∀ a ∈ loose, cache.nextOf a = none ∧ cache.prevOf a = none

/-! ## Writing through pointers -/

section Writing

omit [DecidableEq Key] [Inhabited Key] [Inhabited Value]

@[simp] theorem nextOf_setNext (cache : LruCache Key Value) :
    (cache.setNext a p).nextOf b = if b = a then p else cache.nextOf b := by
  simp only [nextOf, setNext]
  split <;> rfl

@[simp] theorem prevOf_setNext (cache : LruCache Key Value) :
    (cache.setNext a p).prevOf b = cache.prevOf b := by
  simp only [prevOf, setNext]
  split <;> rfl

@[simp] theorem nextOf_setPrev (cache : LruCache Key Value) :
    (cache.setPrev a p).nextOf b = cache.nextOf b := by
  simp only [nextOf, setPrev]
  split <;> rfl

@[simp] theorem prevOf_setPrev (cache : LruCache Key Value) :
    (cache.setPrev a p).prevOf b = if b = a then p else cache.prevOf b := by
  simp only [prevOf, setPrev]
  split <;> rfl

@[simp] theorem nextOf_setNextOf (cache : LruCache Key Value) :
    (cache.setNextOf p q).nextOf b = if p = some b then q else cache.nextOf b := by
  cases p with
  | none => simp [setNextOf]
  | some a => simp [setNextOf, eq_comm]

@[simp] theorem prevOf_setNextOf (cache : LruCache Key Value) :
    (cache.setNextOf p q).prevOf b = cache.prevOf b := by
  cases p <;> simp [setNextOf]

@[simp] theorem nextOf_setPrevOf (cache : LruCache Key Value) :
    (cache.setPrevOf p q).nextOf b = cache.nextOf b := by
  cases p <;> simp [setPrevOf]

@[simp] theorem prevOf_setPrevOf (cache : LruCache Key Value) :
    (cache.setPrevOf p q).prevOf b = if p = some b then q else cache.prevOf b := by
  cases p with
  | none => simp [setPrevOf]
  | some a => simp [setPrevOf, eq_comm]

theorem nextOf_congr (h : cache'.elements = cache.elements) : cache'.nextOf = cache.nextOf := by
  funext b
  rw [nextOf, nextOf, h]

theorem prevOf_congr (h : cache'.elements = cache.elements) : cache'.prevOf = cache.prevOf := by
  funext b
  rw [prevOf, prevOf, h]

@[simp] theorem ends_setNextOf (cache : LruCache Key Value) :
    (cache.setNextOf p q).lruHead = cache.lruHead ∧
      (cache.setNextOf p q).lruTail = cache.lruTail ∧
      (cache.setNextOf p q).freeList = cache.freeList := by
  cases p <;> exact ⟨rfl, rfl, rfl⟩

@[simp] theorem ends_setPrevOf (cache : LruCache Key Value) :
    (cache.setPrevOf p q).lruHead = cache.lruHead ∧
      (cache.setPrevOf p q).lruTail = cache.lruTail ∧
      (cache.setPrevOf p q).freeList = cache.freeList := by
  cases p <;> exact ⟨rfl, rfl, rfl⟩

theorem SameData.refl (cache : LruCache Key Value) : SameData cache cache :=
  ⟨rfl, rfl, rfl, rfl, rfl, rfl, rfl⟩

theorem SameData.trans {cache'' : LruCache Key Value} (h : SameData cache cache')
    (h' : SameData cache' cache'') : SameData cache cache'' :=
  ⟨h'.table.trans h.table, h'.keyOf.trans h.keyOf, h'.valueOf.trans h.valueOf,
    h'.blockCount.trans h.blockCount, h'.blockCapacity.trans h.blockCapacity,
    h'.nextBlockSize.trans h.nextBlockSize, h'.maxElements.trans h.maxElements⟩

/-- Pointers to the lists are no data. -/
theorem SameData.withPointers (cache : LruCache Key Value) (free head tail : Option Nat) :
    SameData cache { cache with freeList := free, lruHead := head, lruTail := tail } :=
  ⟨rfl, rfl, rfl, rfl, rfl, rfl, rfl⟩

theorem sameData_setNext (cache : LruCache Key Value) (a : Nat) (p : Option Nat) :
    SameData cache (cache.setNext a p) := by
  refine ⟨rfl, funext fun b => ?_, funext fun b => ?_, rfl, rfl, rfl, rfl⟩
  · simp only [keyOf, setNext]
    split <;> rfl
  · simp only [valueOf, setNext]
    split <;> rfl

theorem sameData_setPrev (cache : LruCache Key Value) (a : Nat) (p : Option Nat) :
    SameData cache (cache.setPrev a p) := by
  refine ⟨rfl, funext fun b => ?_, funext fun b => ?_, rfl, rfl, rfl, rfl⟩
  · simp only [keyOf, setPrev]
    split <;> rfl
  · simp only [valueOf, setPrev]
    split <;> rfl

theorem sameData_setNextOf (cache : LruCache Key Value) (p q : Option Nat) :
    SameData cache (cache.setNextOf p q) := by
  cases p with
  | none => exact .refl cache
  | some a => exact sameData_setNext cache a q

theorem sameData_setPrevOf (cache : LruCache Key Value) (p q : Option Nat) :
    SameData cache (cache.setPrevOf p q) := by
  cases p with
  | none => exact .refl cache
  | some a => exact sameData_setPrev cache a q

/-! ## Taking an element off the list -/

/-- The ends of the list when `a` is no longer one. -/
def offEnds (cache : LruCache Key Value) (a : Nat) : LruCache Key Value :=
  { cache with
    lruHead := if cache.lruHead = some a then cache.nextOf a else cache.lruHead
    lruTail := if cache.lruTail = some a then cache.prevOf a else cache.lruTail }

theorem removeFromLru_eq (cache : LruCache Key Value) (a : Nat) (hp : cache.prevOf a ≠ some a) :
    cache.removeFromLru a =
      ((((cache.offEnds a).setNextOf (cache.prevOf a) (cache.nextOf a)).setPrevOf
        (cache.nextOf a) (cache.prevOf a)).setPrev a none).setNext a none := by
  have hnext : ((cache.offEnds a).setNextOf (cache.prevOf a) (cache.nextOf a)).nextOf a =
      cache.nextOf a := by
    rw [nextOf_setNextOf, if_neg hp]
    rfl
  have hprev : ((cache.offEnds a).setNextOf (cache.prevOf a) (cache.nextOf a)).prevOf a =
      cache.prevOf a := prevOf_setNextOf _
  show (((((cache.offEnds a).setNextOf (cache.prevOf a) (cache.nextOf a)).setPrevOf
    (((cache.offEnds a).setNextOf (cache.prevOf a) (cache.nextOf a)).nextOf a)
    (((cache.offEnds a).setNextOf (cache.prevOf a) (cache.nextOf a)).prevOf a)).setPrev a
    none).setNext a none) = _
  rw [hnext, hprev]

theorem sameData_removeFromLru (cache : LruCache Key Value) (a : Nat) :
    SameData cache (cache.removeFromLru a) := by
  unfold removeFromLru
  exact (SameData.withPointers cache cache.freeList _ _).trans
    ((sameData_setNextOf _ _ _).trans ((sameData_setPrevOf _ _ _).trans
      ((sameData_setPrev _ _ _).trans (sameData_setNext _ _ _))))

theorem nextOf_removeFromLru (hp : cache.prevOf a ≠ some a) :
    (cache.removeFromLru a).nextOf b =
      if b = a then none else if cache.prevOf a = some b then cache.nextOf a
        else cache.nextOf b := by
  rw [removeFromLru_eq cache a hp, nextOf_setNext, nextOf_setPrev, nextOf_setPrevOf,
    nextOf_setNextOf, nextOf_congr (show (cache.offEnds a).elements = cache.elements from rfl)]

theorem prevOf_removeFromLru (hp : cache.prevOf a ≠ some a) :
    (cache.removeFromLru a).prevOf b =
      if b = a then none else if cache.nextOf a = some b then cache.prevOf a
        else cache.prevOf b := by
  rw [removeFromLru_eq cache a hp, prevOf_setNext, prevOf_setPrev, prevOf_setPrevOf,
    prevOf_setNextOf, prevOf_congr (show (cache.offEnds a).elements = cache.elements from rfl)]

theorem lruHead_removeFromLru (hp : cache.prevOf a ≠ some a) :
    (cache.removeFromLru a).lruHead =
      if cache.lruHead = some a then cache.nextOf a else cache.lruHead := by
  rw [removeFromLru_eq cache a hp]
  exact ends_setPrevOf _ |>.1.trans (ends_setNextOf _).1

theorem lruTail_removeFromLru (hp : cache.prevOf a ≠ some a) :
    (cache.removeFromLru a).lruTail =
      if cache.lruTail = some a then cache.prevOf a else cache.lruTail := by
  rw [removeFromLru_eq cache a hp]
  exact ends_setPrevOf _ |>.2.1.trans (ends_setNextOf _).2.1

theorem freeList_removeFromLru (hp : cache.prevOf a ≠ some a) :
    (cache.removeFromLru a).freeList = cache.freeList := by
  rw [removeFromLru_eq cache a hp]
  exact ends_setPrevOf _ |>.2.2.trans (ends_setNextOf _).2.2

end Writing

/-! ## The lists -/

section Moving

omit [DecidableEq Key] [Inhabited Key] [Inhabited Value]

theorem Lists.nodup_lru (h : Lists cache lru free loose) : lru.Nodup :=
  (List.nodup_append.mp (List.nodup_append.mp h.nodup).1).1

theorem Lists.not_mem_free (h : Lists cache lru free loose) (ha : a ∈ lru) : a ∉ free :=
  fun hf => (List.nodup_append.mp (List.nodup_append.mp h.nodup).1).2.2 a ha a hf rfl

theorem Lists.not_mem_loose (h : Lists cache lru free loose) (ha : a ∈ lru ++ free) :
    a ∉ loose :=
  fun hl => (List.nodup_append.mp h.nodup).2.2 a ha a hl rfl

/-- The lists after their elements were moved between them. -/
theorem Lists.nodup_of_perm (h : Lists cache lru free loose) {l : List Nat}
    (hl : l.Perm (lru ++ free ++ loose)) : l.Nodup :=
  hl.nodup_iff.mpr h.nodup

theorem Lists.all_of_perm (h : Lists cache lru free loose) {l : List Nat}
    (hl : l.Perm (lru ++ free ++ loose)) (a : Nat) : a ∈ l ↔ a < cache.blockCapacity :=
  hl.mem_iff.trans (h.all a)

/-- **An element is taken off the list, and its neighbours are linked.** -/
theorem Lists.removeFromLru (h : Lists cache (lru₁ ++ a :: lru₂) free loose) :
    Lists (cache.removeFromLru a) (lru₁ ++ lru₂) free (a :: loose) := by
  have hprev : cache.prevOf a = lru₁.getLast? := h.linked.prev_eq
  have hnext : cache.nextOf a = lru₂.head? := h.linked.next_eq
  have hnd := h.nodup_lru
  have hself : cache.prevOf a ≠ some a := by
    intro hp
    rw [hprev] at hp
    exact (List.nodup_append.mp hnd).2.2 a (List.mem_of_getLast? hp) a (by simp) rfl
  have hperm : (lru₁ ++ lru₂ ++ free ++ a :: loose).Perm (lru₁ ++ a :: lru₂ ++ free ++ loose) := by
    simp only [List.append_assoc, List.cons_append]
    refine List.Perm.append_left lru₁ ?_
    simp [← List.append_assoc]
  have hpf : ∀ b ∈ free ++ loose, cache.prevOf a ≠ some b := by
    intro b hb hp
    rw [hprev] at hp
    have hb' : b ∈ lru₁ ++ a :: lru₂ := by simp [List.mem_of_getLast? hp]
    rcases List.mem_append.mp hb with hb | hb
    · exact h.not_mem_free hb' hb
    · exact h.not_mem_loose (List.mem_append_left _ hb') hb
  have hnf : ∀ b ∈ free ++ loose, cache.nextOf a ≠ some b := by
    intro b hb hp
    rw [hnext] at hp
    have hb' : b ∈ lru₁ ++ a :: lru₂ := by simp [List.mem_of_head? hp]
    rcases List.mem_append.mp hb with hb | hb
    · exact h.not_mem_free hb' hb
    · exact h.not_mem_loose (List.mem_append_left _ hb') hb
  have hne : ∀ b ∈ free ++ loose, b ≠ a := by
    rintro b hb rfl
    rcases List.mem_append.mp hb with hb | hb
    · exact h.not_mem_free (by simp) hb
    · exact h.not_mem_loose (by simp) hb
  refine ⟨h.nodup_of_perm hperm, ?_, ?_, ?_, ?_, ?_, ?_, ?_, ?_⟩
  · rw [(sameData_removeFromLru cache a).blockCapacity]
    exact h.all_of_perm hperm
  · refine h.linked.unlink hnd (fun b hb => ?_) (fun b hb => ?_)
    · rw [nextOf_removeFromLru hself, if_neg hb]
    · rw [prevOf_removeFromLru hself, if_neg hb]
  · rw [lruHead_removeFromLru hself, h.head, hnext]
    cases lru₁ with
    | nil => simp
    | cons c l =>
      have hc : c ≠ a := by
        rintro rfl
        simp at hnd
      simp [hc]
  · rw [lruTail_removeFromLru hself, h.tail, hprev]
    rcases List.eq_nil_or_concat lru₂ with rfl | ⟨l, c, rfl⟩
    · simp
    · have hc : c ≠ a := by
        rintro rfl
        simp [List.nodup_append] at hnd
      have hlast : (lru₁ ++ a :: l.concat c).getLast? = some c := by
        simp [List.getLast?_append, List.getLast?_cons]
      rw [hlast, if_neg (by simpa using hc)]
      simp
  · refine h.chained.congr fun b hb => ?_
    rw [nextOf_removeFromLru hself, if_neg (hne b (by simp [hb])), if_neg (hpf b (by simp [hb]))]
  · rw [freeList_removeFromLru hself, h.freeList]
  · intro b hb
    rw [prevOf_removeFromLru hself, if_neg (hne b (by simp [hb])), if_neg (hnf b (by simp [hb]))]
    exact h.freed b hb
  · intro b hb
    rw [nextOf_removeFromLru hself, prevOf_removeFromLru hself]
    rcases List.mem_cons.mp hb with rfl | hb
    · simp
    · simpa [if_neg (hne b (by simp [hb])), if_neg (hpf b (by simp [hb])), if_neg (hnf b (by simp
        [hb]))] using h.loosened b hb

/-- An element that is on no list has no neighbours. -/
theorem Lists.removeFromLru_loose (h : Lists cache lru free [a]) :
    Lists (cache.removeFromLru a) lru free [a] := by
  obtain ⟨hnext, hprev⟩ := h.loosened a (by simp)
  have hself : cache.prevOf a ≠ some a := by simp [hprev]
  have hlru : a ∉ lru := fun ha => h.not_mem_loose (List.mem_append_left _ ha) (by simp)
  have hn : ∀ b, (cache.removeFromLru a).nextOf b = cache.nextOf b := by
    intro b
    rw [nextOf_removeFromLru hself, hprev]
    by_cases hb : b = a <;> simp [hb, hnext]
  have hp : ∀ b, (cache.removeFromLru a).prevOf b = cache.prevOf b := by
    intro b
    rw [prevOf_removeFromLru hself, hnext]
    by_cases hb : b = a <;> simp [hb, hprev]
  refine ⟨h.nodup, ?_, h.linked.congr (fun b _ => hn b) (fun b _ => hp b), ?_, ?_,
    h.chained.congr (fun b _ => hn b), ?_, ?_, ?_⟩
  · rw [(sameData_removeFromLru cache a).blockCapacity]
    exact h.all
  · have hhead : cache.lruHead ≠ some a := by
      rw [h.head]
      exact fun hl => hlru (List.mem_of_head? hl)
    rw [lruHead_removeFromLru hself, if_neg hhead, h.head]
  · have htail : cache.lruTail ≠ some a := by
      rw [h.tail]
      exact fun hl => hlru (List.mem_of_getLast? hl)
    rw [lruTail_removeFromLru hself, if_neg htail, h.tail]
  · rw [freeList_removeFromLru hself, h.freeList]
  · exact fun b hb => (hp b).trans (h.freed b hb)
  · intro b hb
    rw [hn, hp]
    exact h.loosened b hb

/-- What `PushLRUHead` does after it took the element off the list. -/
def linkHead (cache : LruCache Key Value) (a : Nat) : LruCache Key Value :=
  let cache := cache.setNext a cache.lruHead
  let cache := { cache with lruHead := some a }
  let cache := cache.setPrevOf (cache.elements a).next (some a)
  { cache with lruTail := if cache.lruTail = none then some a else cache.lruTail }

theorem pushLruHead_eq (cache : LruCache Key Value) (a : Nat) (h : cache.lruHead ≠ some a) :
    cache.pushLruHead a = (cache.removeFromLru a).linkHead a := by
  rw [pushLruHead, if_neg h]
  rfl

theorem sameData_linkHead (cache : LruCache Key Value) (a : Nat) :
    SameData cache (cache.linkHead a) := by
  unfold linkHead
  exact (sameData_setNext cache a _).trans ((SameData.withPointers _ _ _ _).trans
    ((sameData_setPrevOf _ _ _).trans (SameData.withPointers _ _ _ _)))

theorem nextOf_linkHead (cache : LruCache Key Value) :
    (cache.linkHead a).nextOf b = if b = a then cache.lruHead else cache.nextOf b := by
  unfold linkHead
  exact (nextOf_setPrevOf _).trans (nextOf_setNext _)

theorem prevOf_linkHead (cache : LruCache Key Value) :
    (cache.linkHead a).prevOf b = if cache.lruHead = some b then some a else cache.prevOf b := by
  have hnext : (cache.setNext a cache.lruHead).nextOf a = cache.lruHead := by
    simp [nextOf_setNext]
  have h : (cache.linkHead a).prevOf b =
      if (cache.setNext a cache.lruHead).nextOf a = some b then some a
      else (cache.setNext a cache.lruHead).prevOf b := prevOf_setPrevOf _
  rw [h, hnext, prevOf_setNext]

theorem ends_linkHead (cache : LruCache Key Value) :
    (cache.linkHead a).lruHead = some a ∧
      (cache.linkHead a).lruTail = (if cache.lruTail = none then some a else cache.lruTail) ∧
      (cache.linkHead a).freeList = cache.freeList := by
  have h : ∀ cache' : LruCache Key Value, cache'.lruTail = cache.lruTail →
      (if cache'.lruTail = none then some a else cache'.lruTail) =
        (if cache.lruTail = none then some a else cache.lruTail) := fun _ h => by rw [h]
  exact ⟨(ends_setPrevOf _).1, h _ (ends_setPrevOf _).2.1, (ends_setPrevOf _).2.2⟩

/-- **An element that is on no list is put in front.** -/
theorem Lists.linkHead (h : Lists cache lru free [a]) :
    Lists (cache.linkHead a) (a :: lru) free [] := by
  have hlru : a ∉ lru := fun ha => h.not_mem_loose (List.mem_append_left _ ha) (by simp)
  have hfree : a ∉ free := fun ha => h.not_mem_loose (List.mem_append_right _ ha) (by simp)
  have hn : ∀ b, (cache.linkHead a).nextOf b = if b = a then lru.head? else cache.nextOf b := by
    intro b
    rw [nextOf_linkHead, h.head]
  have hp : ∀ b, (cache.linkHead a).prevOf b =
      if lru.head? = some b then some a else cache.prevOf b := by
    intro b
    rw [prevOf_linkHead, h.head]
  have hperm : (a :: lru ++ free ++ []).Perm (lru ++ free ++ [a]) := by
    simpa using (List.perm_append_singleton a (lru ++ free)).symm
  have hhead : ∀ b ∈ a :: free, lru.head? ≠ some b := by
    rintro b hb hl
    have hb' := List.mem_of_head? hl
    rcases List.mem_cons.mp hb with rfl | hb
    · exact hlru hb'
    · exact h.not_mem_free hb' hb
  refine ⟨h.nodup_of_perm hperm, ?_, ?_, (ends_linkHead cache).1, ?_, ?_, ?_, ?_, by simp⟩
  · rw [(sameData_linkHead cache a).blockCapacity]
    exact h.all_of_perm hperm
  · refine h.linked.push hlru h.nodup_lru ?_ ?_ (fun b hb => ?_) (fun b _ => hp b)
    · simp [hn]
    · rw [hp, if_neg (hhead a (by simp))]
      exact (h.loosened a (by simp)).2
    · rw [hn, if_neg (by rintro rfl; exact hlru hb)]
  · rw [(ends_linkHead cache).2.1, h.tail]
    cases lru with
    | nil => rfl
    | cons b l => simp [List.getLast?_cons_cons]
  · refine h.chained.congr fun b hb => ?_
    rw [hn, if_neg (by rintro rfl; exact hfree hb)]
  · rw [(ends_linkHead cache).2.2, h.freeList]
  · intro b hb
    rw [hp, if_neg (hhead b (by simp [hb]))]
    exact h.freed b hb

theorem sameData_pushLruHead (cache : LruCache Key Value) (a : Nat) :
    SameData cache (cache.pushLruHead a) := by
  by_cases hh : cache.lruHead = some a
  · simpa [pushLruHead, hh] using .refl cache
  · rw [pushLruHead_eq cache a hh]
    exact (sameData_removeFromLru cache a).trans (sameData_linkHead _ a)

theorem Lists.pushLruHead (h : Lists cache lru free [a]) :
    Lists (cache.pushLruHead a) (a :: lru) free [] := by
  have hh : cache.lruHead ≠ some a := by
    rw [h.head]
    intro hl
    exact h.not_mem_loose (List.mem_append_left _ (List.mem_of_head? hl)) (by simp)
  rw [pushLruHead_eq cache a hh]
  exact h.removeFromLru_loose.linkHead

/-- **An element of the list is moved to its front.** -/
theorem Lists.moveToHead (h : Lists cache (lru₁ ++ a :: lru₂) free []) :
    Lists (cache.pushLruHead a) (a :: (lru₁ ++ lru₂)) free [] := by
  by_cases hh : cache.lruHead = some a
  · -- it is already there
    have hnil : lru₁ = [] := by
      cases lru₁ with
      | nil => rfl
      | cons b l =>
        have hb : b = a := by simpa [h.head] using hh
        have hnd := h.nodup_lru
        simp [hb] at hnd
    subst hnil
    simpa [LruCache.pushLruHead, hh] using h
  · rw [pushLruHead_eq cache a hh]
    exact h.removeFromLru.linkHead

/-! ## The free list -/

theorem sameData_pushFreeList (cache : LruCache Key Value) (a : Nat) :
    SameData cache (cache.pushFreeList a) :=
  (sameData_setPrev cache a none).trans ((sameData_setNext _ a _).trans
    (SameData.withPointers _ _ _ _))

theorem nextOf_pushFreeList (cache : LruCache Key Value) :
    (cache.pushFreeList a).nextOf b = if b = a then cache.freeList else cache.nextOf b :=
  (nextOf_setNext _).trans (by rw [nextOf_setPrev]; rfl)

theorem prevOf_pushFreeList (cache : LruCache Key Value) :
    (cache.pushFreeList a).prevOf b = if b = a then none else cache.prevOf b :=
  (prevOf_setNext _).trans (prevOf_setPrev _)

/-- **An element that is on no list becomes free.** -/
theorem Lists.pushFreeList (h : Lists cache lru free (a :: loose)) :
    Lists (cache.pushFreeList a) lru (a :: free) loose := by
  have hlru : a ∉ lru := fun ha => h.not_mem_loose (List.mem_append_left _ ha) (by simp)
  have hfree : a ∉ free := fun ha => h.not_mem_loose (List.mem_append_right _ ha) (by simp)
  have hloose : a ∉ loose := (List.nodup_cons.mp (List.nodup_append.mp h.nodup).2.1).1
  have hperm : (lru ++ a :: free ++ loose).Perm (lru ++ free ++ a :: loose) := by
    simp only [List.append_assoc, List.cons_append]
    refine List.Perm.append_left lru ?_
    exact List.perm_middle.symm
  have hn : ∀ b ≠ a, (cache.pushFreeList a).nextOf b = cache.nextOf b := fun b hb => by
    rw [nextOf_pushFreeList, if_neg hb]
  have hp : ∀ b ≠ a, (cache.pushFreeList a).prevOf b = cache.prevOf b := fun b hb => by
    rw [prevOf_pushFreeList, if_neg hb]
  refine ⟨h.nodup_of_perm hperm, ?_, ?_, h.head, h.tail, ?_, rfl, ?_, ?_⟩
  · rw [(sameData_pushFreeList cache a).blockCapacity]
    exact h.all_of_perm hperm
  · exact h.linked.congr (fun b hb => hn b (by rintro rfl; exact hlru hb))
      (fun b hb => hp b (by rintro rfl; exact hlru hb))
  · rw [chained_cons]
    refine ⟨?_, h.chained.congr fun b hb => hn b (by rintro rfl; exact hfree hb)⟩
    simp [nextOf_pushFreeList, h.freeList]
  · intro b hb
    rcases List.mem_cons.mp hb with rfl | hb
    · simp [prevOf_pushFreeList]
    · rw [hp b (fun e => hfree (e ▸ hb))]
      exact h.freed b hb
  · intro b hb
    have hba : b ≠ a := by
      rintro rfl
      exact hloose hb
    rw [hn b hba, hp b hba]
    exact h.loosened b (List.mem_cons_of_mem _ hb)

theorem popFreeList_of_nil (h : Lists cache lru [] loose) :
    cache.popFreeList = some (none, cache) := by
  have hfree : cache.freeList = none := h.freeList
  rw [popFreeList, hfree]

/-- **The first free element is taken, and the `CHECK` on its `prev` holds.** -/
theorem Lists.popFreeList (h : Lists cache lru (a :: free) []) :
    ∃ cache', cache.popFreeList = some (some a, cache') ∧ Lists cache' lru free [a] ∧
      SameData cache cache' := by
  have hfree : cache.freeList = some a := h.freeList
  have hprev : (cache.elements a).prev = none := h.freed a (by simp)
  obtain ⟨hnext, hchained⟩ := chained_cons.mp h.chained
  refine ⟨(({ cache with freeList := (cache.elements a).next } : LruCache Key Value).setPrevOf
    (cache.elements a).next none).setNext a none, ?_, ?_, ?_⟩
  · simp only [LruCache.popFreeList, hfree, hprev, if_true]
  · have hnd := h.nodup
    have hmem : a ∉ lru ∧ a ∉ free := by
      rw [List.append_nil, List.nodup_append] at hnd
      exact ⟨fun ha => hnd.2.2 a ha a (by simp) rfl, (List.nodup_cons.mp hnd.2.1).1⟩
    have hperm : (lru ++ free ++ [a]).Perm (lru ++ a :: free ++ []) := by
      simpa using List.Perm.append_left lru (List.perm_append_singleton a free)
    have hhead : ∀ b ∈ lru, (cache.elements a).next ≠ some b := by
      intro b hb hl
      have hl' : free.head? = some b := hnext.symm.trans hl
      exact h.not_mem_free hb (List.mem_cons_of_mem _ (List.mem_of_head? hl'))
    refine ⟨h.nodup_of_perm hperm, ?_, ?_, ?_, ?_, ?_, ?_, ?_, ?_⟩
    · rw [(sameData_setNext _ a none).blockCapacity, (sameData_setPrevOf _ _ none).blockCapacity]
      exact h.all_of_perm hperm
    · refine h.linked.congr (fun b hb => ?_) (fun b hb => ?_)
      · rw [nextOf_setNext, if_neg (by rintro rfl; exact hmem.1 hb), nextOf_setPrevOf]
        rfl
      · rw [prevOf_setNext, prevOf_setPrevOf, if_neg (hhead b hb)]
        rfl
    · exact (ends_setPrevOf _).1.trans h.head
    · exact (ends_setPrevOf _).2.1.trans h.tail
    · refine hchained.congr fun b hb => ?_
      rw [nextOf_setNext, if_neg (by rintro rfl; exact hmem.2 hb), nextOf_setPrevOf]
      rfl
    · exact (ends_setPrevOf _).2.2.trans hnext
    · intro b hb
      rw [prevOf_setNext, prevOf_setPrevOf]
      split
      · rfl
      · exact h.freed b (List.mem_cons_of_mem _ hb)
    · intro b hb
      obtain rfl : b = a := by simpa using hb
      rw [nextOf_setNext, if_pos rfl, prevOf_setNext, prevOf_setPrevOf]
      refine ⟨rfl, ?_⟩
      split
      · rfl
      · exact hprev
  · exact (SameData.withPointers cache _ _ _).trans
      ((sameData_setPrevOf _ _ _).trans (sameData_setNext _ _ _))

theorem pushAll : ∀ {loose : List Nat} {cache : LruCache Key Value} {free : List Nat},
    Lists cache lru free loose →
    Lists (loose.foldl LruCache.pushFreeList cache) lru (loose.reverse ++ free) [] ∧
      SameData cache (loose.foldl LruCache.pushFreeList cache)
  | [], cache, free, h => ⟨h, .refl cache⟩
  | a :: loose, cache, free, h => by
    obtain ⟨hl, hd⟩ := pushAll h.pushFreeList
    refine ⟨?_, (sameData_pushFreeList cache a).trans hd⟩
    simpa using hl

end Moving

/-! ## A new block -/

theorem Lists.allocateBlock (h : Lists cache lru free [])
    (hsize : cache.blockCapacity + cache.nextBlockSize < 2 ^ 64) :
    Lists cache.allocateBlock lru free (List.range' cache.blockCapacity cache.nextBlockSize) := by
  have hold : ∀ a ∈ lru ++ free, a < cache.blockCapacity := fun a ha =>
    (h.all a).mp (by simpa using ha)
  have hsame : ∀ a ∈ lru ++ free, cache.allocateBlock.elements a = cache.elements a := by
    intro a ha
    have := hold a ha
    exact if_neg (by omega)
  have hnew : ∀ a ∈ List.range' cache.blockCapacity cache.nextBlockSize,
      cache.allocateBlock.elements a = ⟨none, none, default, default⟩ := by
    intro a ha
    exact if_pos (by simpa using ha)
  have hcap : cache.allocateBlock.blockCapacity = cache.blockCapacity + cache.nextBlockSize :=
    Nat.mod_eq_of_lt hsize
  refine ⟨?_, ?_, ?_, h.head, h.tail, ?_, h.freeList, ?_, ?_⟩
  · have hnd := h.nodup
    rw [List.append_nil] at hnd
    refine List.nodup_append.mpr ⟨hnd, List.nodup_range', fun a ha b hb hab => ?_⟩
    have hlt := hold a ha
    have hge : cache.blockCapacity ≤ b := (List.mem_range'_1.mp hb).1
    omega
  · intro a
    have hall := h.all a
    rw [List.append_nil] at hall
    rw [hcap, List.mem_append, hall, List.mem_range'_1]
    omega
  · refine h.linked.congr (fun b hb => ?_) (fun b hb => ?_)
    · rw [nextOf, nextOf, hsame b (List.mem_append_left _ hb)]
    · rw [prevOf, prevOf, hsame b (List.mem_append_left _ hb)]
  · refine h.chained.congr fun b hb => ?_
    rw [nextOf, nextOf, hsame b (List.mem_append_right _ hb)]
  · intro b hb
    rw [prevOf, hsame b (List.mem_append_right _ hb)]
    exact h.freed b hb
  · intro b hb
    rw [nextOf, prevOf, hnew b hb]
    exact ⟨rfl, rfl⟩

end Mozkey.Storage.LruCache
