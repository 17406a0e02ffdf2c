import Mathlib.Algebra.GroupWithZero.Nat
import Mozkey.Infra.Loop

/-!
# `storage::LruCache`

The elements of all blocks are numbered in the order they are allocated, and a pointer is the
number of an element or null. A `CHECK` that fails gives `none`, and so does the constructor
when it is still looking for the size of the first block after `fuel` rounds.
-/

namespace Mozkey.Storage

/-- Arithmetic of `size_t`. -/
def wrap (n : Nat) : Nat := n % 2 ^ 64

def maxBlocks : Nat := 10

structure Element (Key Value : Type) where
  next : Option Nat
  prev : Option Nat
  key : Key
  value : Value

structure LruCache (Key Value : Type) where
  table : Key → Option Nat
  elements : Nat → Element Key Value
  freeList : Option Nat
  lruHead : Option Nat
  lruTail : Option Nat
  blockCount : Nat
  blockCapacity : Nat
  nextBlockSize : Nat
  maxElements : Nat

namespace LruCache

variable {Key Value : Type} [DecidableEq Key] [Inhabited Key] [Inhabited Value]

/-! ## Writing through pointers -/

def setNext (cache : LruCache Key Value) (a : Nat) (p : Option Nat) : LruCache Key Value :=
  { cache with
    elements := fun b => if b = a then { cache.elements b with next := p } else cache.elements b }

def setPrev (cache : LruCache Key Value) (a : Nat) (p : Option Nat) : LruCache Key Value :=
  { cache with
    elements := fun b => if b = a then { cache.elements b with prev := p } else cache.elements b }

def setKey (cache : LruCache Key Value) (a : Nat) (k : Key) : LruCache Key Value :=
  { cache with
    elements := fun b => if b = a then { cache.elements b with key := k } else cache.elements b }

def setValue (cache : LruCache Key Value) (a : Nat) (v : Value) : LruCache Key Value :=
  { cache with
    elements := fun b => if b = a then { cache.elements b with value := v } else cache.elements b }

def setTable (cache : LruCache Key Value) (k : Key) (p : Option Nat) : LruCache Key Value :=
  { cache with table := fun k' => if k' = k then p else cache.table k' }

/-- `if (p != nullptr) p->next = q;` -/
def setNextOf (cache : LruCache Key Value) (p q : Option Nat) : LruCache Key Value :=
  match p with
  | some a => cache.setNext a q
  | none => cache

/-- `if (p != nullptr) p->prev = q;` -/
def setPrevOf (cache : LruCache Key Value) (p q : Option Nat) : LruCache Key Value :=
  match p with
  | some a => cache.setPrev a q
  | none => cache

/-! ## Construction -/

/-- A round of the loop that looks for the size of the first block. -/
def doubleBlock (maxElements size : Nat) : Nat ⊕ Nat :=
  if wrap (size <<< maxBlocks) < maxElements then .inl (wrap (size <<< 1)) else .inr size

/-- The size of the first block, the loop taking at most `fuel` rounds. -/
def firstBlockSize (fuel maxElements : Nat) : Option Nat :=
  if maxElements ≤ 128 then some maxElements
  else Infra.run (doubleBlock maxElements) fuel 64

/-- `LruCache(max_elements)`. -/
def construct (fuel maxElements : Nat) : Option (LruCache Key Value) := do
  let size ← firstBlockSize fuel maxElements
  return {
    table := fun _ => none
    elements := fun _ => ⟨none, none, default, default⟩
    freeList := none
    lruHead := none
    lruTail := none
    blockCount := 0
    blockCapacity := 0
    nextBlockSize := size
    maxElements := maxElements }

/-! ## The free list -/

def pushFreeList (cache : LruCache Key Value) (element : Nat) : LruCache Key Value :=
  let cache := cache.setPrev element none
  let cache := cache.setNext element cache.freeList
  { cache with freeList := some element }

def popFreeList (cache : LruCache Key Value) :
    Option (Option Nat × LruCache Key Value) :=
  match cache.freeList with
  | none => some (none, cache)
  | some r =>
    if (cache.elements r).prev = none then
      let cache := { cache with freeList := (cache.elements r).next }
      let cache := cache.setPrevOf cache.freeList none
      some (some r, cache.setNext r none)
    else none

/-- The size of the block after one that has just been allocated. -/
def shrinkBlock (cache : LruCache Key Value) : Nat :=
  let blocksRemaining := maxBlocks - cache.blockCount
  let size := wrap (cache.nextBlockSize <<< 1)
  let elementsRemaining := wrap (2 ^ 64 + cache.maxElements - cache.blockCapacity)
  let size := if size > elementsRemaining / blocksRemaining then
    elementsRemaining / blocksRemaining else size
  if wrap (cache.blockCapacity + size) > cache.maxElements then
    wrap (2 ^ 64 + cache.maxElements - cache.blockCapacity) else size

/-- A new block, every element of which is value-initialised. -/
def allocateBlock (cache : LruCache Key Value) : LruCache Key Value :=
  { cache with
    elements := fun a =>
      if cache.blockCapacity ≤ a ∧ a < cache.blockCapacity + cache.nextBlockSize then
        ⟨none, none, default, default⟩
      else cache.elements a
    blockCapacity := wrap (cache.blockCapacity + cache.nextBlockSize) }

def addBlock (cache : LruCache Key Value) : LruCache Key Value :=
  if cache.blockCount < maxBlocks ∧ cache.blockCapacity < cache.maxElements then
    -- the body of the loop over the new elements is that of `pushFreeList`
    let added := (List.range' cache.blockCapacity cache.nextBlockSize).foldl pushFreeList
      cache.allocateBlock
    let added := { added with blockCount := added.blockCount + 1 }
    if 0 < maxBlocks - added.blockCount then
      { added with nextBlockSize := added.shrinkBlock }
    else added
  else cache

def nextFreeElement (cache : LruCache Key Value) :
    Option (Option Nat × LruCache Key Value) := do
  let (r, cache) ← cache.popFreeList
  if r = none then cache.addBlock.popFreeList else some (r, cache)

/-! ## The list of the elements in use -/

def removeFromLru (cache : LruCache Key Value) (element : Nat) : LruCache Key Value :=
  let cache := { cache with
    lruHead := if cache.lruHead = some element then (cache.elements element).next
      else cache.lruHead }
  let cache := { cache with
    lruTail := if cache.lruTail = some element then (cache.elements element).prev
      else cache.lruTail }
  let cache := cache.setNextOf (cache.elements element).prev (cache.elements element).next
  let cache := cache.setPrevOf (cache.elements element).next (cache.elements element).prev
  (cache.setPrev element none).setNext element none

def pushLruHead (cache : LruCache Key Value) (element : Nat) : LruCache Key Value :=
  if cache.lruHead = some element then cache
  else
    let cache := cache.removeFromLru element
    let cache := cache.setNext element cache.lruHead
    let cache := { cache with lruHead := some element }
    let cache := cache.setPrevOf (cache.elements element).next (some element)
    { cache with lruTail := if cache.lruTail = none then some element else cache.lruTail }

/-- Whether an element was evicted, or `none` if the table does not have its key. -/
def evict (cache : LruCache Key Value) (e : Option Nat) :
    Option (Bool × LruCache Key Value) :=
  match e with
  | none => some (false, cache)
  | some e =>
    if cache.table (cache.elements e).key = none then none
    else
      let cache := cache.setTable (cache.elements e).key none
      some (true, (cache.removeFromLru e).pushFreeList e)

/-! ## The public operations -/

/-- `Element* Insert(const Key& key)`: the value is left as it is in the element. -/
def insertKey (cache : LruCache Key Value) (key : Key) :
    Option (Nat × LruCache Key Value) := do
  let e := cache.table key
  let (erased, cache) ← if e ≠ none then cache.evict e else some (true, cache)
  guard erased
  let (e, cache) ← cache.nextFreeElement
  let (e, cache) ← if e = none then do
      let (erased, cache) ← cache.evict cache.lruTail
      guard erased
      cache.nextFreeElement
    else some (e, cache)
  let e ← e
  let cache := cache.setKey e key
  let cache := cache.setTable key (some e)
  return (e, cache.pushLruHead e)

def insert (cache : LruCache Key Value) (key : Key) (value : Value) :
    Option (LruCache Key Value) := do
  let (e, cache) ← cache.insertKey key
  return cache.setValue e value

/-- `MutableLookup`: the pointer to the value is that of the element. -/
def mutableLookup (cache : LruCache Key Value) (key : Key) :
    Option Nat × LruCache Key Value :=
  match cache.table key with
  | some e => (some e, cache.pushLruHead e)
  | none => (none, cache)

def lookup (cache : LruCache Key Value) (key : Key) : Option Value × LruCache Key Value :=
  let (e, cache) := cache.mutableLookup key
  (e.map fun e => (cache.elements e).value, cache)

def lookupWithoutInsert (cache : LruCache Key Value) (key : Key) : Option Value :=
  (cache.table key).map fun e => (cache.elements e).value

def erase (cache : LruCache Key Value) (key : Key) : Option (Bool × LruCache Key Value) :=
  cache.evict (cache.table key)

/-- A round of the loop of `Clear`, with the iterator `(current_, next_)`. -/
def clearStep : (Option Nat × Option Nat) × LruCache Key Value →
    ((Option Nat × Option Nat) × LruCache Key Value) ⊕ LruCache Key Value
  | ((none, _), cache) => .inr cache
  | ((some e, next), cache) =>
    let cache := cache.pushFreeList e
    .inl ((next, next.bind fun a => (cache.elements a).next), cache)

/-- `Clear`. A list that is longer than the number of elements has a cycle. -/
def clear (cache : LruCache Key Value) : Option (LruCache Key Value) := do
  let cache := { cache with table := fun _ => none }
  let head := cache.lruHead
  let cache ← Infra.run clearStep (cache.blockCapacity + 1)
    ((head, head.bind fun a => (cache.elements a).next), cache)
  return { cache with lruHead := none, lruTail := none }

/-- Whether an element is free or a block can be added. -/
def hasRoom (cache : LruCache Key Value) : Bool :=
  cache.freeList.isSome ||
    (cache.blockCount < maxBlocks && cache.blockCapacity < cache.maxElements)

end LruCache

end Mozkey.Storage
