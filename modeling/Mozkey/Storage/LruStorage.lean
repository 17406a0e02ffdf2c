import Mozkey.Infra.Bytes
import Mozkey.Infra.RecencyMap

/-!
# `storage::LruStorage`

The items of an open storage as a recency list of fingerprints and values. Where an item lies in
the mapped file and when it was used last are left out: the list has the order of use.
-/

/-!
## Fingerprints

`base/hash.cc`, the fingerprints that stored data is keyed by. All arithmetic is of `uint32_t`,
and a `char` is unsigned.
-/

namespace Mozkey.Base

open Infra

def kFingerPrintSeed0 : UInt32 := 0x6d6f
def kFingerPrintSeed1 : UInt32 := 0x7a63

def toUint32 (a b c d : UInt8) : UInt32 :=
  a.toUInt32 + (b.toUInt32 <<< 8) + (c.toUInt32 <<< 16) + (d.toUInt32 <<< 24)

/-- The three registers of the hash. -/
structure MixState where
  a : UInt32
  b : UInt32
  c : UInt32

/-- One of the three rounds of `Mix`. -/
def mixRound (s : MixState) (x y z : UInt32) : MixState :=
  let a := (s.a - s.b - s.c) ^^^ (s.c >>> x)
  let b := (s.b - s.c - a) ^^^ (a <<< y)
  let c := (s.c - a - b) ^^^ (b >>> z)
  ⟨a, b, c⟩

def mix (s : MixState) : MixState :=
  mixRound (mixRound (mixRound s 13 8 13) 12 16 5) 3 10 15

/-- The blocks of twelve bytes, and what is left of the string. -/
def mixBlocks : MixState → Bytes → MixState × Bytes
  | s, b0 :: b1 :: b2 :: b3 :: b4 :: b5 :: b6 :: b7 :: b8 :: b9 :: b10 :: b11 :: rest =>
    mixBlocks (mix ⟨s.a + toUint32 b0 b1 b2 b3, s.b + toUint32 b4 b5 b6 b7,
      s.c + toUint32 b8 b9 b10 b11⟩) rest
  | s, rest => (s, rest)

/-- The last bytes. The lowest byte of `c` is taken by the length. -/
def mixTail (s : MixState) (length : UInt32) (tail : Bytes) : MixState :=
  let byteAt := fun i => tail.getD i 0
  mix ⟨s.a + toUint32 (byteAt 0) (byteAt 1) (byteAt 2) (byteAt 3),
    s.b + toUint32 (byteAt 4) (byteAt 5) (byteAt 6) (byteAt 7),
    s.c + length + toUint32 0 (byteAt 8) (byteAt 9) (byteAt 10)⟩

def legacyFingerprint32WithSeed (str : Bytes) (seed : UInt32) : UInt32 :=
  let (s, tail) := mixBlocks ⟨0x9e3779b9, 0x9e3779b9, seed⟩ str
  (mixTail s (UInt32.ofNat str.length) tail).c

def legacyFingerprintWithSeed (str : Bytes) (seed : UInt32) : UInt64 :=
  let hi := legacyFingerprint32WithSeed str seed
  let lo := legacyFingerprint32WithSeed str kFingerPrintSeed1
  let result := (hi.toUInt64 <<< 32) ||| lo.toUInt64
  if hi = 0 ∧ lo < 2 then result ^^^ 0x130f9bef94a0a928 else result

def legacyFingerprint (str : Bytes) : UInt64 := legacyFingerprintWithSeed str kFingerPrintSeed0

end Mozkey.Base

namespace Mozkey.Storage

open Infra Base

structure LruStorage (Value : Type) where
  seed : UInt32
  items : RecencyMap UInt64 Value

namespace LruStorage

variable {Value : Type} {storage : LruStorage Value} {key key' : Bytes} {value : Value}

def fingerprint (storage : LruStorage Value) (key : Bytes) : UInt64 :=
  legacyFingerprintWithSeed key storage.seed

def lookup (storage : LruStorage Value) (key : Bytes) : Option Value :=
  storage.items.get? (storage.fingerprint key)

def usedSize (storage : LruStorage Value) : Nat := storage.items.entries.length

def size (storage : LruStorage Value) : Nat := storage.items.capacity

def insert (storage : LruStorage Value) (key : Bytes) (value : Value) : LruStorage Value :=
  { storage with items := storage.items.insert (storage.fingerprint key) value }

def delete (storage : LruStorage Value) (key : Bytes) : LruStorage Value :=
  { storage with items := storage.items.erase (storage.fingerprint key) }

/-! ## What a lookup finds -/

/-- `key` can be inserted without an eviction. -/
def RoomFor (storage : LruStorage Value) (key : Bytes) : Prop :=
  storage.lookup key ≠ none ∨ storage.usedSize < storage.size

theorem lookup_insert_self : (storage.insert key value).lookup key = some value :=
  RecencyMap.get?_insert_self

theorem lookup_insert (h : storage.RoomFor key) : (storage.insert key value).lookup key' =
    if storage.fingerprint key' = storage.fingerprint key then some value
    else storage.lookup key' :=
  RecencyMap.get?_insert h

theorem usedSize_insert_le : (storage.insert key value).usedSize ≤ storage.usedSize + 1 :=
  RecencyMap.length_insert_le

theorem usedSize_insert_of_found (h : storage.lookup key ≠ none) :
    (storage.insert key value).usedSize = storage.usedSize :=
  RecencyMap.length_insert_of_mem h

theorem usedSize_insert_of_new (h : storage.lookup key = none)
    (hroom : storage.usedSize < storage.size) :
    (storage.insert key value).usedSize = storage.usedSize + 1 :=
  RecencyMap.length_insert_of_new h hroom

@[simp] theorem size_insert : (storage.insert key value).size = storage.size := rfl

end LruStorage

end Mozkey.Storage
