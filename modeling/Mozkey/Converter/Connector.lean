import Mathlib.Logic.Function.Basic
import Mozkey.Infra.Bits

/-!
# The connector (`converter/connector.cc`)

The connection data is not unpacked. A row keeps the position of its three parts in the data,
and the number of 1-bits before each word of the two bit vectors. A read past the end of the
data is `none`. The answers go through a cache of packed words that starts filled with 0.
-/

namespace Mozkey.Converter

open Infra

namespace Connector

def kInvalidCost : Nat := 30000

def kConnectorMagicNumber : Nat := 0xCDAB

def kInvalid1ByteCostValue : Nat := 255

def kCacheHashMask : Nat := 1024 - 1

def kChunkWidth : Nat := 8

/-- `LoadUnaligned` of a number of `size` bytes. -/
def loadUnaligned (size : Nat) (data : Bytes) (position : Nat) : Option Nat :=
  if position + size ≤ data.length then some (leNat ((data.drop position).take size)) else none

theorem loadUnaligned_append {size position n : Nat} {data : Bytes}
    (h : loadUnaligned size data position = some n) (rest : Bytes) :
    loadUnaligned size (data ++ rest) position = some n := by
  unfold loadUnaligned at h ⊢
  split at h
  · next hle =>
    rw [if_pos (by rw [List.length_append]; omega), ← h, List.drop_append_of_le_length (by omega),
      List.take_append_of_le_length (by rw [List.length_drop]; omega)]
  · cases h

theorem loadUnaligned_lt {size position n : Nat} {data : Bytes}
    (h : loadUnaligned size data position = some n) : n < 256 ^ size := by
  unfold loadUnaligned at h
  split at h
  · have hlt := leNat_lt ((data.drop position).take size)
    rw [List.length_take, List.length_drop, Nat.min_eq_left (by omega), Option.some.inj h] at hlt
    exact hlt
  · cases h

theorem loadUnaligned_append_right (size position : Nat) (front data : Bytes) :
    loadUnaligned size (front ++ data) (front.length + position)
      = loadUnaligned size data position := by
  unfold loadUnaligned
  rw [List.drop_length_add_append, List.length_append]
  exact if_congr (by omega) rfl rfl

theorem loadUnaligned_zero {size : Nat} {front : Bytes} (h : front.length = size) (rest : Bytes) :
    loadUnaligned size (front ++ rest) 0 = some (leNat front) := by
  unfold loadUnaligned
  rw [if_pos (by rw [List.length_append]; omega), List.drop_zero, List.take_left' h]

/-! ## Rank -/

/-- The bits and, for each 32-bit word, the number of 1-bits before it. -/
structure RankBitVector where
  data : Bytes
  rankIndex : List Nat
deriving Repr, DecidableEq

namespace RankBitVector

def setData (data : Bytes) : RankBitVector := ⟨data, []⟩

def indexSize (v : RankBitVector) : Nat := v.data.length / 4

/-- The loop of `BuildIndex` from the word `i` on, for `k` words. -/
def buildIndexFrom (data : Bytes) : Nat → Nat → Nat → List Nat
  | _, 0, _ => []
  | i, k + 1, numBits =>
    numBits % 2 ^ 16 ::
      buildIndexFrom data (i + 1) k (numBits + popcount 32 (leNat ((data.drop (4 * i)).take 4)))

def buildIndex (v : RankBitVector) : RankBitVector :=
  { v with rankIndex := buildIndexFrom v.data 0 v.indexSize 0 }

/-- The number of 1-bits in [0, n) if bit n is set. -/
def rank1IfSet (v : RankBitVector) (n : Nat) : Option (Option Nat) := do
  let word ← loadUnaligned 4 v.data (4 * (n / 32))
  let bit := 1 <<< (n % 32)
  if word &&& bit = 0 then return none
  let rank ← v.rankIndex[n / 32]?
  return some (rank + popcount 32 (word &&& (bit - 1)))

end RankBitVector

/-! ## Rows -/

structure Row where
  chunkBitsIndex : RankBitVector
  compactBitsIndex : RankBitVector
  values : Bytes
deriving Repr, DecidableEq

namespace Row

def init (chunkBits compactBits values : Bytes) : Row :=
  ⟨.setData chunkBits, .setData compactBits, values⟩

def buildIndex (row : Row) : Row :=
  { row with
    chunkBitsIndex := row.chunkBitsIndex.buildIndex
    compactBitsIndex := row.compactBitsIndex.buildIndex }

/-- The value at a position of the values. -/
def loadValue (row : Row) (use1ByteValue : Bool) (valuePosition : Nat) : Option Nat :=
  if use1ByteValue then
    (loadUnaligned 1 row.values valuePosition).map fun value =>
      if value = kInvalid1ByteCostValue then kInvalidCost else value
  else loadUnaligned 2 row.values (2 * valuePosition)

def getValue (row : Row) (index : Nat) (use1ByteValue : Bool) : Option (Option Nat) := do
  let some chunkRank ← row.chunkBitsIndex.rank1IfSet (index / kChunkWidth) | return none
  let some compactRank ←
    row.compactBitsIndex.rank1IfSet (chunkRank * kChunkWidth + index % kChunkWidth) | return none
  return some (← row.loadValue use1ByteValue compactRank)

end Row

/-! ## Reading the connection data -/

structure Metadata where
  magic : Nat
  resolution : Nat
  rsize : Nat
  lsize : Nat
deriving Repr, DecidableEq

namespace Metadata

def kByteSize : Nat := 8

def numChunkBits (m : Metadata) : Nat := (m.lsize + kChunkWidth - 1) / kChunkWidth

def chunkBitsSize (m : Metadata) : Nat := (m.numChunkBits + 31) / 32 * 4

def use1ByteValue (m : Metadata) : Bool := m.resolution ≠ 1

def defaultCostArraySize (m : Metadata) : Nat := m.rsize + m.rsize % 2

end Metadata

/-- What the reader was looking at when it gave up, with the number of the row. -/
inductive Part
  | defaultCost
  | compactBitsSize (i : Nat)
  | valuesSize (i : Nat)
  | chunkBits (i : Nat)
  | compactBits (i : Nat)
  | values (i : Nat)
deriving Repr, DecidableEq

/-- `FailedPreconditionError`, but for `pastTheEnd`, which is `OutOfRangeError`. -/
inductive InitError
  /-- At least 8 bytes expected. -/
  | tooShort (bytes : Bytes)
  | unexpectedMagicNumber (m : Metadata)
  | notSquare (m : Metadata)
  | notAligned (part : Part) (location : Nat)
  /-- Tried to read past the end. -/
  | pastTheEnd (part : Part) (location required remaining : Nat)
deriving Repr, DecidableEq

def parseMetadata (data : Bytes) : Except InitError Metadata :=
  if data.length < Metadata.kByteSize then .error (.tooShort data)
  else
    let metadata : Metadata :=
      { magic := leNat (data.take 2)
        resolution := leNat ((data.drop 2).take 2)
        rsize := leNat ((data.drop 4).take 2)
        lsize := leNat ((data.drop 6).take 2) }
    if metadata.magic ≠ kConnectorMagicNumber then .error (.unexpectedMagicNumber metadata)
    else if metadata.lsize ≠ metadata.rsize then .error (.notSquare metadata)
    else .ok metadata

/-- The next `n` bytes, `VALIDATE_SIZE` with the read behind it. -/
def readBytes (data : Bytes) (ptr n : Nat) (part : Part) : Except InitError Bytes :=
  if n ≤ data.length - ptr then .ok ((data.drop ptr).take n)
  else .error (.pastTheEnd part ptr n (data.length - ptr))

/-- `VALIDATE_ALIGNMENT`, for data that begins at `address`. -/
def validateAlignment (address ptr : Nat) (part : Part) : Except InitError Unit :=
  if (address + ptr) % 4 = 0 then .ok () else .error (.notAligned part ptr)

/-- The row `i` at `ptr`, and where the next one begins. -/
def readRow (address : Nat) (data : Bytes) (chunkBitsSize i ptr : Nat) :
    Except InitError (Row × Nat) := do
  let compactBitsSize := leNat (← readBytes data ptr 2 (.compactBitsSize i))
  let ptr := ptr + 2
  let valuesSize := leNat (← readBytes data ptr 2 (.valuesSize i))
  let ptr := ptr + 2
  let chunkBits ← readBytes data ptr chunkBitsSize (.chunkBits i)
  validateAlignment address ptr (.chunkBits i)
  let ptr := ptr + chunkBitsSize
  let compactBits ← readBytes data ptr compactBitsSize (.compactBits i)
  validateAlignment address ptr (.compactBits i)
  let ptr := ptr + compactBitsSize
  let values ← readBytes data ptr valuesSize (.values i)
  validateAlignment address ptr (.values i)
  return (.init chunkBits compactBits values, ptr + valuesSize)

/-- The rows from `i` on. -/
def readRows (address : Nat) (data : Bytes) (chunkBitsSize : Nat) :
    Nat → Nat → Nat → Except InitError (List Row)
  | _, 0, _ => .ok []
  | i, k + 1, ptr => do
    let (row, ptr) ← readRow address data chunkBitsSize i ptr
    return row :: (← readRows address data chunkBitsSize (i + 1) k ptr)

end Connector

structure Connector where
  rows : List Connector.Row
  /-- The default costs, 2 bytes each. -/
  defaultCost : Bytes
  resolution : Nat
  use1ByteValue : Bool
  /-- The word in each bucket. -/
  cache : Nat → Nat

namespace Connector

/-- `Connector::Create`, for data that begins at `address`. -/
def create (address : Nat) (data : Bytes) : Except InitError Connector := do
  let metadata ← parseMetadata data
  let ptr := Metadata.kByteSize
  let defaultCostSize := metadata.defaultCostArraySize * 2
  let defaultCost ← readBytes data ptr defaultCostSize .defaultCost
  validateAlignment address ptr .defaultCost
  let rows ← readRows address data metadata.chunkBitsSize 0 metadata.rsize (ptr + defaultCostSize)
  return {
    rows := rows.map Row.buildIndex
    defaultCost := defaultCost
    resolution := metadata.resolution
    use1ByteValue := metadata.use1ByteValue
    cache := fun _ => 0 }

/-! ## Transition costs -/

def lookupCost (c : Connector) (rid lid : Nat) : Option Nat := do
  match ← (← c.rows[rid]?).getValue lid c.use1ByteValue with
  | none => loadUnaligned 2 c.defaultCost (2 * rid)
  -- The invalid cost is stored as is, it must not be scaled.
  | some value => if value = kInvalidCost then some kInvalidCost else some (value * c.resolution)

/-- A pair of ids as one word. -/
def cacheIndex (rid lid : Nat) : Nat := rid <<< 16 ||| lid

def bucket (rid lid : Nat) : Nat := (3 * rid + lid) &&& kCacheHashMask

/-- The upper 32 bits of a word hold the cost, the lower ones the index. -/
def store (cache : Nat → Nat) (rid lid value : Nat) : Nat → Nat :=
  Function.update cache (bucket rid lid) (value <<< 32 ||| cacheIndex rid lid)

def getTransitionCost (c : Connector) (rid lid : Nat) : Option (Nat × Connector) :=
  let cv := c.cache (bucket rid lid)
  if cv % 2 ^ 32 = cacheIndex rid lid then some (cv >>> 32, c)
  else (c.lookupCost rid lid).map fun value =>
    (value, { c with cache := store c.cache rid lid value })

end Connector

end Mozkey.Converter
