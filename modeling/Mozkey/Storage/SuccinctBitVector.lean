import Mozkey.Infra.Bits
import Mozkey.Infra.LowerBound

/-!
# A succinct bit vector

`storage/louds/simple_succinct_bit_vector_index.cc`. The 1-bits before each chunk of the data are
counted once. A rank is then such a count and the bits of one chunk, and a select a binary search
over the counts and a linear one over the words of one chunk. The binary search is narrowed to the
range between two positions that were searched for when the index was built.

The functions give nothing where the program has no defined behaviour: where it reads outside of
the data or of a vector, where an `int` overflows, and where a loop does not end. An `int` that is
never negative is a natural number.
-/

namespace Mozkey.Storage.Louds

open Infra

/-- The value of an `int` expression. -/
def int (n : Nat) : Option Nat := if n < 2 ^ 31 then some n else none

/-- `LoadUnaligned` of a word of so many bytes -/
def loadUnaligned (data : Bytes) (width offset : Nat) : Option Nat :=
  if offset + width ≤ data.length then some (leNat ((data.drop offset).take width)) else none

structure SimpleSuccinctBitVectorIndex where
  data : Bytes
  length : Nat
  chunkSize : Nat
  index : List Nat
  lb0CacheIncrement : Nat
  /-- Positions in `index`. -/
  lb0Cache : List Nat
  lb1CacheIncrement : Nat
  lb1Cache : List Nat

namespace SimpleSuccinctBitVectorIndex

/-! ## Building the index -/

/-- The loop of `Count1Bits` over `length` words of 32 bits, two at a time. -/
def countWords (data : Bytes) : Nat → Nat → Option Nat
  | 0, _ => some 0
  | 1, offset => (loadUnaligned data 4 offset).map (popcount 32)
  | length + 2, offset => do
    let word ← loadUnaligned data 8 offset
    let rest ← countWords data length (offset + 8)
    return popcount 64 word + rest

def count1Bits (data : Bytes) (offset length : Nat) : Option Nat :=
  countWords data length offset >>= int

/-- The loop of `InitIndex`. There are never more chunks than words. -/
def initIndexFrom (data : Bytes) (chunkSize : Nat) : Nat → Nat → Nat → Nat → Option (List Nat)
  | fuel, offset, remainingNumWords, numBits =>
    if remainingNumWords = 0 then some [numBits]
    else
      match fuel with
      | 0 => none
      | fuel + 1 => do
        let bits ← count1Bits data offset (min (chunkSize / 4) remainingNumWords)
        let next ← int (numBits + bits)
        let rest ← initIndexFrom data chunkSize fuel (offset + chunkSize)
          (remainingNumWords - chunkSize / 4) next
        return numBits :: rest

def initIndex (data : Bytes) (length chunkSize : Nat) : Option (List Nat) := do
  let ceiling ← int (length + chunkSize)
  let chunkLength := (ceiling - 1) / chunkSize
  let index ← initIndexFrom data chunkSize (length / 4) 0 (length / 4) 0
  -- CHECK_EQ
  if index.length = chunkLength + 1 then some index else none

/-- What `ZeroBitIndexIterator` reads: the number of 0-bits before a chunk. -/
def zeroBitIndex (index : List Nat) (chunkSize i : Nat) : Option Int := do
  let bits ← int (chunkSize * 8)
  let ones ← index[i]?
  return toInt32 (bits * i - ones)

def oneBitIndex (index : List Nat) (i : Nat) :
    Option Int := index[i]?.map fun (n : Nat) => (n : Int)

/-- The cache of `InitLowerBound0Cache` and `InitLowerBound1Cache`. -/
def initLowerBoundCache (values : Nat → Option Int) (indexSize increment size : Nat) :
    Option (List Nat) := do
  let bounds ← (List.range size).mapM fun i =>
    lowerBound values (toInt32 (increment * (i + 1) : Nat)) 0 indexSize
  return 0 :: bounds ++ [indexSize]

/-- The increment of a cache for so many bits. -/
def cacheIncrement (numBits cacheSize : Nat) : Nat :=
  let increment := if cacheSize = 0 then numBits else numBits / cacheSize
  if increment = 0 then 1 else increment

def init (data : Bytes) (length chunkSize lb0CacheSize lb1CacheSize : Nat) :
    Option SimpleSuccinctBitVectorIndex := do
  let index ← initIndex data length chunkSize
  let num1Bits ← index.getLast?
  let numBits ← int (8 * length)
  let lb0CacheIncrement := cacheIncrement (numBits - num1Bits) lb0CacheSize
  let lb0Cache ← initLowerBoundCache (zeroBitIndex index chunkSize) index.length lb0CacheIncrement
    lb0CacheSize
  let lb1CacheIncrement := cacheIncrement num1Bits lb1CacheSize
  let lb1Cache ← initLowerBoundCache (oneBitIndex index) index.length lb1CacheIncrement lb1CacheSize
  return ⟨data, length, chunkSize, index, lb0CacheIncrement, lb0Cache, lb1CacheIncrement, lb1Cache⟩

variable (v : SimpleSuccinctBitVectorIndex)

def getNum1Bits : Option Nat := v.index.getLast?

def getNum0Bits : Option Nat := do
  let numBits ← int (8 * v.length)
  let num1Bits ← v.index.getLast?
  return numBits - num1Bits

/-! ## Questions -/

/-- The bit at the index, the lowest of each byte first. -/
def get (index : Nat) : Option Bool := v.data[index / 8]?.map fun b => b.toNat.testBit (index % 8)

def rank1 (n : Nat) : Option Nat := do
  let chunkBits ← int (v.chunkSize * 8)
  if chunkBits = 0 then none
  else
    let numChunks := n / chunkBits
    let preceding ← v.index[numChunks]?
    let offset ← int (numChunks * v.chunkSize)
    let words ← count1Bits v.data offset (n / 32 - numChunks * (v.chunkSize / 4))
    if 0 < n % 32 then
      let word ← loadUnaligned v.data 4 (4 * (n / 32))
      int (preceding + words + popcount 32 (word <<< (32 - n % 32) % 2 ^ 32))
    else int (preceding + words)

/-- The search for the word that has the `n`-th bit, and the number of the bit in it. -/
def selectWord (data : Bytes) (word : Nat → Nat) : Nat → Nat → Nat → Option (Nat × Nat)
  | 0, _, _ => none
  | fuel + 1, ptr, n => do
    let bitCount := popcount 32 (word (← loadUnaligned data 4 ptr))
    if n ≤ bitCount then some (ptr, n) else selectWord data word fuel (ptr + 4) (n - bitCount)

/-- The bits up to the `n`-th 1-bit of a word. -/
def selectBit : Nat → Nat → Nat → Option Nat
  | _, _, 0 => some 0
  | 0, _, _ + 1 => none
  | fuel + 1, word, n + 1 => (selectBit fuel (word / 2) (n + 1 - word % 2)).map (· + 1)

/-- `Select0` and `Select1`: `values` are searched for the chunk, `before` are the bits before a
chunk, and `word` has a 1-bit for each of the bits that are counted. -/
def select (values : Nat → Option Int) (before : Nat → Option Nat) (word : Nat → Nat)
    (cache : List Nat) (increment n : Nat) : Option Nat := do
  let cacheIndex := min (n / increment) (cache.length - 2)
  let lower ← cache[cacheIndex]?
  let upper ← cache[cacheIndex + 1]?
  if upper < lower then none
  else
    let chunkPtr ← lowerBound values n lower (upper - lower)
    if chunkPtr = 0 then none
    else
      let chunkIndex := chunkPtr - 1
      let preceding ← before chunkIndex
      let offset ← int (chunkIndex * v.chunkSize)
      let (ptr, rest) ← selectWord v.data word (v.data.length + 1) (offset - offset % 4)
        (n - preceding)
      let bits ← selectBit 32 (word (← loadUnaligned v.data 4 ptr)) rest
      let index ← int (ptr * 8 + bits)
      return index - 1

/-- `chunk_size_ * 8 * chunk_index - index_[chunk_index]` -/
def zerosBefore (chunkIndex : Nat) : Option Nat := do
  let chunkBits ← int (v.chunkSize * 8)
  let bits ← int (chunkBits * chunkIndex)
  let ones ← v.index[chunkIndex]?
  return bits - ones

def select0 (n : Nat) : Option Nat :=
  v.select (zeroBitIndex v.index v.chunkSize) v.zerosBefore (fun word => 2 ^ 32 - 1 - word)
    v.lb0Cache v.lb0CacheIncrement n

def select1 (n : Nat) : Option Nat :=
  v.select (oneBitIndex v.index) (fun chunkIndex => v.index[chunkIndex]?) id v.lb1Cache
    v.lb1CacheIncrement n

end SimpleSuccinctBitVectorIndex

end Mozkey.Storage.Louds
