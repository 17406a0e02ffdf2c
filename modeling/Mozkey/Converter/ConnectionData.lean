import Mozkey.Infra.Bits
import Mozkey.Infra.SparseRow

/-!
# The connection data (`data_manager/gen_connection_data.py`)

The transition costs are compiled into bytes by a Python script. In each row the cells with the
mode value are left out, and what remains is written as a sparse row. An assertion that fails
and a number that `struct.pack` refuses are both `none`.
-/

namespace Mozkey.Converter

open Infra

def invalidCost : Int := 30000

def invalid1ByteCost : Int := 255

def resolutionFor1Byte : Int := 64

def fileMagic : Bytes := [0xAB, 0xCD]

/-- A row of the matrix, where `none` stands for the mode value. -/
abbrev CompressedRow := List (Option Int)

/-- `CompressMatrixByModeValue`. -/
def compressMatrixByModeValue (matrix : List (List Int)) (modeValueList : List Int) :
    Option (List CompressedRow) :=
  if matrix.length = modeValueList.length then
    some (matrix.zipWith (fun row modeValue => row.map fun cost =>
      if cost = modeValue then none else some cost) modeValueList)
  else none

/-- `struct.pack` of an unsigned number of `size` bytes. -/
def pack (size : Nat) (value : Int) : Option Bytes :=
  if 0 ≤ value ∧ value < 256 ^ size then some (leBytes size value.toNat) else none

/-- The bits fill a byte from its lowest one. -/
def packByte (bits : List Bool) : Nat :=
  bits.zipIdx.foldl (fun byte bit => if bit.1 then byte ||| 1 <<< bit.2 else byte) 0

def outputBitList (bitList : List Bool) : Option Bytes :=
  if bitList.length % 8 = 0 then
    some ((splitChunk 8 bitList).map fun bits => UInt8.ofNat (packByte bits))
  else none

/-- The value that is written for a cost. -/
def encodeCost (use1byteCost : Bool) (cost : Int) : Option Int :=
  if use1byteCost then
    if cost = invalidCost then some invalid1ByteCost
    else if cost / resolutionFor1Byte ≠ invalid1ByteCost then some (cost / resolutionFor1Byte)
    else none
  else some cost

def addCost (use1byteCost : Bool) (row : Sparse Int) : Option Int → Option (Sparse Int)
  | none => some { row with compactBits := row.compactBits ++ [false] }
  | some cost => (encodeCost use1byteCost cost).map fun value =>
    { row with compactBits := row.compactBits ++ [true], values := row.values ++ [value] }

def addChunk (use1byteCost : Bool) (row : Sparse Int) (chunk : List (Option Int)) :
    Option (Sparse Int) :=
  if chunk.all Option.isNone then some { row with chunkBits := row.chunkBits ++ [false] }
  else chunk.foldlM (addCost use1byteCost) { row with chunkBits := row.chunkBits ++ [true] }

/-- `while len(l) % n: l.append(x)`. -/
def padTo {α : Type} (n : Nat) (x : α) (l : List α) : List α :=
  l ++ List.replicate ((n - l.length % n) % n) x

def valueSize (use1byteCost : Bool) : Nat := if use1byteCost then 1 else 2

/-- The bytes of a row. -/
def outputRow (use1byteCost : Bool) (row : Sparse Int) : Option Bytes := do
  let chunkBits := padTo 32 false row.chunkBits
  let compactBits := padTo 32 false row.compactBits
  let values := padTo (if use1byteCost then 4 else 2) 0 row.values
  let compactBitsSize ← pack 2 (compactBits.length / 8 : Nat)
  let valuesSize ← pack 2 (values.length * valueSize use1byteCost : Nat)
  let chunkBits ← outputBitList chunkBits
  let compactBits ← outputBitList compactBits
  let values ← values.mapM (pack (valueSize use1byteCost))
  return compactBitsSize ++ valuesSize ++ chunkBits ++ compactBits ++ values.flatten

def buildRow (use1byteCost : Bool) (row : CompressedRow) : Option Bytes := do
  outputRow use1byteCost (← (splitChunk 8 row).foldlM (addChunk use1byteCost) .empty)

def buildBinaryData (matrix : List CompressedRow) (modeValueList : List Int)
    (use1byteCost : Bool) : Option Bytes := do
  let resolution := if use1byteCost then resolutionFor1Byte else 1
  let resolution ← pack 2 resolution
  let matrixSize ← pack 2 matrix.length
  let modeValues ← modeValueList.mapM (pack 2)
  let rows ← matrix.mapM (buildRow use1byteCost)
  return fileMagic ++ resolution ++ matrixSize ++ matrixSize ++ modeValues.flatten
    ++ (if modeValueList.length % 2 = 1 then [0, 0] else []) ++ rows.flatten

/-- The script from the matrix to the bytes. -/
def compile (matrix : List (List Int)) (modeValueList : List Int) (use1byteCost : Bool) :
    Option Bytes := do
  buildBinaryData (← compressMatrixByModeValue matrix modeValueList) modeValueList use1byteCost

/-! ## Bits and numbers -/

theorem pack_eq_some {size : Nat} {value : Int} {bs : Bytes} (h : pack size value = some bs) :
    bs.length = size ∧ (leNat bs : Int) = value := by
  unfold pack at h
  split at h
  · next hrange =>
    obtain ⟨n, rfl⟩ := Int.eq_ofNat_of_zero_le hrange.1
    cases h
    have hlt : n < 256 ^ size := by
      have := hrange.2
      exact_mod_cast this
    simp [length_leBytes, leNat_leBytes hlt]
  · cases h

theorem pack_natCast {size n : Nat} {bs : Bytes} (h : pack size n = some bs) :
    bs = leBytes size n ∧ n < 256 ^ size := by
  unfold pack at h
  split at h
  · next hrange =>
    refine ⟨by rw [← Option.some.inj h, Int.toNat_natCast], ?_⟩
    have := hrange.2
    exact_mod_cast this
  · cases h

theorem testBit_foldl_packByte : ∀ (bits : List Bool) (k byte j : Nat),
    ((bits.zipIdx k).foldl (fun byte bit => if bit.1 then byte ||| 1 <<< bit.2 else byte)
      byte).testBit j = (byte.testBit j || (decide (k ≤ j) && bits.getD (j - k) false))
  | [], k, byte, j => by simp
  | b :: bits, k, byte, j => by
    rw [List.zipIdx_cons, List.foldl_cons, testBit_foldl_packByte bits (k + 1)]
    rcases Nat.lt_trichotomy j k with hlt | rfl | hgt
    · cases b <;> simp [Nat.testBit_or, Nat.one_shiftLeft, hlt.not_ge,
        show ¬k + 1 ≤ j by omega, show ¬k = j by omega]
    · cases b <;> simp [Nat.testBit_or, Nat.one_shiftLeft]
    · obtain ⟨d, rfl⟩ := Nat.exists_eq_add_of_lt hgt
      cases b <;> simp [Nat.testBit_or, Nat.one_shiftLeft,
        show k + d + 1 - k = d + 1 by omega, show k + d + 1 - (k + 1) = d by omega,
        show k ≤ k + d + 1 by omega, show ¬k = k + d + 1 by omega]

theorem testBit_packByte (bits : List Bool) (j : Nat) :
    (packByte bits).testBit j = bits.getD j false := by
  rw [packByte, testBit_foldl_packByte bits 0 0 j]
  simp

theorem bitsOf_packByte {bits : List Bool} (h : bits.length = 8) :
    (List.range 8).map (UInt8.ofNat (packByte bits)).toNat.testBit = bits := by
  have hlt : packByte bits < 2 ^ 8 := Nat.lt_pow_two_of_testBit _ fun j hj => by
    rw [testBit_packByte, List.getD_eq_default _ _ (by omega)]
  rw [UInt8.toNat_ofNat_of_lt' hlt]
  refine List.ext_getElem (by simp [h]) fun j hj hj' => ?_
  rw [List.getElem_map, List.getElem_range, testBit_packByte, List.getD_eq_getElem _ _ hj']

/-- **The bits are read back.** -/
theorem bitsOf_outputBitList {bits : List Bool} {bs : Bytes} (h : outputBitList bits = some bs) :
    bitsOf bs = bits := by
  unfold outputBitList at h
  split at h
  · next hmod =>
    cases h
    have hlen := length_of_mem_splitChunk (by decide) (Nat.dvd_of_mod_eq_zero hmod)
    rw [bitsOf, List.flatMap_map, List.flatMap_def,
      List.map_congr_left fun c hc => bitsOf_packByte (hlen c hc), List.map_id',
      flatten_splitChunk (by decide)]
  · cases h

theorem length_padTo {α : Type} {n : Nat} (hn : 0 < n) (x : α) (l : List α) :
    (padTo n x l).length % n = 0 := by
  have hlt := Nat.mod_lt l.length hn
  rw [padTo, List.length_append, List.length_replicate]
  rcases Nat.eq_zero_or_pos (l.length % n) with h | h
  · simp [h]
  · rw [Nat.mod_eq_of_lt (show n - l.length % n < n by omega), Nat.add_mod,
      Nat.mod_eq_of_lt (show n - l.length % n < n by omega),
      show l.length % n + (n - l.length % n) = n by omega, Nat.mod_self]

end Mozkey.Converter
