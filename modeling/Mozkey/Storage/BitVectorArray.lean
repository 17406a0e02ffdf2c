import Mathlib.Data.List.ModifyLast
import Mathlib.Algebra.BigOperators.Group.List.Basic
import Mozkey.Storage.SuccinctIndex

/-!
# An array of byte strings by a bit vector

`storage/louds/bit_stream.cc`, `bit_vector_based_array_builder.cc` and `bit_vector_based_array.cc`.
The length of an element is rounded up to a base length and some steps. The bit vector has a 0-bit
for each element and then a 1-bit for each of its steps, and one more 0-bit behind the last one, so
that the place and the length of an element are counts of bits.

The functions give nothing where a check of the program fails and where it has no defined
behaviour.
-/

namespace Mozkey.Storage.Louds

open Infra

/-! ## Bits -/

structure BitStream where
  image : Bytes := []
  numBits : Nat := 0

namespace BitStream

def pushBit (s : BitStream) (bit : Nat) : BitStream :=
  let shift := s.numBits % 8
  let image := if shift = 0 then s.image ++ [0] else s.image
  ⟨image.modifyLast fun last => last ||| UInt8.ofNat ((bit &&& 1) <<< shift), s.numBits + 1⟩

def byteSize (s : BitStream) : Nat := s.image.length

def fillPadding32 (s : BitStream) : BitStream :=
  let remaining := s.image.length % 4
  let image := if remaining ≠ 0 then s.image ++ List.replicate (4 - remaining) 0 else s.image
  ⟨image, image.length * 8⟩

end BitStream

/-- None when the value does not fit. -/
def pushInt32 (value : Nat) (image : Bytes) : Option Bytes :=
  if value ≤ 0xFFFFFFFF then
    some (image ++ [UInt8.ofNat (value &&& 0xFF), UInt8.ofNat (value >>> 8 &&& 0xFF),
      UInt8.ofNat (value >>> 16 &&& 0xFF), UInt8.ofNat (value >>> 24 &&& 0xFF)])
  else none

/-! ## Building -/

structure BitVectorBasedArrayBuilder where
  built : Bool := false
  elements : List Bytes := []
  baseLength : Nat := 4
  stepLength : Nat := 1
  image : Bytes := []

namespace BitVectorBasedArrayBuilder

def add (builder : BitVectorBasedArrayBuilder) (element : Bytes) :
    Option BitVectorBasedArrayBuilder :=
  if builder.built then none
  else some { builder with elements := builder.elements ++ [element] }

def setSize (builder : BitVectorBasedArrayBuilder) (baseLength stepLength : Nat) :
    Option BitVectorBasedArrayBuilder :=
  if builder.built then none
  else some { builder with baseLength := baseLength, stepLength := stepLength }

variable (baseLength stepLength : Nat)

/-- The loop that counts the steps, whose length is a `size_t`. It takes no more steps than there
are bytes, unless the length wraps around. -/
def numStepsFrom : Nat → Nat → Nat → Option Nat
  | fuel, length, numSteps =>
    if length ≤ baseLength then some numSteps
    else
      match fuel with
      | 0 => none
      | fuel + 1 => do
        let next ← int (numSteps + 1)
        numStepsFrom fuel ((length + 2 ^ 64 - stepLength) % 2 ^ 64) next

/-- One element, to the bits and to the data. -/
def putElement (output : BitStream × Bytes) (element : Bytes) : Option (BitStream × Bytes) := do
  let numSteps ← numStepsFrom baseLength stepLength element.length element.length 0
  let outputLength := (baseLength + numSteps * stepLength) % 2 ^ 64
  -- DCHECK_GE
  if outputLength < element.length then none
  else
    let bits := (List.replicate numSteps 1).foldl BitStream.pushBit (output.1.pushBit 0)
    some (bits, output.2 ++ element ++ List.replicate (outputLength - element.length) 0)

def build (builder : BitVectorBasedArrayBuilder) : Option BitVectorBasedArrayBuilder :=
  if builder.built then none
  else do
    let (bits, data) ← builder.elements.foldlM (putElement builder.baseLength builder.stepLength)
      (({} : BitStream), [])
    let bits := (bits.pushBit 0).fillPadding32
    let image ← pushInt32 bits.byteSize builder.image
    let image ← pushInt32 builder.baseLength image
    let image ← pushInt32 builder.stepLength image
    let image ← pushInt32 0 image
    return { builder with built := true, image := image ++ bits.image ++ data }

end BitVectorBasedArrayBuilder

/-! ## Reading -/

structure BitVectorBasedArray where
  index : SimpleSuccinctBitVectorIndex
  baseLength : Nat
  stepLength : Nat
  data : Bytes

namespace BitVectorBasedArray

def kLb0CacheSize : Nat := 1024
def kLb1CacheSize : Nat := 0

/-- `Open` of an image. The index is made of chunks of the default size. -/
def ofImage (image : Bytes) : Option BitVectorBasedArray := do
  let indexLength ← int (← loadUnaligned image 4 0)
  let baseLength ← loadUnaligned image 4 4
  let stepLength ← loadUnaligned image 4 8
  let padding ← loadUnaligned image 4 12
  if padding ≠ 0 ∨ image.length < 16 + indexLength then none
  else
    let index ← SimpleSuccinctBitVectorIndex.init ((image.drop 16).take indexLength) indexLength 32
      kLb0CacheSize kLb1CacheSize
    return ⟨index, toSizeT (toInt32 baseLength), toSizeT (toInt32 stepLength),
      image.drop (16 + indexLength)⟩

variable (a : BitVectorBasedArray)

/-- The first position from `i` on that has no 1-bit. -/
def linearSearch : Nat → Nat → Option Nat
  | 0, _ => none
  | fuel + 1, i => do
    if ← a.index.get i then linearSearch fuel (i + 1) else some i

/-- The place in the data and the length of an element. -/
def get (index : Nat) : Option (Int × Nat) := do
  let bitIndex ← a.index.select0 (← int (index + 1))
  let ones ← a.index.rank1 bitIndex
  let dataIndex := toInt32 ((a.baseLength * index + a.stepLength * ones) % 2 ^ 64 : Nat)
  let i ← a.linearSearch (8 * a.index.length + 1) (bitIndex + 1)
  return (dataIndex, (a.baseLength + a.stepLength * (i - bitIndex - 1)) % 2 ^ 64)

end BitVectorBasedArray

/-!
## The image of an array

The bits that were pushed are the first bits of the bytes of a stream, and the others are 0. The
builder then writes a code for each element, and the element filled up to its length
(`exists_build`).
-/

namespace BitStream

/-- The bits that were pushed. -/
structure Holds (s : BitStream) (bits : List Bool) : Prop where
  numBits_eq : s.numBits = bits.length
  length_eq : s.image.length = (bits.length + 7) / 8
  bits_eq : bitsOf s.image = bits ++ List.replicate (8 * s.image.length - bits.length) false

variable {s : BitStream} {bits : List Bool}

theorem holds_nil : Holds {} [] := ⟨rfl, rfl, rfl⟩

/-- A bit goes to the last byte, which is a new one when the others are full. -/
theorem Holds.last_byte (h : s.Holds bits) : ∃ before last,
    (if s.numBits % 8 = 0 then s.image ++ [0] else s.image) = before ++ [last] ∧
      bits.length = 8 * before.length + s.numBits % 8 ∧
      bitsOf (before ++ [last]) = bits ++ List.replicate (8 - s.numBits % 8) false := by
  have hlength := h.length_eq
  have hbits := h.bits_eq
  rw [h.numBits_eq]
  split
  · next hfull =>
    refine ⟨s.image, 0, rfl, by omega, ?_⟩
    rw [bitsOf_append, hbits, show 8 * s.image.length - bits.length = 0 by omega, hfull]
    simp [bitsOf, List.replicate]
    decide
  · next hpart =>
    have hne : s.image ≠ [] := by
      intro hnil
      simp [hnil] at hlength
      omega
    refine ⟨s.image.dropLast, s.image.getLast hne, (List.dropLast_concat_getLast hne).symm, ?_, ?_⟩
    · simp
      omega
    · rw [List.dropLast_concat_getLast, hbits]
      congr 2
      omega

/-- **A bit is pushed behind the others.** -/
theorem Holds.pushBit (h : s.Holds bits) (b : Bool) : (s.pushBit b.toNat).Holds (bits ++ [b]) := by
  obtain ⟨before, last, himage, hlength, hbits⟩ := h.last_byte
  have hshift : s.numBits % 8 < 8 := Nat.mod_lt _ (by decide)
  have hpushed : (s.pushBit b.toNat).image
      = before ++ [last ||| UInt8.ofNat ((b.toNat &&& 1) <<< (s.numBits % 8))] := by
    rw [BitStream.pushBit, himage, List.modifyLast_concat]
  have hcount : (s.pushBit b.toNat).image.length = before.length + 1 := by
    simp [hpushed]
  refine ⟨?_, ?_, ?_⟩
  · simp [BitStream.pushBit, h.numBits_eq]
  · simp [hcount]
    omega
  · rw [hcount, hpushed, List.length_append, List.length_singleton, bitsOf_append]
    rw [bitsOf_append] at hbits
    have hrest : 8 * (before.length + 1) - (bits.length + 1) = 7 - s.numBits % 8 := by omega
    rw [hrest]
    cases b with
    | false =>
      have hzero : last ||| UInt8.ofNat ((false.toNat &&& 1) <<< (s.numBits % 8)) = last := by
        simp
      rw [hzero, hbits, List.append_assoc, List.singleton_append, ← List.replicate_succ]
      congr 2
      omega
    | true =>
      have hset : bitsOf before ++ (bitsOf [last]).set (s.numBits % 8) true
          = (bits ++ List.replicate (8 - s.numBits % 8) false).set bits.length true := by
        simp [← hbits, length_bitsOf,
          hlength]
      rw [show true.toNat &&& 1 = 1 from rfl, bitsOf_or_shift hshift, hset,
        List.set_append_right _ _ (Nat.le_refl _), Nat.sub_self,
        show 8 - s.numBits % 8 = 7 - s.numBits % 8 + 1 by omega, List.replicate_succ,
        List.set_cons_zero, List.append_assoc, List.singleton_append]

theorem Holds.pushOnes : ∀ {s : BitStream} {bits : List Bool} (n : Nat), s.Holds bits →
    ((List.replicate n 1).foldl BitStream.pushBit s).Holds (bits ++ List.replicate n true)
  | s, bits, 0, h => by
    simpa using h
  | s, bits, n + 1, h => by
    have ih := pushOnes n (h.pushBit true)
    rw [List.append_assoc, List.singleton_append, ← List.replicate_succ] at ih
    exact ih

/-- **The padding is 0-bits.** -/
theorem Holds.fillPadding32 (h : s.Holds bits) :
    s.fillPadding32.image.length = 4 * ((bits.length + 31) / 32) ∧
      bitsOf s.fillPadding32.image
        = bits ++ List.replicate (8 * s.fillPadding32.image.length - bits.length) false := by
  have hlength := h.length_eq
  unfold BitStream.fillPadding32
  dsimp only
  split
  · next hpart =>
    rw [List.length_append, List.length_replicate, bitsOf_append, h.bits_eq, bitsOf_replicate_zero,
      List.append_assoc, List.replicate_append_replicate]
    refine ⟨by omega, ?_⟩
    congr 2
    omega
  · exact ⟨by omega, h.bits_eq⟩

end BitStream

namespace BitVectorBasedArrayBuilder

/-! ## Elements -/

/-- The number of steps to a length, rounded up. -/
def steps (base step length : Nat) : Nat := (length - base + (step - 1)) / step

/-- The length that an element has in the image. -/
def storedLength (base step : Nat) (element : Bytes) : Nat :=
  base + steps base step element.length * step

def stored (base step : Nat) (element : Bytes) : Bytes :=
  element ++ List.replicate (storedLength base step element - element.length) 0

/-- The bits of an element. -/
def code (base step : Nat) (element : Bytes) : List Bool :=
  false :: List.replicate (steps base step element.length) true

variable {base step : Nat}

theorem length_le_steps (base : Nat) (hstep : 0 < step) (length : Nat) :
    length ≤ base + steps base step length * step := by
  have hdiv := Nat.div_add_mod (length - base + (step - 1)) step
  have hmod := Nat.mod_lt (length - base + (step - 1)) hstep
  rw [steps, Nat.mul_comm]
  omega

/-- No smaller number of steps is enough. -/
theorem steps_le {length k : Nat} (hstep : 0 < step) (h : length ≤ base + k * step) :
    steps base step length ≤ k := by
  have hlt : length - base + (step - 1) < (k + 1) * step := by
    rw [Nat.succ_mul]
    omega
  exact Nat.le_of_lt_succ ((Nat.div_lt_iff_lt_mul hstep).mpr hlt)

theorem steps_of_le {length : Nat} (hstep : 0 < step) (h : length ≤ base) :
    steps base step length = 0 := Nat.le_zero.mp (steps_le hstep (by omega))

theorem steps_succ {length : Nat} (hstep : 0 < step) (h : base < length) :
    steps base step length = steps base step (length - step) + 1 := by
  unfold steps
  by_cases hle : step ≤ length - base
  · rw [← Nat.add_div_right _ hstep]
    congr 1
    omega
  · rw [show length - base + (step - 1) = length - base - 1 + step by omega,
      Nat.add_div_right _ hstep, Nat.div_eq_of_lt (by omega), Nat.div_eq_of_lt (by omega)]

theorem length_stored (hstep : 0 < step) (element : Bytes) :
    (stored base step element).length = storedLength base step element := by
  have hle := length_le_steps base hstep element.length
  rw [stored, List.length_append, List.length_replicate]
  exact Nat.add_sub_cancel' hle

theorem numStepsFrom_eq (hstep : 0 < step) (hbase : step ≤ base + 1) :
    ∀ fuel length numSteps : Nat, length ≤ fuel → length < 2 ^ 64 →
    numSteps + steps base step length < 2 ^ 31 →
    numStepsFrom base step fuel length numSteps = some (numSteps + steps base step length)
  | fuel, length, numSteps, hfuel, hfits, hint => by
    unfold numStepsFrom
    split
    · next hle => rw [steps_of_le hstep hle, Nat.add_zero]
    · next hgt =>
      have hsucc := steps_succ hstep (show base < length by omega)
      cases fuel with
      | zero => exact absurd hfuel (by omega)
      | succ fuel =>
        have hsub : (length + 2 ^ 64 - step) % 2 ^ 64 = length - step := by omega
        dsimp only
        rw [int_eq_some (by omega), hsub, Option.bind_eq_bind, Option.bind_some,
          numStepsFrom_eq hstep hbase fuel (length - step) (numSteps + 1) (by omega) (by omega)
            (by omega), hsucc]
        exact congrArg some (by omega)

/-- An element is written as its code and its bytes. -/
theorem exists_putElement (hstep : 0 < step) (hbase : step ≤ base + 1) {element : Bytes}
    (hfits : storedLength base step element < 2 ^ 31) {output : BitStream × Bytes}
    {bits : List Bool} (h : output.1.Holds bits) :
    ∃ stream, putElement base step output element
        = some (stream, output.2 ++ stored base step element) ∧
      stream.Holds (bits ++ code base step element) := by
  have hle := length_le_steps base hstep element.length
  have hsteps : steps base step element.length ≤ steps base step element.length * step :=
    Nat.le_mul_of_pos_right _ hstep
  unfold storedLength at hfits
  refine ⟨(List.replicate (steps base step element.length) 1).foldl BitStream.pushBit
    (output.1.pushBit 0), ?_, ?_⟩
  · rw [putElement, numStepsFrom_eq hstep hbase _ _ _ (Nat.le_refl _) (by omega) (by omega),
      Option.bind_eq_bind, Option.bind_some, Nat.zero_add]
    dsimp only
    rw [Nat.mod_eq_of_lt (by omega), if_neg (by omega), List.append_assoc]
    rfl
  · have hones := (h.pushBit false).pushOnes (steps base step element.length)
    rw [List.append_assoc, List.singleton_append] at hones
    exact hones

theorem exists_putElements (hstep : 0 < step) (hbase : step ≤ base + 1) :
    ∀ (elements : List Bytes) (output : BitStream × Bytes) {bits : List Bool},
    (∀ element ∈ elements, storedLength base step element < 2 ^ 31) → output.1.Holds bits →
    ∃ stream, elements.foldlM (putElement base step) output
        = some (stream, output.2 ++ elements.flatMap (stored base step)) ∧
      stream.Holds (bits ++ elements.flatMap (code base step))
  | [], output, bits, _, h => by
    refine ⟨output.1, ?_, ?_⟩
    · simp
    · simpa using h
  | element :: elements, output, bits, hfits, h => by
    obtain ⟨stream, hput, hstream⟩ := exists_putElement hstep hbase
      (hfits element List.mem_cons_self) h
    obtain ⟨last, hrest, hlast⟩ := exists_putElements hstep hbase elements
      (stream, output.2 ++ stored base step element)
        (fun x hx => hfits x (List.mem_cons_of_mem element hx)) hstream
    refine ⟨last, ?_, ?_⟩
    · simp [hput, hrest]
    · simpa [← List.append_assoc] using hlast

/-! ## The image -/

theorem pushInt32_eq {value : Nat} (h : value < 2 ^ 32) (image : Bytes) :
    pushInt32 value image = some (image ++ leBytes 4 value) := by
  rw [pushInt32, if_pos (by omega)]
  refine congrArg (fun bytes => some (image ++ bytes)) ?_
  have hbyte : ∀ n : Nat, UInt8.ofNat (n &&& 0xFF) = UInt8.ofNat n := fun n => by
    rw [show (0xFF : Nat) = 2 ^ 8 - 1 from rfl, Nat.and_two_pow_sub_one_eq_mod]
    exact UInt8.toNat_inj.mp (by rw [UInt8.toNat_ofNat', UInt8.toNat_ofNat', Nat.mod_mod])
  rw [hbyte, hbyte, hbyte, hbyte, Nat.shiftRight_eq_div_pow, Nat.shiftRight_eq_div_pow,
    Nat.shiftRight_eq_div_pow]
  simp only [leBytes, Nat.div_div_eq_div_mul]

/-- The bits of the elements, with the sentinel behind them. -/
def codes (base step : Nat) (elements : List Bytes) : List Bool :=
  elements.flatMap (code base step) ++ [false]

def imageOf (base step : Nat) (index : Bytes) (elements : List Bytes) : Bytes :=
  leBytes 4 index.length ++ leBytes 4 base ++ leBytes 4 step ++ leBytes 4 0 ++ index
    ++ elements.flatMap (stored base step)

/-- **The image is a header, the bits of the elements and their bytes.** -/
theorem exists_build (hstep : 0 < step) (hbase : step ≤ base + 1) (hbase32 : base < 2 ^ 32)
    (hstep32 : step < 2 ^ 32) {elements : List Bytes}
    (hdata : ∀ element ∈ elements, storedLength base step element < 2 ^ 31)
    (hbits : (codes base step elements).length < 2 ^ 31) :
    ∃ index, build { elements := elements, baseLength := base, stepLength := step }
        = some ⟨true, elements, base, step, imageOf base step index elements⟩ ∧
      index.length = 4 * (((codes base step elements).length + 31) / 32) ∧
      bitsOf index = codes base step elements
        ++ List.replicate (8 * index.length - (codes base step elements).length) false := by
  obtain ⟨stream, hput, hstream⟩ := exists_putElements hstep hbase elements ({}, []) hdata
    BitStream.holds_nil
  have hsentinel := hstream.pushBit false
  rw [List.nil_append, ← codes] at hsentinel
  obtain ⟨hlength, hpadded⟩ := hsentinel.fillPadding32
  refine ⟨(stream.pushBit 0).fillPadding32.image, ?_, hlength, hpadded⟩
  have hsize : (stream.pushBit 0).fillPadding32.image.length < 2 ^ 32 := by
    have hlength : (stream.pushBit 0).fillPadding32.image.length = _ := hlength
    omega
  simp only [build, hput, Option.bind_eq_bind, Option.bind_some, BitStream.byteSize,
    pushInt32_eq hsize, pushInt32_eq hbase32, pushInt32_eq hstep32,
    pushInt32_eq (show 0 < 2 ^ 32 by decide), List.nil_append, Bool.false_eq_true, if_false]
  rfl

end BitVectorBasedArrayBuilder

end Mozkey.Storage.Louds
