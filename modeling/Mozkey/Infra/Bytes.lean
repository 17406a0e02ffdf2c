import Mathlib.Data.List.Basic
import Mathlib.Algebra.GroupWithZero.Nat
import Mathlib.Algebra.Ring.Int.Defs

/-!
# Byte strings

`std::string` and `string_view` hold bytes, not characters. A text is a list of `UInt8`,
and a literal of the source is written as a Lean string and encoded once.
-/

namespace Infra

abbrev Bytes := List UInt8

/-- The bytes of a literal. -/
def utf8 (s : String) : Bytes := s.toList.flatMap String.utf8EncodeChar

/-- The byte of an ASCII character. -/
def byte (c : Char) : UInt8 := UInt8.ofNat c.toNat

/-- `std::to_string` of an unsigned number. -/
def decimal (n : Nat) : Bytes := (Nat.toDigits 10 n).map byte

/-- What holds of 256 numbers holds of every byte. -/
theorem forall_byte {P : UInt8 → Prop} (h : ∀ n : Fin 256, P (UInt8.ofNat n)) (b : UInt8) :
    P b := by
  have hb := h ⟨b.toNat, b.toNat_lt⟩
  rwa [UInt8.ofNat_toNat] at hb

/-! ## Decimal numbers -/

def isDigitByte (b : UInt8) : Bool := byte '0' ≤ b && b ≤ byte '9'

theorem toNat_ofNat_byte {n : Nat} (h : n < 256) : (UInt8.ofNat n).toNat = n :=
  UInt8.toNat_ofNat_of_lt' h

theorem toNat_byte {c : Char} (h : c.toNat < 256) : (byte c).toNat = c.toNat := toNat_ofNat_byte h

theorem toNat_of_isDigit {c : Char} (h : c.isDigit = true) : 48 ≤ c.toNat ∧ c.toNat ≤ 57 := by
  simp only [Char.isDigit, Bool.and_eq_true, decide_eq_true_eq] at h
  exact h

theorem isDigitByte_of_mem_decimal {n : Nat} {b : UInt8} (h : b ∈ decimal n) :
    isDigitByte b = true := by
  obtain ⟨c, hc, rfl⟩ := List.mem_map.mp h
  have hrange := toNat_of_isDigit (Nat.isDigit_of_mem_toDigits (by decide) (by decide) hc)
  have hbyte := toNat_byte (show c.toNat < 256 by omega)
  rw [isDigitByte, Bool.and_eq_true, decide_eq_true_eq, decide_eq_true_eq, UInt8.le_iff_toNat_le,
    UInt8.le_iff_toNat_le, hbyte]
  exact hrange

theorem decimal_ne_nil (n : Nat) : decimal n ≠ [] := by
  simp [decimal, ne_eq]

/-- A number can be read back. -/
theorem decimal_injective {m n : Nat} (h : decimal m = decimal n) : m = n := by
  have hback : ∀ k : Nat,
      (decimal k).map (fun b => Char.ofNat b.toNat) = Nat.toDigits 10 k := by
    intro k
    rw [decimal, List.map_map]
    refine (List.map_congr_left fun c hc => ?_).trans (List.map_id _)
    have hrange := toNat_of_isDigit (Nat.isDigit_of_mem_toDigits (by decide) (by decide) hc)
    show Char.ofNat (byte c).toNat = c
    rw [toNat_byte (by omega), Char.ofNat_toNat]
  rw [← Nat.ofDigitChars_ten_toDigits (n := m), ← hback, h, hback, Nat.ofDigitChars_ten_toDigits]

/-!
## 32-bit integers in memory

An `int32_t` is kept in four bytes, the lowest first. Memory is read at an offset, which may lie
outside of it.
-/

def int32Max : Int := 2 ^ 31 - 1

/-- The conversion to `int32_t` -/
def toInt32 (n : Int) : Int := if n % 2 ^ 32 < 2 ^ 31 then n % 2 ^ 32 else n % 2 ^ 32 - 2 ^ 32

/-- The conversion of an `int` to `size_t` -/
def toSizeT (n : Int) : Nat := (n % 2 ^ 64).toNat

/-- The four bytes of a number, converted to `int32_t`. -/
def int32Bytes (n : Int) : Bytes :=
  let bits := (n % 2 ^ 32).toNat
  [UInt8.ofNat bits, UInt8.ofNat (bits / 2 ^ 8), UInt8.ofNat (bits / 2 ^ 16),
    UInt8.ofNat (bits / 2 ^ 24)]

def int32OfBytes : Bytes → Int
  | [a, b, c, d] =>
    toInt32 (a.toNat + 2 ^ 8 * b.toNat + 2 ^ 16 * c.toNat + 2 ^ 24 * d.toNat : Nat)
  | _ => 0

/-- The `size` bytes at an offset, none when some of them lie outside. -/
def bytesAt (memory : Bytes) (offset : Int) (size : Nat) : Option Bytes :=
  if 0 ≤ offset ∧ offset + size ≤ memory.length then
    some ((memory.drop offset.toNat).take size)
  else none

def loadInt32 (memory : Bytes) (offset : Int) : Option Int :=
  (bytesAt memory offset 4).map int32OfBytes

/-! ## Ranges -/

theorem toInt32_of_range {n : Int} (hlo : -2 ^ 31 ≤ n) (hhi : n ≤ int32Max) : toInt32 n = n := by
  unfold int32Max at hhi
  unfold toInt32
  omega

theorem toInt32_range (n : Int) : -2 ^ 31 ≤ toInt32 n ∧ toInt32 n ≤ int32Max := by
  unfold toInt32 int32Max
  omega

theorem int32OfBytes_range (s : Bytes) : -2 ^ 31 ≤ int32OfBytes s ∧ int32OfBytes s ≤ int32Max := by
  unfold int32OfBytes
  split
  · exact toInt32_range _
  · decide

theorem toSizeT_of_neg {n : Int} (hlo : -2 ^ 31 ≤ n) (hneg : n < 0) : 2 ^ 63 ≤ toSizeT n := by
  unfold toSizeT
  omega

theorem toSizeT_of_nonneg {n : Int} (hlo : 0 ≤ n) (hhi : n ≤ int32Max) : (toSizeT n : Int) = n := by
  unfold int32Max at hhi
  unfold toSizeT
  omega

/-! ## Reading what was written -/

@[simp] theorem length_int32Bytes (n : Int) : (int32Bytes n).length = 4 := rfl

/-- **A number is read back as it was converted.** -/
theorem int32OfBytes_int32Bytes (n : Int) : int32OfBytes (int32Bytes n) = toInt32 n := by
  unfold int32Bytes int32OfBytes toInt32
  simp
  omega

theorem bytesAt_eq_some {memory s : Bytes} {offset : Int} {size : Nat}
    (h : bytesAt memory offset size = some s) :
    0 ≤ offset ∧ offset + size ≤ memory.length ∧ (memory.drop offset.toNat).take size = s := by
  unfold bytesAt at h
  split at h
  · next hinside => exact ⟨hinside.1, hinside.2, Option.some.inj h⟩
  · cases h

theorem exists_bytesAt {memory : Bytes} {offset : Int} {size : Nat} (hlo : 0 ≤ offset)
    (hhi : offset + size ≤ memory.length) : ∃ s, bytesAt memory offset size = some s :=
  ⟨_, if_pos ⟨hlo, hhi⟩⟩

theorem bytesAt_append (before s after : Bytes) :
    bytesAt (before ++ (s ++ after)) before.length s.length = some s := by
  rw [bytesAt, if_pos]
  · simp
  · simp only [List.length_append]
    omega

theorem loadInt32_append (before after : Bytes) (n : Int) :
    loadInt32 (before ++ (int32Bytes n ++ after)) before.length = some (toInt32 n) := by
  rw [loadInt32, ← length_int32Bytes n, bytesAt_append, Option.map_some, int32OfBytes_int32Bytes]

theorem loadInt32_range {memory : Bytes} {offset n : Int} (h : loadInt32 memory offset = some n) :
    -2 ^ 31 ≤ n ∧ n ≤ int32Max := by
  obtain ⟨s, -, rfl⟩ := Option.map_eq_some_iff.mp h
  exact int32OfBytes_range s

theorem exists_loadInt32 {memory : Bytes} {offset : Int} (hlo : 0 ≤ offset)
    (hhi : offset + 4 ≤ memory.length) : ∃ n, loadInt32 memory offset = some n := by
  obtain ⟨s, hs⟩ := exists_bytesAt hlo hhi
  exact ⟨_, by rw [loadInt32, hs]; rfl⟩

end Infra
