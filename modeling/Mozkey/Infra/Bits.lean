import Mozkey.Infra.Bytes
import Mathlib.Data.Bool.Count
import Mathlib.Data.Nat.Bitwise
import Mathlib.Data.List.Range

/-!
# Numbers and bits in bytes

Both are stored with the lowest first. A number of several bytes and a vector of bits are then
two readings of the same bytes (`testBit_leNat`), so that counting bits in a machine word is
counting them in the list (`popcount_mask`).
-/

namespace Infra

/-! ## Numbers -/

/-- The number that bytes spell, the lowest first. -/
def leNat : Bytes → Nat
  | [] => 0
  | b :: rest => b.toNat + 256 * leNat rest

/-- A number in `k` bytes, the lowest first. -/
def leBytes : Nat → Nat → Bytes
  | 0, _ => []
  | k + 1, n => UInt8.ofNat n :: leBytes k (n / 256)

@[simp] theorem length_leBytes : ∀ k n : Nat, (leBytes k n).length = k
  | 0, _ => rfl
  | k + 1, n => by rw [leBytes, List.length_cons, length_leBytes k]

/-- **What fits is read back.** -/
theorem leNat_leBytes : ∀ {k n : Nat}, n < 256 ^ k → leNat (leBytes k n) = n
  | 0, n, h => by
    rw [Nat.pow_zero] at h
    rw [leBytes, leNat]
    omega
  | k + 1, n, h => by
    rw [Nat.pow_succ] at h
    simp [leBytes, leNat, leNat_leBytes (show n / 256 < 256 ^ k by omega)]
    omega

theorem leNat_lt : ∀ bs : Bytes, leNat bs < 256 ^ bs.length
  | [] => by simp [leNat]
  | b :: bs => by
    have hb : b.toNat < 256 := b.toNat_lt
    have ih := leNat_lt bs
    simp [leNat]
    omega

/-! ## Bits -/

/-- The bits of bytes, the lowest of each byte first. -/
def bitsOf (bs : Bytes) : List Bool := bs.flatMap fun b => (List.range 8).map b.toNat.testBit

@[simp] theorem bitsOf_nil : bitsOf [] = [] := rfl

theorem bitsOf_cons (b : UInt8) (bs : Bytes) :
    bitsOf (b :: bs) = (List.range 8).map b.toNat.testBit ++ bitsOf bs := List.flatMap_cons

@[simp] theorem length_bitsOf : ∀ bs : Bytes, (bitsOf bs).length = 8 * bs.length
  | [] => rfl
  | b :: bs => by
    simp [bitsOf_cons, length_bitsOf bs]
    omega

theorem bitsOf_append (bs bs' : Bytes) : bitsOf (bs ++ bs') = bitsOf bs ++ bitsOf bs' :=
  List.flatMap_append

theorem getElem?_bitsOf : ∀ (bs : Bytes) (i : Nat),
    (bitsOf bs)[i]? = bs[i / 8]?.map fun b => b.toNat.testBit (i % 8)
  | [], i => by simp
  | b :: bs, i => by
    rw [bitsOf_cons, List.getElem?_append, List.length_map, List.length_range]
    split
    · next h =>
      simp [List.getElem?_map, List.getElem?_range h, Nat.div_eq_of_lt h, Nat.mod_eq_of_lt h]
    · next h =>
      rw [getElem?_bitsOf bs, show i / 8 = (i - 8) / 8 + 1 by omega,
        show i % 8 = (i - 8) % 8 by omega, List.getElem?_cons_succ]

theorem drop_bitsOf : ∀ (bs : Bytes) (k : Nat), bitsOf (bs.drop k) = (bitsOf bs).drop (8 * k)
  | bs, 0 => rfl
  | [], k + 1 => by simp
  | b :: bs, k + 1 => by
    rw [List.drop_succ_cons, drop_bitsOf bs k, bitsOf_cons, List.drop_append]
    simp [show 8 * (k + 1) - 8 = 8 * k by omega, show 8 ≤ 8 * (k + 1) by omega]

theorem take_bitsOf : ∀ (bs : Bytes) (k : Nat), bitsOf (bs.take k) = (bitsOf bs).take (8 * k)
  | bs, 0 => by simp
  | [], k + 1 => by simp
  | b :: bs, k + 1 => by
    have hbyte : ((List.range 8).map b.toNat.testBit).length ≤ 8 * (k + 1) := by
      rw [List.length_map, List.length_range]
      omega
    rw [List.take_succ_cons, bitsOf_cons, take_bitsOf bs k, bitsOf_cons, List.take_append,
      List.take_of_length_le hbyte]
    simp [show 8 * (k + 1) - 8 = 8 * k by omega]

theorem bitsOf_replicate_zero : ∀ n : Nat,
    bitsOf (List.replicate n 0) = List.replicate (8 * n) false
  | 0 => rfl
  | n + 1 => by
    rw [List.replicate_succ, bitsOf_cons, bitsOf_replicate_zero n, Nat.mul_succ, Nat.add_comm,
      List.replicate_add]
    rfl

/-- One bit of a byte is set. -/
theorem bitsOf_or_shift {s : Nat} (h : s < 8) (b : UInt8) :
    bitsOf [b ||| UInt8.ofNat (1 <<< s)] = (bitsOf [b]).set s true := by
  have hpow : 2 ^ s % 2 ^ 8 = 2 ^ s := Nat.mod_eq_of_lt (Nat.pow_lt_pow_right (by decide) h)
  refine List.ext_getElem? fun i => ?_
  rw [List.getElem?_set, getElem?_bitsOf, getElem?_bitsOf, length_bitsOf]
  by_cases hi : i < 8
  · rw [Nat.div_eq_of_lt hi, Nat.mod_eq_of_lt hi, List.getElem?_cons_zero, List.getElem?_cons_zero,
      Option.map_some, Option.map_some, UInt8.toNat_or, UInt8.toNat_ofNat', Nat.one_shiftLeft, hpow,
      Nat.testBit_or, Nat.testBit_two_pow]
    by_cases hs : s = i
    · rw [if_pos hs, if_pos (by simp; omega), hs]
      simp
    · simp [hs]
  · rw [if_neg (by omega), List.getElem?_eq_none (show 1 ≤ i / 8 by omega),
      List.getElem?_eq_none (show 1 ≤ i / 8 by omega)]

/-- **The bits of the number are the bits of the bytes.** -/
theorem testBit_leNat : ∀ (bs : Bytes) (j : Nat),
    (leNat bs).testBit j = (bitsOf bs).getD j false
  | [], j => by simp [leNat]
  | b :: bs, j => by
    have hb : b.toNat < 2 ^ 8 := b.toNat_lt
    rw [leNat, Nat.add_comm, show 256 * leNat bs = 2 ^ 8 * leNat bs from rfl,
      Nat.testBit_two_pow_mul_add _ hb, bitsOf_cons, List.getD_eq_getElem?_getD,
      List.getElem?_append]
    split
    · next h =>
      simp [if_pos (by simpa using h), List.getElem?_map, List.getElem?_range h]
    · next h =>
      rw [if_neg (by simpa using h), testBit_leNat bs, List.length_map, List.length_range,
        List.getD_eq_getElem?_getD]

/-! ## Counting the bits of a word -/

/-- The number of 1-bits in a word of so many bits. -/
def popcount (width w : Nat) : Nat := (List.range width).countP fun i => w.testBit i

theorem countP_range_getD (l : List Bool) : ∀ j : Nat,
    (List.range j).countP (fun i => l.getD i false) = (l.take j).count true
  | 0 => by simp
  | j + 1 => by
    rw [List.range_succ, List.countP_append, countP_range_getD l j, List.take_add_one,
      List.count_append]
    cases h : l[j]? with
    | none => simp [h]
    | some b => cases b <;> simp [h]

/-- The word masked to its lowest `j` bits. -/
theorem popcount_mask {width j : Nat} (h : j ≤ width) (w : Nat) :
    popcount width (w &&& (2 ^ j - 1)) = (List.range j).countP fun i => w.testBit i := by
  obtain ⟨d, rfl⟩ := Nat.exists_eq_add_of_le h
  rw [popcount, List.range_add, List.countP_append]
  have hlow : (List.range j).countP (fun i => (w &&& (2 ^ j - 1)).testBit i)
      = (List.range j).countP fun i => w.testBit i := by
    refine List.countP_congr fun i hi => ?_
    simp [List.mem_range.mp hi]
  have hhigh : ((List.range d).map (j + ·)).countP (fun i => (w &&& (2 ^ j - 1)).testBit i)
      = 0 := by
    refine List.countP_eq_zero.mpr fun i hi => ?_
    obtain ⟨k, _, rfl⟩ := List.mem_map.mp hi
    simp
  rw [hlow, hhigh, Nat.add_zero]

theorem popcount_mask_leNat {width j : Nat} (h : j ≤ width) (bs : Bytes) :
    popcount width (leNat bs &&& (2 ^ j - 1)) = ((bitsOf bs).take j).count true := by
  rw [popcount_mask h, ← countP_range_getD]
  exact List.countP_congr fun i _ => by rw [testBit_leNat]

theorem popcount_leNat (bs : Bytes) :
    popcount (8 * bs.length) (leNat bs) = (bitsOf bs).count true := by
  rw [popcount]
  have h := countP_range_getD (bitsOf bs) (8 * bs.length)
  rw [List.take_of_length_le (by simp)] at h
  rw [← h]
  exact List.countP_congr fun i _ => by rw [testBit_leNat]

/-!
## Ranks and selects

The rank of a position is the number of bits of one kind before it, and the select of a number
the position of the bit with that number. The bits of a range of words are counted by the words,
and the bit with a number is searched for in the word in which it is.
-/

/-- The `k`-th bit that is `b` is at position `p`. -/
def IsSelect (b : Bool) (bits : List Bool) (k p : Nat) : Prop :=
  bits[p]? = some b ∧ (bits.take p).count b + 1 = k

/-! ## Counting -/

variable {b : Bool} {bits : List Bool}

theorem count_take_add (b : Bool) (bits : List Bool) (m n : Nat) :
    (bits.take (m + n)).count b = (bits.take m).count b + ((bits.drop m).take n).count b := by
  rw [List.take_add, List.count_append]

theorem count_take_mono (b : Bool) (bits : List Bool) {m n : Nat} (h : m ≤ n) :
    (bits.take m).count b ≤ (bits.take n).count b := by
  obtain ⟨d, rfl⟩ := Nat.exists_eq_add_of_le h
  rw [count_take_add]
  exact Nat.le_add_right _ _

theorem count_take_le (b : Bool) (bits : List Bool) (n : Nat) :
    (bits.take n).count b ≤ bits.count b := (List.take_sublist n bits).count_le b

theorem count_le_add (b : Bool) (bits : List Bool) (m n : Nat) :
    (bits.take (m + n)).count b ≤ (bits.take m).count b + n := by
  rw [count_take_add]
  have hle := List.count_le_length (a := b) (l := (bits.drop m).take n)
  simp at hle
  omega

/-- The select within a part, from the select of the part. -/
theorem IsSelect.drop {m n k p : Nat} (h : IsSelect b ((bits.drop m).take n) k p) :
    IsSelect b bits ((bits.take m).count b + k) (m + p) := by
  obtain ⟨hbit, hcount⟩ := h
  have hp : p < n := by
    by_contra hge
    rw [List.getElem?_eq_none (by rw [List.length_take]; omega)] at hbit
    cases hbit
  rw [List.getElem?_take_of_lt hp, List.getElem?_drop] at hbit
  rw [List.take_take, Nat.min_eq_left (Nat.le_of_lt hp)] at hcount
  refine ⟨hbit, ?_⟩
  rw [count_take_add]
  omega

/-- There is one bit with a number. -/
theorem IsSelect.le_count {k p : Nat} (h : IsSelect b bits k p) : k ≤ bits.count b := by
  have hnext : (bits.take (p + 1)).count b = (bits.take p).count b + 1 := by
    rw [List.take_add_one, h.1, List.count_append]
    simp
  have hle := count_take_le b bits (p + 1)
  have hcount := h.2
  omega

theorem IsSelect.unique {k p q : Nat} (hp : IsSelect b bits k p) (hq : IsSelect b bits k q) :
    p = q := by
  have hstep : ∀ {x y : Nat}, IsSelect b bits k x → IsSelect b bits k y → ¬ x < y := by
    intro x y hx hy hlt
    have hnext : (bits.take (x + 1)).count b = (bits.take x).count b + 1 := by
      rw [List.take_add_one, hx.1, List.count_append]
      simp
    have hmono := count_take_mono b bits (show x + 1 ≤ y from hlt)
    have h1 := hx.2
    have h2 := hy.2
    omega
  have h1 := hstep hp hq
  have h2 := hstep hq hp
  omega

/-! ## Words -/

/-- The 1-bits of the word are the bits that are `b`. -/
def Marks (b : Bool) (word : Nat) (bits : List Bool) : Prop :=
  ∀ i, i < bits.length → word.testBit i = (bits.getD i false == b)

theorem Marks.tail {word : Nat} {first : Bool} (h : Marks b word (first :: bits)) :
    (word % 2 = if first = b then 1 else 0) ∧ Marks b (word / 2) bits := by
  constructor
  · have hfirst := h 0 (by simp)
    rw [Nat.testBit_zero] at hfirst
    have hbit : (first :: bits).getD 0 false = first := rfl
    rw [hbit] at hfirst
    have hmod : word % 2 < 2 := Nat.mod_lt _ (by decide)
    split
    · next heq =>
      simpa [heq, beq_self_eq_true, decide_eq_true_eq] using hfirst
    · next hne =>
      rw [beq_eq_false_iff_ne.mpr hne, decide_eq_false_iff_not] at hfirst
      omega
  · intro i hi
    have hnext := h (i + 1) (by simpa using hi)
    rw [Nat.testBit_succ] at hnext
    exact hnext

theorem Marks.popcount {word : Nat} : ∀ {bits : List Bool}, Marks b word bits →
    (List.range bits.length).countP (fun i => word.testBit i) = bits.count b
  | [], _ => rfl
  | first :: bits, h => by
    obtain ⟨hfirst, htail⟩ := h.tail
    have ih := htail.popcount
    rw [List.length_cons, List.range_succ_eq_map, List.countP_cons, List.countP_map,
      List.count_cons,
      ← ih]
    have hcongr : (List.range bits.length).countP ((fun i => word.testBit i) ∘ Nat.succ)
        = (List.range bits.length).countP fun i => (word / 2).testBit i :=
      List.countP_congr fun i _ => by rw [Function.comp, Nat.testBit_succ]
    rw [hcongr, Nat.testBit_zero, hfirst]
    by_cases heq : first = b
    · simp [heq]
    · simp [heq]

theorem marks_true (bs : Bytes) : Marks true (leNat bs) (bitsOf bs) := by
  intro i _
  rw [testBit_leNat]
  cases (bitsOf bs).getD i false <;> rfl

/-- The complement of a word marks the 0-bits. -/
theorem marks_false (bs : Bytes) :
    Marks false (2 ^ (8 * bs.length) - 1 - leNat bs) (bitsOf bs) := by
  intro i hi
  rw [length_bitsOf] at hi
  have hlt : leNat bs < 2 ^ (8 * bs.length) := by
    have h := leNat_lt bs
    rw [show (256 : Nat) = 2 ^ 8 from rfl, ← Nat.pow_mul] at h
    exact h
  rw [Nat.sub_sub, Nat.add_comm, Nat.testBit_two_pow_sub_succ hlt, testBit_leNat,
    decide_eq_true hi]
  cases (bitsOf bs).getD i false <;> rfl

/-- The bits of some bytes in the middle. -/
theorem bitsOf_part (bs : Bytes) (offset width : Nat) :
    bitsOf ((bs.drop offset).take width) = ((bitsOf bs).drop (8 * offset)).take (8 * width) := by
  rw [take_bitsOf, drop_bitsOf]

end Infra
