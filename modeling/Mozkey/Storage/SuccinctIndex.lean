import Mozkey.Storage.SuccinctBitVector

/-!
# Ranks by the index

The index has the rank of the first bit of each chunk. The words between that bit and another one
are within the data, and the shifted word keeps the bits before the other one. The rank is then
exact for every position (`rank1_eq`).
-/

namespace Mozkey.Storage.Louds

open Infra

theorem int_eq_some {n : Nat} (h : n < 2 ^ 31) : int n = some n := if_pos h

namespace SimpleSuccinctBitVectorIndex

/-- The number of bits of one kind among the first ones. -/
def rank (b : Bool) (data : Bytes) (n : Nat) : Nat := ((bitsOf data).take n).count b

/-- The number of chunks, rounded up. -/
def chunks (length chunkSize : Nat) : Nat := (length + chunkSize - 1) / chunkSize

theorem rank_le (b : Bool) (data : Bytes) (n : Nat) : rank b data n ≤ 8 * data.length := by
  have hle := List.count_le_length (a := b) (l := (bitsOf data).take n)
  rw [List.length_take, length_bitsOf] at hle
  exact Nat.le_trans hle (Nat.min_le_right _ _)

theorem rank_of_le {b : Bool} {data : Bytes} {n : Nat} (h : 8 * data.length ≤ n) :
    rank b data n = (bitsOf data).count b := by
  rw [rank, List.take_of_length_le (by rw [length_bitsOf]; exact h)]

theorem get_eq (v : SimpleSuccinctBitVectorIndex) (i : Nat) : v.get i = (bitsOf v.data)[i]? :=
  (getElem?_bitsOf _ _).symm

/-! ## Words -/

variable {data : Bytes} {chunkSize : Nat}

theorem loadUnaligned_eq {width offset : Nat} (h : offset + width ≤ data.length) :
    loadUnaligned data width offset = some (leNat ((data.drop offset).take width)) := if_pos h

theorem length_part {width offset : Nat} (h : offset + width ≤ data.length) :
    ((data.drop offset).take width).length = width := by
  simp
  omega

theorem popcount_part {width offset : Nat} (h : offset + width ≤ data.length) :
    popcount (8 * width) (leNat ((data.drop offset).take width))
      = (((bitsOf data).drop (8 * offset)).take (8 * width)).count true := by
  have hcount := popcount_leNat ((data.drop offset).take width)
  simpa [length_part h, bitsOf_part] using hcount

theorem countWords_eq : ∀ {length offset : Nat}, offset + 4 * length ≤ data.length →
    countWords data length offset
      = some ((((bitsOf data).drop (8 * offset)).take (32 * length)).count true)
  | 0, offset, _ => by simp [countWords]
  | 1, offset, h => by
    rw [countWords, loadUnaligned_eq (by omega), Option.map_some]
    exact congrArg some (popcount_part (show offset + 4 ≤ data.length by omega))
  | length + 2, offset, h => by
    have hword := popcount_part (show offset + 8 ≤ data.length by omega)
    rw [show 8 * 8 = 64 from rfl] at hword
    rw [countWords, loadUnaligned_eq (by omega), countWords_eq (by omega)]
    refine congrArg some ?_
    rw [hword, show 32 * (length + 2) = 64 + 32 * length by omega, count_take_add, List.drop_drop]
    rw [show 8 * offset + 64 = 8 * (offset + 8) by omega]

/-- The words from a position on are counted when the data has them. -/
theorem rank_add_count1Bits {length offset : Nat} (h : offset + 4 * length ≤ data.length)
    (hfits : 8 * data.length < 2 ^ 31) :
    ∃ bits, count1Bits data offset length = some bits ∧
      rank true data (8 * offset) + bits = rank true data (8 * offset + 32 * length) := by
  refine ⟨_, ?_, (count_take_add true (bitsOf data) (8 * offset) (32 * length)).symm⟩
  rw [count1Bits, countWords_eq h]
  refine int_eq_some (Nat.lt_of_le_of_lt ?_ hfits)
  have hsum := count_take_add true (bitsOf data) (8 * offset) (32 * length)
  have hle := rank_le true data (8 * offset + 32 * length)
  rw [rank] at hle
  omega

/-! ## The index -/

theorem chunks_succ {remaining : Nat} (hsize : 0 < chunkSize) (hfour : 4 ∣ chunkSize)
    (h : remaining ≠ 0) :
    chunks (4 * remaining) chunkSize = chunks (4 * (remaining - chunkSize / 4)) chunkSize + 1 := by
  obtain ⟨quarter, rfl⟩ := hfour
  rw [Nat.mul_div_cancel_left quarter (by decide)]
  unfold chunks
  by_cases hle : quarter ≤ remaining
  · rw [show 4 * remaining + 4 * quarter - 1
      = 4 * (remaining - quarter) + 4 * quarter - 1 + 4 * quarter by omega]
    exact Nat.add_div_right _ hsize
  · rw [show 4 * remaining + 4 * quarter - 1 = 4 * remaining - 1 + 4 * quarter by omega,
      Nat.add_div_right _ hsize, Nat.div_eq_of_lt (by omega),
      Nat.div_eq_of_lt (show 4 * (remaining - quarter) + 4 * quarter - 1 < 4 * quarter by omega)]

/-- The ranks at the ends of the chunks from an offset on. -/
def ranksFrom (data : Bytes) (chunkSize offset count : Nat) : List Nat :=
  (List.range count).map fun i => rank true data (8 * (offset + chunkSize * i))

theorem initIndexFrom_eq (hsize : 0 < chunkSize) (hfour : 4 ∣ chunkSize)
    (hfits : 8 * data.length < 2 ^ 31) : ∀ fuel offset remaining : Nat, remaining ≤ fuel →
    4 * remaining = data.length - offset →
    initIndexFrom data chunkSize fuel offset remaining (rank true data (8 * offset))
      = some (ranksFrom data chunkSize offset (chunks (4 * remaining) chunkSize + 1))
  | fuel, offset, 0, _, _ => by
    have hzero : chunks (4 * 0) chunkSize = 0 := Nat.div_eq_of_lt (by omega)
    unfold initIndexFrom
    rw [if_pos rfl, hzero]
    simp [ranksFrom]
  | 0, offset, remaining + 1, hfuel, _ => absurd hfuel (Nat.not_succ_le_zero _)
  | fuel + 1, offset, remaining + 1, hfuel, hrest => by
    have hquarter : 0 < chunkSize / 4 := Nat.div_pos (Nat.le_of_dvd hsize hfour) (by decide)
    have hchunk : chunkSize = 4 * (chunkSize / 4) := (Nat.mul_div_cancel' hfour).symm
    obtain ⟨bits, hbits, hsum⟩ := rank_add_count1Bits
      (show offset + 4 * min (chunkSize / 4) (remaining + 1) ≤ data.length by omega) hfits
    -- the last chunk may be cut short by the end of the data
    have hnext :
        rank true data (8 * offset) + bits = rank true data (8 * (offset + chunkSize)) := by
      rw [hsum]
      by_cases hle : chunkSize / 4 ≤ remaining + 1
      · rw [Nat.min_eq_left hle]
        congr 1
        omega
      · rw [Nat.min_eq_right (by omega), rank_of_le (by omega), rank_of_le (by omega)]
    have hlt : rank true data (8 * (offset + chunkSize)) < 2 ^ 31 :=
      Nat.lt_of_le_of_lt (rank_le _ _ _) hfits
    have ih := initIndexFrom_eq hsize hfour hfits fuel (offset + chunkSize)
      (remaining + 1 - chunkSize / 4) (by omega) (by omega)
    rw [initIndexFrom, if_neg (Nat.succ_ne_zero _), hbits, Option.bind_eq_bind, Option.bind_some,
      hnext, int_eq_some hlt, Option.bind_eq_bind,
      Option.bind_some, ih, chunks_succ hsize hfour (Nat.succ_ne_zero _)]
    refine congrArg some ?_
    rw [ranksFrom, ranksFrom, List.range_succ_eq_map (n := chunks _ _ + 1), List.map_cons,
      List.map_map]
    refine congrArg₂ List.cons (by rw [Nat.mul_zero, Nat.add_zero]) (List.map_congr_left ?_)
    intro i _
    rw [Function.comp, Nat.mul_succ, Nat.add_assoc, Nat.add_comm (chunkSize * i)]

theorem le_mul_chunks (hsize : 0 < chunkSize) (length : Nat) :
    length ≤ chunkSize * chunks length chunkSize := by
  have hdiv := Nat.div_add_mod (length + chunkSize - 1) chunkSize
  have hmod := Nat.mod_lt (length + chunkSize - 1) hsize
  rw [chunks]
  omega

theorem mul_lt_of_lt_chunks {length i : Nat} (h : i < chunks length chunkSize) :
    chunkSize * i < length := by
  by_cases hsize : chunkSize = 0
  · rw [hsize, chunks, Nat.div_zero] at h
    exact absurd h (Nat.not_lt_zero _)
  · have hmul := (Nat.le_div_iff_mul_le (Nat.pos_of_ne_zero hsize)).mp h
    rw [Nat.succ_mul, Nat.mul_comm] at hmul
    omega

theorem getElem?_ranksFrom {i count : Nat} (h : i < count) :
    (ranksFrom data chunkSize 0 count)[i]? = some (rank true data (8 * (chunkSize * i))) := by
  simp [ranksFrom, List.getElem?_map, List.getElem?_range h]

@[simp] theorem length_ranksFrom (data : Bytes) (chunkSize offset count : Nat) :
    (ranksFrom data chunkSize offset count).length = count := by
  simp [ranksFrom]

/-- The bits of the chunks fit in an `int`. -/
def Fits (data : Bytes) (chunkSize : Nat) : Prop :=
  8 * (chunkSize * max 1 (chunks data.length chunkSize)) < 2 ^ 31

instance (data : Bytes) (chunkSize : Nat) : Decidable (Fits data chunkSize) :=
  inferInstanceAs (Decidable (_ < _))

theorem Fits.mul_le (h : Fits data chunkSize) {i : Nat}
    (hi : i ≤ max 1 (chunks data.length chunkSize)) : 8 * (chunkSize * i) < 2 ^ 31 :=
  Nat.lt_of_le_of_lt (Nat.mul_le_mul_left 8 (Nat.mul_le_mul_left chunkSize hi)) h

theorem Fits.length_lt (h : Fits data chunkSize) (hsize : 0 < chunkSize) :
    8 * data.length < 2 ^ 31 := by
  have hlt := h.mul_le (Nat.le_max_right _ _)
  have hle := le_mul_chunks hsize data.length
  omega

/-- **The index has the rank at each end of a chunk.** -/
theorem initIndex_eq (hsize : 0 < chunkSize) (hfour : 4 ∣ chunkSize) (hlength : 4 ∣ data.length)
    (hfits : Fits data chunkSize) : initIndex data data.length chunkSize
      = some (ranksFrom data chunkSize 0 (chunks data.length chunkSize + 1)) := by
  have hone := hfits.mul_le (Nat.le_max_left _ _)
  have hlt := hfits.length_lt hsize
  have hwords : 4 * (data.length / 4) = data.length := Nat.mul_div_cancel' hlength
  have hindex := initIndexFrom_eq hsize hfour hlt (data.length / 4) 0 (data.length / 4)
    (Nat.le_refl _) (by omega)
  rw [hwords, Nat.mul_zero, show rank true data 0 = 0 by simp [rank]] at hindex
  rw [initIndex, int_eq_some (by omega), Option.bind_eq_bind, Option.bind_some, hindex,
    Option.bind_eq_bind, Option.bind_some, length_ranksFrom]
  exact if_pos rfl

/-! ## Ranks -/

/-- The index of some data that fits. -/
structure Indexed (v : SimpleSuccinctBitVectorIndex) : Prop where
  size_pos : 0 < v.chunkSize
  four_size : 4 ∣ v.chunkSize
  four_length : 4 ∣ v.data.length
  length_eq : v.length = v.data.length
  fits : Fits v.data v.chunkSize
  index_eq : v.index = ranksFrom v.data v.chunkSize 0 (chunks v.data.length v.chunkSize + 1)

variable {v : SimpleSuccinctBitVectorIndex}

theorem Indexed.getElem? (hv : v.Indexed) {i : Nat} (h : i ≤ chunks v.data.length v.chunkSize) :
    v.index[i]? = some (rank true v.data (8 * (v.chunkSize * i))) := by
  rw [hv.index_eq, getElem?_ranksFrom (by omega)]

/-- Shifted to the top, only the lowest bits of the word are left. -/
theorem popcount_shift {r : Nat} (h : r ≤ 32) (w : Nat) :
    popcount 32 (w <<< (32 - r) % 2 ^ 32) = (List.range r).countP fun i => w.testBit i := by
  rw [popcount, show List.range 32 = List.range (32 - r + r) by rw [Nat.sub_add_cancel h],
    List.range_add, List.countP_append, List.countP_map]
  have hlow : (List.range (32 - r)).countP (fun i => (w <<< (32 - r) % 2 ^ 32).testBit i) = 0 := by
    refine List.countP_eq_zero.mpr fun i hi => ?_
    rw [Nat.testBit_mod_two_pow, Nat.testBit_shiftLeft]
    have hi := List.mem_range.mp hi
    simp [show ¬ 32 - r ≤ i by omega]
  rw [hlow, Nat.zero_add]
  refine List.countP_congr fun i hi => ?_
  have hi := List.mem_range.mp hi
  rw [Function.comp, Nat.testBit_mod_two_pow, Nat.testBit_shiftLeft,
    decide_eq_true (show 32 - r + i < 32 by omega), decide_eq_true (Nat.le_add_right _ _),
    Nat.add_sub_cancel_left]
  simp

theorem popcount_shift_part (data : Bytes) (offset : Nat) {r : Nat} (hr : r ≤ 32) :
    rank true data (8 * offset)
      + popcount 32 (leNat ((data.drop offset).take 4) <<< (32 - r) % 2 ^ 32)
      = rank true data (8 * offset + r) := by
  have hpart : (bitsOf ((data.drop offset).take 4)).take r
      = ((bitsOf data).drop (8 * offset)).take r := by
    rw [bitsOf_part, List.take_take, Nat.min_eq_left hr]
  rw [popcount_shift hr, rank, rank, count_take_add, ← hpart,
    ← countP_range_getD (bitsOf ((data.drop offset).take 4))]
  refine congrArg _ (List.countP_congr fun i _ => ?_)
  rw [testBit_leNat]

/-- **The rank of every position is exact.** -/
theorem rank1_eq (hv : v.Indexed) {n : Nat} (h : n ≤ 8 * v.data.length) :
    v.rank1 n = some (rank true v.data n) := by
  have hone := hv.fits.mul_le (Nat.le_max_left _ _)
  have hlt := hv.fits.length_lt hv.size_pos
  have hcover := le_mul_chunks hv.size_pos v.data.length
  have hbits : 0 < v.chunkSize * 8 := Nat.mul_pos hv.size_pos (by decide)
  have hquarter : v.chunkSize = 4 * (v.chunkSize / 4) := (Nat.mul_div_cancel' hv.four_size).symm
  have hchunk : n / (v.chunkSize * 8) ≤ chunks v.data.length v.chunkSize := by
    refine Nat.div_le_of_le_mul ?_
    rw [Nat.mul_right_comm]
    omega
  have hfits := hv.fits.mul_le (Nat.le_trans hchunk (Nat.le_max_right _ _))
  have hstart := Nat.div_mul_le_self n (v.chunkSize * 8)
  have hget := hv.getElem? hchunk
  rw [rank1, int_eq_some (by omega), Option.bind_eq_bind, Option.bind_some,
    if_neg (Nat.ne_of_gt hbits)]
  dsimp only
  generalize n / (v.chunkSize * 8) = chunk at hchunk hfits hstart hget ⊢
  have hwords : v.chunkSize * chunk = 4 * (chunk * (v.chunkSize / 4)) := by
    calc v.chunkSize * chunk = 4 * (v.chunkSize / 4) * chunk := by rw [← hquarter]
      _ = 4 * (chunk * (v.chunkSize / 4)) := by rw [Nat.mul_assoc, Nat.mul_comm chunk]
  rw [← Nat.mul_assoc, Nat.mul_comm chunk] at hstart
  obtain ⟨bits, hcount, hsum⟩ := rank_add_count1Bits
    (show v.chunkSize * chunk + 4 * (n / 32 - chunk * (v.chunkSize / 4)) ≤ v.data.length by
      have hlength := Nat.mul_div_cancel' hv.four_length
      omega) hlt
  rw [show 8 * (v.chunkSize * chunk) + 32 * (n / 32 - chunk * (v.chunkSize / 4))
    = 8 * (4 * (n / 32)) by omega] at hsum
  rw [hget, Option.bind_some, Nat.mul_comm chunk v.chunkSize, int_eq_some (by omega),
    Option.bind_some, hcount, Option.bind_some]
  have hrank := rank_le true v.data n
  split
  · have hload : 4 * (n / 32) + 4 ≤ v.data.length := by
      have hlength := Nat.mul_div_cancel' hv.four_length
      omega
    have hword := popcount_shift_part v.data (4 * (n / 32)) (show n % 32 ≤ 32 by omega)
    rw [show 8 * (4 * (n / 32)) + n % 32 = n by omega] at hword
    rw [loadUnaligned_eq hload, Option.bind_some, hsum, hword]
    exact int_eq_some (by omega)
  · rw [hsum, show 8 * (4 * (n / 32)) = n by omega]
    exact int_eq_some (by omega)

end SimpleSuccinctBitVectorIndex

end Mozkey.Storage.Louds
