import Mozkey.Storage.SuccinctIndex

/-!
# Selects by the index

A bit is searched for among the chunks, among the words of one chunk and among the bits of one
word. The search among the chunks is narrowed by a cache of positions that earlier searches gave,
and finds the same position whatever the size of the cache (`exists_narrowed`).
-/

namespace Mozkey.Storage.Louds.SimpleSuccinctBitVectorIndex

open Infra

variable {data : Bytes} {chunkSize : Nat} {b : Bool}

/-! ## The words and the bits -/

/-- The function of a word that marks the bits that are `b`. -/
def Marking (b : Bool) (word : Nat → Nat) : Prop :=
  ∀ bs : Bytes, bs.length = 4 → Marks b (word (leNat bs)) (bitsOf bs)

theorem marking_true : Marking true id := fun bs _ => marks_true bs

theorem marking_false : Marking false fun word => 2 ^ 32 - 1 - word := fun bs h => by
  have hmarks := marks_false bs
  simpa [h] using hmarks

variable {word : Nat → Nat}

theorem Marking.popcount (hword : Marking b word) {ptr : Nat} (h : ptr + 4 ≤ data.length) :
    rank b data (8 * ptr) + popcount 32 (word (leNat ((data.drop ptr).take 4)))
      = rank b data (8 * (ptr + 4)) := by
  have hlength := length_part h
  have hmarks := (hword _ hlength).popcount
  rw [length_bitsOf, hlength, bitsOf_part] at hmarks
  rw [rank, rank, Nat.mul_add, count_take_add, ← hmarks]
  rfl

/-- **The search among the words ends within the data, at the word that has the bit.** -/
theorem exists_selectWord (hword : Marking b word) (hfour : 4 ∣ data.length) :
    ∀ fuel ptr n : Nat, data.length < ptr + fuel → 4 ∣ ptr → 0 < n →
    rank b data (8 * ptr) + n ≤ (bitsOf data).count b →
    ∃ ptr' n', selectWord data word fuel ptr n = some (ptr', n') ∧ ptr' + 4 ≤ data.length ∧
      0 < n' ∧ n' ≤ ((bitsOf data).drop (8 * ptr') |>.take (8 * 4)).count b ∧
      rank b data (8 * ptr') + n' = rank b data (8 * ptr) + n
  | 0, ptr, n, hfuel, _, hpos, hle => by
    rw [rank_of_le (by omega)] at hle
    omega
  | fuel + 1, ptr, n, hfuel, hptr, hpos, hle => by
    have hinside : ptr + 4 ≤ data.length := by
      by_contra hge
      rw [rank_of_le (by omega)] at hle
      omega
    have hsum := hword.popcount hinside
    rw [selectWord, loadUnaligned_eq hinside, Option.bind_eq_bind, Option.bind_some]
    dsimp only
    split
    · next hlast =>
      have hpart := count_take_add b (bitsOf data) (8 * ptr) (8 * 4)
      rw [← Nat.mul_add] at hpart
      rw [rank, rank] at hsum
      exact ⟨ptr, n, rfl, hinside, hpos, by omega, rfl⟩
    · next hnext =>
      obtain ⟨ptr', n', hselect, hend, hpos', hle', heq⟩ := exists_selectWord hword hfour
        fuel (ptr + 4) (n - popcount 32 (word (leNat ((data.drop ptr).take 4)))) (by omega)
        (by omega) (by omega) (by omega)
      exact ⟨ptr', n', hselect, hend, hpos', hle', by omega⟩

@[simp] theorem selectBit_zero (fuel word : Nat) : selectBit fuel word 0 = some 0 := by
  cases fuel <;> rfl

/-- The search among the bits of a word stops behind the bit. -/
theorem exists_selectBit : ∀ {bits : List Bool} {fuel word n : Nat}, Marks b word bits →
    bits.length ≤ fuel → 0 < n → n ≤ bits.count b →
    ∃ q, selectBit fuel word n = some (q + 1) ∧ IsSelect b bits n q
  | [], fuel, word, n, _, _, hpos, hle => by
    simp at hle
    omega
  | first :: bits, 0, word, n, _, hfuel, _, _ => absurd hfuel (Nat.not_succ_le_zero _)
  | first :: bits, fuel + 1, word, 0, _, _, hpos, _ => absurd hpos (Nat.lt_irrefl 0)
  | first :: bits, fuel + 1, word, n + 1, hmarks, hfuel, _, hle => by
    obtain ⟨hbit, htail⟩ := hmarks.tail
    rw [List.count_cons] at hle
    rw [List.length_cons] at hfuel
    rw [selectBit, hbit]
    by_cases heq : first = b
    · rw [if_pos heq, Nat.add_sub_cancel]
      rw [if_pos (beq_iff_eq.mpr heq)] at hle
      by_cases hlast : n = 0
      · exact ⟨0, by rw [hlast, selectBit_zero, Option.map_some], by simp [IsSelect, heq, hlast]⟩
      · obtain ⟨q, hq, hselect⟩ := exists_selectBit htail (show bits.length ≤ fuel by omega)
          (Nat.pos_of_ne_zero hlast) (by omega)
        refine ⟨q + 1, by rw [hq, Option.map_some], hselect.1, ?_⟩
        rw [List.take_succ_cons, List.count_cons, if_pos (beq_iff_eq.mpr heq), hselect.2]
    · rw [if_neg heq, Nat.sub_zero]
      rw [if_neg (by simpa using heq)] at hle
      obtain ⟨q, hq, hselect⟩ := exists_selectBit htail (show bits.length ≤ fuel by omega)
        (Nat.succ_pos n) (by omega)
      refine ⟨q + 1, by rw [hq, Option.map_some], hselect.1, ?_⟩
      rw [List.take_succ_cons, List.count_cons, if_neg (by simpa using heq), Nat.add_zero]
      exact hselect.2

/-! ## The chunks -/

theorem exists_mapM {α β : Type} {f : α → Option β} {P : α → β → Prop} : ∀ {l : List α},
    (∀ a ∈ l, ∃ r, f a = some r ∧ P a r) → ∃ rs, l.mapM f = some rs ∧ List.Forall₂ P l rs
  | [], _ => ⟨[], by rw [List.mapM_nil]; rfl, .nil⟩
  | a :: l, h => by
    obtain ⟨r, hr, hP⟩ := h a List.mem_cons_self
    obtain ⟨rs, hrs, hPs⟩ := exists_mapM fun x hx => h x (List.mem_cons_of_mem a hx)
    exact ⟨r :: rs, by rw [List.mapM_cons, hr, hrs]; rfl, .cons hP hPs⟩

variable {values : Nat → Option Int} {g : Nat → Int} {indexSize increment size n : Nat}
  {cache : List Nat}

/-- The cache has the lower bounds of the multiples of the increment. -/
structure Cached (g : Nat → Int) (indexSize increment size : Nat) (cache : List Nat) : Prop where
  length_eq : cache.length = size + 2
  first : cache[0]? = some 0
  last : cache[size + 1]? = some indexSize
  inner : ∀ i, 0 < i → i ≤ size → ∃ r, cache[i]? = some r ∧
    IsLowerBound g (toInt32 (increment * i : Nat)) 0 indexSize r

theorem exists_initLowerBoundCache (hvalues : ∀ i < indexSize, values i = some (g i))
    (hmono : ∀ i j, i ≤ j → j < indexSize → g i ≤ g j) (increment size : Nat) :
    ∃ cache, initLowerBoundCache values indexSize increment size = some cache ∧
      Cached g indexSize increment size cache := by
  obtain ⟨bounds, hbounds, hall⟩ := exists_mapM
    (f := fun i => lowerBound values (toInt32 (increment * (i + 1) : Nat)) 0 indexSize)
    (P := fun i r => IsLowerBound g (toInt32 (increment * (i + 1) : Nat)) 0 indexSize r)
    (l := List.range size) fun i _ => by
      have hspec := lowerBound_spec (toInt32 (increment * (i + 1) : Nat)) 0 indexSize
        (fun j _ hj => hvalues j (by omega))
        fun j k _ hjk hk => hmono j k hjk (by omega)
      simpa using hspec
  have hlength := hall.length_eq
  rw [List.length_range] at hlength
  refine ⟨0 :: bounds ++ [indexSize], ?_, ?_, rfl, ?_, fun i hpos hle => ?_⟩
  · rw [initLowerBoundCache, hbounds]
    rfl
  · simp [hlength]
  · simp [hlength]
  · obtain ⟨j, rfl⟩ := Nat.exists_eq_add_one_of_ne_zero (Nat.ne_of_gt hpos)
    rw [List.cons_append, List.getElem?_cons_succ, List.getElem?_append_left (by omega)]
    have hget := hall.get (by rw [List.length_range]; omega) (show j < bounds.length by omega)
    rw [List.get_eq_getElem, List.getElem_range] at hget
    exact ⟨bounds[j], List.getElem?_eq_getElem _, hget⟩

theorem cacheIncrement_pos (numBits size : Nat) : 0 < cacheIncrement numBits size := by
  unfold cacheIncrement
  dsimp only
  generalize (if size = 0 then numBits else numBits / size) = increment
  split
  · exact Nat.one_pos
  · next hzero => exact Nat.pos_of_ne_zero hzero

/-- The multiples of the increment that the cache has are numbers of bits. -/
theorem cacheIncrement_mul_le {numBits size i : Nat} (hsize : i ≤ size)
    (hnext : cacheIncrement numBits size * i ≤ numBits + cacheIncrement numBits size) :
    cacheIncrement numBits size * i ≤ numBits + 1 := by
  unfold cacheIncrement at hnext ⊢
  by_cases hzero : size = 0
  · rw [hzero] at hsize
    simp [Nat.le_zero.mp hsize]
  · rw [if_neg hzero] at hnext ⊢
    by_cases hdiv : numBits / size = 0
    · rw [if_pos hdiv] at hnext ⊢
      exact hnext
    · rw [if_neg hdiv]
      calc numBits / size * i ≤ numBits / size * size := Nat.mul_le_mul_left _ hsize
        _ ≤ numBits := Nat.div_mul_le_self _ _
        _ ≤ numBits + 1 := Nat.le_succ _

/-- What the search in the range that the cache gives needs. -/
structure Narrowing (g : Nat → Int) (indexSize numBits size : Nat) (cache : List Nat) : Prop where
  cached : Cached g indexSize (cacheIncrement numBits size) size cache
  fits : numBits + 1 < 2 ^ 31

/-- **The search in the range that the cache gives finds the lower bound of the whole.** -/
theorem exists_narrowed {numBits r : Nat} (hcache : Narrowing g indexSize numBits size cache)
    (hvalues : ∀ i < indexSize, values i = some (g i))
    (hmono : ∀ i j, i ≤ j → j < indexSize → g i ≤ g j) (hn : n ≤ numBits)
    (hr : IsLowerBound g n 0 indexSize r) :
    ∃ lower upper, cache[min (n / cacheIncrement numBits size) (cache.length - 2)]? = some lower ∧
      cache[min (n / cacheIncrement numBits size) (cache.length - 2) + 1]? = some upper ∧
      lower ≤ upper ∧ lowerBound values n lower (upper - lower) = some r := by
  obtain ⟨hcached, hfits⟩ := hcache
  have hbelow := Nat.div_mul_le_self n (cacheIncrement numBits size)
  have habove := Nat.lt_mul_div_succ n (cacheIncrement_pos numBits size)
  have hend := hr.le_stop
  rw [hcached.length_eq, Nat.add_sub_cancel]
  have hlower : ∃ lower, cache[min (n / cacheIncrement numBits size) size]? = some lower ∧
      lower ≤ r := by
    by_cases hzero : min (n / cacheIncrement numBits size) size = 0
    · exact ⟨0, by rw [hzero, hcached.first], Nat.zero_le r⟩
    · obtain ⟨lower, hget, hbound⟩ := hcached.inner _ (Nat.pos_of_ne_zero hzero)
        (Nat.min_le_right _ _)
      have hle : cacheIncrement numBits size * min (n / cacheIncrement numBits size) size ≤ n :=
        Nat.le_trans (Nat.mul_le_mul_left _ (Nat.min_le_left _ _))
          (by rw [Nat.mul_comm]; exact hbelow)
      rw [toInt32_of_range (by omega) (by unfold int32Max; omega)] at hbound
      exact ⟨lower, hget, hbound.mono hr (by omega)⟩
  have hupper : ∃ upper, cache[min (n / cacheIncrement numBits size) size + 1]? = some upper ∧
      r ≤ upper ∧ upper ≤ indexSize := by
    by_cases hlast : size ≤ n / cacheIncrement numBits size
    · rw [Nat.min_eq_right hlast]
      exact ⟨indexSize, hcached.last, hend, Nat.le_refl _⟩
    · rw [Nat.min_eq_left (by omega)]
      obtain ⟨upper, hget, hbound⟩ := hcached.inner (n / cacheIncrement numBits size + 1)
        (Nat.succ_pos _) (by omega)
      have hle := cacheIncrement_mul_le
        (show n / cacheIncrement numBits size + 1 ≤ size by omega)
        (show cacheIncrement numBits size * _ ≤ numBits + cacheIncrement numBits size by
          rw [Nat.mul_succ, Nat.mul_comm]
          omega)
      rw [toInt32_of_range (by omega) (by unfold int32Max; omega)] at hbound
      exact ⟨upper, hget, hr.mono hbound (by omega), hbound.le_stop⟩
  obtain ⟨lower, hlower, hlo⟩ := hlower
  obtain ⟨upper, hupper, hhi, hstop⟩ := hupper
  have hle : lower ≤ upper := Nat.le_trans hlo hhi
  obtain ⟨r', hr', hbound⟩ := lowerBound_spec (n : Int) lower (upper - lower)
    (fun i _ hi => hvalues i (by omega))
    fun i j _ hij hj => hmono i j hij (by omega)
  rw [Nat.add_sub_cancel' hle] at hbound
  obtain rfl := hr.part hbound (Nat.zero_le _) hstop hlo hhi
  exact ⟨lower, upper, hlower, hupper, hle, hr'⟩

/-- What a select searches: numbers of bits before the chunks that do not decrease. -/
structure Searched (v : SimpleSuccinctBitVectorIndex) (b : Bool) (values : Nat → Option Int)
    (before : Nat → Option Nat) (g : Nat → Int) : Prop where
  values_eq : ∀ i < chunks v.data.length v.chunkSize + 1, values i = some (g i)
  mono : ∀ i j, i ≤ j → j < chunks v.data.length v.chunkSize + 1 → g i ≤ g j
  zero : g 0 = 0
  total : ((bitsOf v.data).count b : Int) ≤ g (chunks v.data.length v.chunkSize)
  before_eq : ∀ i < chunks v.data.length v.chunkSize,
    before i = some (rank b v.data (8 * (v.chunkSize * i)))
  at_chunk : ∀ i < chunks v.data.length v.chunkSize,
    g i = rank b v.data (8 * (v.chunkSize * i))

variable {v : SimpleSuccinctBitVectorIndex} {before : Nat → Option Nat}

/-- **The bit with each number is found.** -/
theorem exists_select {numBits : Nat} (hv : v.Indexed) (hword : Marking b word)
    (hsearch : v.Searched b values before g)
    (hcache : Narrowing g (chunks v.data.length v.chunkSize + 1) numBits size cache)
    (hbits : (bitsOf v.data).count b = numBits) (hpos : 0 < n) (hle : n ≤ numBits) :
    ∃ p, v.select values before word cache (cacheIncrement numBits size) n = some p ∧
      IsSelect b (bitsOf v.data) n p := by
  have htotal := hsearch.total
  have hzero := hsearch.zero
  obtain ⟨r, -, hr⟩ := lowerBound_spec (n : Int) 0 (chunks v.data.length v.chunkSize + 1)
    (fun i _ hi => hsearch.values_eq i (by omega)) fun i j _ hij hj =>
      hsearch.mono i j hij (by omega)
  rw [Nat.zero_add] at hr
  obtain ⟨lower, upper, hlower, hupper, hrange, hfound⟩ := exists_narrowed hcache
    hsearch.values_eq hsearch.mono hle hr
  have hfirst : r ≠ 0 := fun h => by
    have habove := hr.above 0 (by omega) (by omega)
    omega
  have hlast : r ≤ chunks v.data.length v.chunkSize := by
    by_contra hge
    have hbelow := hr.below (chunks v.data.length v.chunkSize) (Nat.zero_le _) (by omega)
    omega
  have hbelow := hr.below (r - 1) (Nat.zero_le _) (by omega)
  rw [hsearch.at_chunk (r - 1) (by omega)] at hbelow
  have hoffset := mul_lt_of_lt_chunks (show r - 1 < chunks v.data.length v.chunkSize by omega)
  have hfits := hv.fits.length_lt hv.size_pos
  have hfour : 4 ∣ v.chunkSize * (r - 1) := Nat.dvd_trans hv.four_size (Nat.dvd_mul_right _ _)
  obtain ⟨ptr, rest, hselect, hend, hrest, hpart, hsum⟩ := exists_selectWord hword hv.four_length
    (v.data.length + 1) (v.chunkSize * (r - 1))
    (n - rank b v.data (8 * (v.chunkSize * (r - 1)))) (by omega) hfour (by omega) (by omega)
  have hlength := length_part hend
  have hmarks := hword _ hlength
  rw [bitsOf_part] at hmarks
  obtain ⟨q, hbit, hq⟩ := exists_selectBit hmarks
    (show _ ≤ 32 by rw [List.length_take]; omega) hrest hpart
  have hin := hq.drop
  rw [← rank, show rank b v.data (8 * ptr) + rest = n by omega] at hin
  refine ⟨8 * ptr + q, ?_, hin⟩
  have hbound : 8 * ptr + q < 8 * v.data.length := by
    have hlt := (List.getElem?_eq_some_iff.mp hin.1).choose
    rwa [length_bitsOf] at hlt
  rw [select]
  simp only [hlower, hupper, Option.bind_eq_bind, Option.bind_some, if_neg (Nat.not_lt.mpr hrange),
    hfound, if_neg hfirst, hsearch.before_eq (r - 1) (by omega), Nat.mul_comm (r - 1),
    int_eq_some (show v.chunkSize * (r - 1) < 2 ^ 31 by omega),
    Nat.mod_eq_zero_of_dvd hfour, Nat.sub_zero, hselect, loadUnaligned_eq hend, hbit,
    int_eq_some (show ptr * 8 + (q + 1) < 2 ^ 31 by omega)]
  exact congrArg some (by omega)

end Mozkey.Storage.Louds.SimpleSuccinctBitVectorIndex

/-!
## The answers of the index

The numbers of 1-bits and of 0-bits before the chunks do not decrease, also past the end of a last
chunk that the data does not fill. Both selects search them, and so the answers are exact
(`rank_select_exact`).

The exactness needs the bits of the chunks to fit in an `int`. The size of a chunk in bits is
computed for every rank, whatever the data is.
-/

namespace Mozkey.Storage.Louds.SimpleSuccinctBitVectorIndex

open Infra

variable {v : SimpleSuccinctBitVectorIndex}

theorem rank_mono (b : Bool) (data : Bytes) {m n : Nat} (h : m ≤ n) :
    rank b data m ≤ rank b data n := count_take_mono b (bitsOf data) h

theorem rank_true_le (data : Bytes) (n : Nat) : rank true data n ≤ n := by
  have hle := count_le_add true (bitsOf data) 0 n
  rw [Nat.zero_add, List.take_zero, List.count_nil, Nat.zero_add] at hle
  exact hle

theorem rank_true_add_false {data : Bytes} {n : Nat} (h : n ≤ 8 * data.length) :
    rank true data n + rank false data n = n := by
  simp [rank, length_bitsOf, Nat.min_eq_left h]

theorem Indexed.rank_all (hv : v.Indexed) (b : Bool) :
    rank b v.data (8 * (v.chunkSize * chunks v.data.length v.chunkSize))
      = (bitsOf v.data).count b :=
  rank_of_le (Nat.mul_le_mul_left 8 (le_mul_chunks hv.size_pos _))

/-- The 1-bits before a chunk. -/
theorem searched_ones (hv : v.Indexed) :
    v.Searched true (oneBitIndex v.index) (fun chunkIndex => v.index[chunkIndex]?)
      fun i => rank true v.data (8 * (v.chunkSize * i)) where
  values_eq i hi := by
    rw [oneBitIndex, hv.getElem? (by omega), Option.map_some]
  mono i j hij _ := by
    have hle := rank_mono true v.data (Nat.mul_le_mul_left 8 (Nat.mul_le_mul_left v.chunkSize hij))
    exact Int.ofNat_le.mpr hle
  zero := by simp [rank]
  total := by rw [hv.rank_all true]
  before_eq i hi := hv.getElem? (Nat.le_of_lt hi)
  at_chunk i _ := rfl

/-- The 0-bits before a chunk, if there were as many bits as in full chunks. -/
theorem searched_zeros (hv : v.Indexed) :
    v.Searched false (zeroBitIndex v.index v.chunkSize) v.zerosBefore
      fun i => (8 * (v.chunkSize * i) : Nat) - rank true v.data (8 * (v.chunkSize * i)) where
  values_eq i hi := by
    have hone := hv.fits.mul_le (Nat.le_max_left _ _)
    have hfits := hv.fits.mul_le (i := i) (Nat.le_trans (by omega) (Nat.le_max_right _ _))
    have hle := rank_true_le v.data (8 * (v.chunkSize * i))
    have hbits : (v.chunkSize * 8 : Nat) * (i : Int) = (8 * (v.chunkSize * i) : Nat) := by
      rw [← Nat.cast_mul, Nat.mul_comm v.chunkSize, Nat.mul_assoc]
    rw [zeroBitIndex, int_eq_some (by omega), Option.bind_eq_bind, Option.bind_some,
      hv.getElem? (by omega), Option.bind_some, hbits]
    exact congrArg some (toInt32_of_range (by omega) (by unfold int32Max; omega))
  mono i j hij _ := by
    obtain ⟨d, hd⟩ := Nat.exists_eq_add_of_le
      (Nat.mul_le_mul_left 8 (Nat.mul_le_mul_left v.chunkSize hij))
    have hle := count_le_add true (bitsOf v.data) (8 * (v.chunkSize * i)) d
    rw [← hd, ← rank, ← rank] at hle
    omega
  zero := by simp [rank]
  total := by
    have hcover := le_mul_chunks hv.size_pos v.data.length
    have hsum := List.count_true_add_count_false (bitsOf v.data)
    rw [length_bitsOf] at hsum
    rw [hv.rank_all true]
    omega
  before_eq i hi := by
    have hone := hv.fits.mul_le (Nat.le_max_left _ _)
    have hfits := hv.fits.mul_le (i := i) (Nat.le_trans (by omega) (Nat.le_max_right _ _))
    have hinside := mul_lt_of_lt_chunks hi
    have hsum := rank_true_add_false
      (show 8 * (v.chunkSize * i) ≤ 8 * v.data.length by omega)
    have hbits : v.chunkSize * 8 * i = 8 * (v.chunkSize * i) := by
      rw [Nat.mul_comm v.chunkSize, Nat.mul_assoc]
    rw [zerosBefore, int_eq_some (by omega), Option.bind_eq_bind, Option.bind_some, hbits,
      int_eq_some hfits, Option.bind_some, hv.getElem? (by omega)]
    exact congrArg some (by omega)
  at_chunk i hi := by
    have hinside := mul_lt_of_lt_chunks hi
    have hsum := rank_true_add_false
      (show 8 * (v.chunkSize * i) ≤ 8 * v.data.length by omega)
    omega

/-! ## All answers -/

/-- The answers are the ranks and the selects of the bits. -/
structure Exact (v : SimpleSuccinctBitVectorIndex) (bits : List Bool) : Prop where
  num1Bits : v.getNum1Bits = some (bits.count true)
  num0Bits : v.getNum0Bits = some (bits.count false)
  rank1 : ∀ n ≤ bits.length, v.rank1 n = some ((bits.take n).count true)
  select1 : ∀ k, 0 < k → k ≤ bits.count true → ∃ p, v.select1 k = some p ∧ IsSelect true bits k p
  select0 : ∀ k, 0 < k → k ≤ bits.count false →
    ∃ p, v.select0 k = some p ∧ IsSelect false bits k p

variable {data : Bytes} {chunkSize : Nat}

/-- The index is built from data that fits, and its answers are exact. -/
theorem exists_init (hsize : 0 < chunkSize) (hfour : 4 ∣ chunkSize) (hlength : 4 ∣ data.length)
    (hfits : Fits data chunkSize) (lb0CacheSize lb1CacheSize : Nat) :
    ∃ v, init data data.length chunkSize lb0CacheSize lb1CacheSize = some v ∧ v.data = data ∧
      v.length = data.length ∧ v.Exact (bitsOf data) := by
  have hlt := hfits.length_lt hsize
  have hsum := List.count_true_add_count_false (bitsOf data)
  rw [length_bitsOf] at hsum
  have hindex := initIndex_eq hsize hfour hlength hfits
  have hlast : (ranksFrom data chunkSize 0 (chunks data.length chunkSize + 1)).getLast?
      = some ((bitsOf data).count true) := by
    rw [List.getLast?_eq_getElem?, length_ranksFrom, Nat.add_sub_cancel,
      getElem?_ranksFrom (Nat.lt_succ_self _),
      rank_of_le (Nat.mul_le_mul_left 8 (le_mul_chunks hsize _))]
  have hindexed : ∀ cache0 cache1 increment0 increment1, Indexed ⟨data, data.length, chunkSize,
      ranksFrom data chunkSize 0 (chunks data.length chunkSize + 1), increment0, cache0,
      increment1, cache1⟩ := fun _ _ _ _ => ⟨hsize, hfour, hlength, rfl, hfits, rfl⟩
  have hzeros : 8 * data.length - (bitsOf data).count true = (bitsOf data).count false := by omega
  obtain ⟨cache0, hcache0, hcached0⟩ := exists_initLowerBoundCache
    (searched_zeros (hindexed [] [] 0 0)).values_eq (searched_zeros (hindexed [] [] 0 0)).mono
    (cacheIncrement ((bitsOf data).count false) lb0CacheSize) lb0CacheSize
  obtain ⟨cache1, hcache1, hcached1⟩ := exists_initLowerBoundCache
    (searched_ones (hindexed [] [] 0 0)).values_eq (searched_ones (hindexed [] [] 0 0)).mono
    (cacheIncrement ((bitsOf data).count true) lb1CacheSize) lb1CacheSize
  dsimp only at hcache0 hcache1
  have hv := hindexed cache0 cache1 (cacheIncrement ((bitsOf data).count false) lb0CacheSize)
    (cacheIncrement ((bitsOf data).count true) lb1CacheSize)
  refine ⟨⟨data, data.length, chunkSize,
    ranksFrom data chunkSize 0 (chunks data.length chunkSize + 1),
    cacheIncrement ((bitsOf data).count false) lb0CacheSize, cache0,
    cacheIncrement ((bitsOf data).count true) lb1CacheSize, cache1⟩, ?_, rfl, rfl,
    ⟨hlast, ?_, fun n hn => ?_, fun k hpos hk => ?_, fun k hpos hk => ?_⟩⟩
  · simp only [init, hindex, hlast, int_eq_some hlt, hzeros, length_ranksFrom, hcache0, hcache1,
      Option.bind_eq_bind, Option.bind_some]
    rfl
  · simpa [getNum0Bits, int_eq_some hlt, hlast] using congrArg some hzeros
  · rw [length_bitsOf] at hn
    exact rank1_eq hv hn
  · exact exists_select hv marking_true (searched_ones hv) ⟨hcached1, by omega⟩ rfl hpos hk
  · exact exists_select hv marking_false (searched_zeros hv) ⟨hcached0, by omega⟩ rfl
      hpos hk

theorem Exact.same_answers {v v' : SimpleSuccinctBitVectorIndex} {bits : List Bool}
    (h : v.Exact bits) (h' : v'.Exact bits) :
    (∀ n ≤ bits.length, v'.rank1 n = v.rank1 n) ∧
      (∀ k, 0 < k → k ≤ bits.count true → v'.select1 k = v.select1 k) ∧
      ∀ k, 0 < k → k ≤ bits.count false → v'.select0 k = v.select0 k := by
  refine ⟨fun n hn => (h'.rank1 n hn).trans (h.rank1 n hn).symm, fun k hpos hk => ?_,
    fun k hpos hk => ?_⟩
  · obtain ⟨p, hp, hselect⟩ := h.select1 k hpos hk
    obtain ⟨p', hp', hselect'⟩ := h'.select1 k hpos hk
    rw [hp, hp', hselect.unique hselect']
  · obtain ⟨p, hp, hselect⟩ := h.select0 k hpos hk
    obtain ⟨p', hp', hselect'⟩ := h'.select0 k hpos hk
    rw [hp, hp', hselect.unique hselect']

/-- **Ranks and selects are exact, whatever the sizes of the caches, when the bits of the chunks
fit in an `int`.** -/
theorem rank_select_exact (data : Bytes) (k lb0CacheSize lb1CacheSize : Nat) (hk : 2 ≤ k)
    (hlength : 4 ∣ data.length) (hfits : Fits data (2 ^ k)) :
    ∃ v, init data data.length (2 ^ k) lb0CacheSize lb1CacheSize = some v ∧
      v.Exact (bitsOf data) ∧
      ∀ lb0CacheSize' lb1CacheSize', ∃ v',
        init data data.length (2 ^ k) lb0CacheSize' lb1CacheSize' = some v' ∧
        (∀ n ≤ 8 * data.length, v'.rank1 n = v.rank1 n) ∧
        (∀ i, 0 < i → i ≤ (bitsOf data).count true → v'.select1 i = v.select1 i) ∧
        ∀ i, 0 < i → i ≤ (bitsOf data).count false → v'.select0 i = v.select0 i := by
  have hsize : 0 < 2 ^ k := Nat.pow_pos (by decide)
  have hfour : 4 ∣ 2 ^ k := Nat.pow_dvd_pow 2 hk
  obtain ⟨v, hv, -, -, hexact⟩ := exists_init hsize hfour hlength hfits lb0CacheSize lb1CacheSize
  refine ⟨v, hv, hexact, fun lb0CacheSize' lb1CacheSize' => ?_⟩
  obtain ⟨v', hv', -, -, hexact'⟩ :=
    exists_init hsize hfour hlength hfits lb0CacheSize' lb1CacheSize'
  rw [← length_bitsOf]
  exact ⟨v', hv', hexact.same_answers hexact'⟩

theorem rank_select_exact_words :
    ∃ v, init [0x0F, 0, 1, 0x80, 0xFF, 0, 0, 0] 8 (2 ^ 2) 1 3 = some v ∧
      v.Exact (bitsOf [0x0F, 0, 1, 0x80, 0xFF, 0, 0, 0]) := by
  obtain ⟨v, hv, hexact, -⟩ := rank_select_exact [0x0F, 0, 1, 0x80, 0xFF, 0, 0, 0] 2 1 3 (by decide)
    (by decide) (by decide)
  exact ⟨v, hv, hexact⟩

/-- The bits of one chunk are too many for an `int`, so that no rank has a value. -/
theorem rank1_of_large_chunk :
    ¬ ∃ v, init [0, 0, 0, 0] 4 (2 ^ 29) 0 0 = some v ∧ v.rank1 0 = some 0 := by
  have hnone : (init [0, 0, 0, 0] 4 (2 ^ 29) 0 0).bind (rank1 · 0) = none := by decide
  rintro ⟨v, hinit, hrank⟩
  rw [hinit, Option.bind_some, hrank] at hnone
  cases hnone

end Mozkey.Storage.Louds.SimpleSuccinctBitVectorIndex
