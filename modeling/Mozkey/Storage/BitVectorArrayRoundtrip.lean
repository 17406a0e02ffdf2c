import Mathlib.Order.Bounds.Basic
import Mozkey.Storage.BitVectorArray
import Mozkey.Storage.SuccinctSelect

/-!
# Reading an array back

The 0-bit of an element is behind the codes of the elements before it, so that the 0-bits before it
are their number and the 1-bits their steps (`count_codes`). Its place in the data and its length
are then those at which it was written.
-/

namespace Mozkey.Storage.Louds

open Infra BitVectorBasedArrayBuilder

variable {base step : Nat}

/-! ## Codes -/

/-- The steps of some elements. -/
def totalSteps (base step : Nat) (elements : List Bytes) : Nat :=
  (elements.map fun element => steps base step element.length).sum

/-- The bytes that some elements take. -/
def totalLength (base step : Nat) (elements : List Bytes) : Nat :=
  (elements.map (storedLength base step)).sum

theorem count_codes (base step : Nat) : ∀ elements : List Bytes,
    (elements.flatMap (code base step)).count false = elements.length ∧
      (elements.flatMap (code base step)).count true = totalSteps base step elements
  | [] => ⟨rfl, rfl⟩
  | element :: elements => by
    obtain ⟨hfalse, htrue⟩ := count_codes base step elements
    rw [List.flatMap_cons, List.count_append, List.count_append, hfalse, htrue, code,
      totalSteps, totalSteps, List.map_cons, List.sum_cons]
    simp only [List.count_cons, List.count_replicate, List.length_cons]
    constructor
    · simp
      omega
    · simp

theorem length_flatMap_code (base step : Nat) (elements : List Bytes) :
    (elements.flatMap (code base step)).length
      = elements.length + totalSteps base step elements := by
  obtain ⟨hfalse, htrue⟩ := count_codes base step elements
  rw [← List.count_true_add_count_false, hfalse, htrue, Nat.add_comm]

theorem length_flatMap_stored (hstep : 0 < step) : ∀ elements : List Bytes,
    (elements.flatMap (stored base step)).length = totalLength base step elements
  | [] => rfl
  | element :: elements => by
    simp [length_stored hstep, length_flatMap_stored hstep elements, totalLength]

theorem totalLength_eq (base step : Nat) : ∀ elements : List Bytes,
    totalLength base step elements
      = base * elements.length + step * totalSteps base step elements
  | [] => rfl
  | element :: elements => by
    have ih := totalLength_eq base step elements
    unfold totalLength totalSteps at ih ⊢
    rw [List.map_cons, List.map_cons, List.sum_cons, List.sum_cons, ih, List.length_cons,
      storedLength, Nat.mul_succ, Nat.mul_add, Nat.mul_comm _ step]
    omega

theorem totalLength_append (base step : Nat) (before after : List Bytes) :
    totalLength base step (before ++ after)
      = totalLength base step before + totalLength base step after := by
  simp [totalLength]

/-! ## Searching -/

variable {a : BitVectorBasedArray}

theorem linearSearch_eq : ∀ {fuel n i : Nat}, n < fuel →
    (∀ j < n, a.index.get (i + j) = some true) → a.index.get (i + n) = some false →
    a.linearSearch fuel i = some (i + n)
  | 0, n, i, hfuel, _, _ => absurd hfuel (Nat.not_lt_zero n)
  | fuel + 1, 0, i, _, _, hzero => by
    rw [Nat.add_zero] at hzero
    rw [BitVectorBasedArray.linearSearch, hzero]
    rfl
  | fuel + 1, n + 1, i, hfuel, hones, hzero => by
    have hone := hones 0 (Nat.succ_pos n)
    rw [Nat.add_zero] at hone
    rw [BitVectorBasedArray.linearSearch, hone]
    rw [← Nat.add_assoc, Nat.add_right_comm] at hzero ⊢
    exact linearSearch_eq (Nat.lt_of_succ_lt_succ hfuel)
      (fun j hj => by rw [Nat.add_right_comm]; exact hones (j + 1) (Nat.succ_lt_succ hj)) hzero

/-- A product with a number that is converted to `int` and to `size_t`. -/
theorem toSizeT_mul {n k : Nat} (h : k = 0 ∨ n < 2 ^ 31) : toSizeT (toInt32 n) * k = n * k := by
  rcases h with rfl | hlt
  · simp
  · have hconv := toInt32_of_range (show -2 ^ 31 ≤ (n : Int) by omega) (by unfold int32Max; omega)
    have hsize := toSizeT_of_nonneg (show 0 ≤ (n : Int) by omega) (by unfold int32Max; omega)
    rw [hconv, Int.ofNat.inj hsize]

/-! ## The opened image -/

theorem loadUnaligned_append (before part after : Bytes) :
    loadUnaligned (before ++ (part ++ after)) part.length before.length = some (leNat part) := by
  rw [SimpleSuccinctBitVectorIndex.loadUnaligned_eq (by simp), List.drop_left, List.take_left]

/-- What an array reads from the image of some elements. -/
structure Stores (a : BitVectorBasedArray) (base step : Nat) (elements : List Bytes)
    (index : Bytes) : Prop where
  exact : a.index.Exact (bitsOf index)
  index_eq : a.index.data = index
  length_eq : a.index.length = index.length
  mul_base : ∀ k, k = 0 ∨ base < 2 ^ 31 → a.baseLength * k = base * k
  mul_step : ∀ k, k = 0 ∨ step < 2 ^ 31 → a.stepLength * k = step * k
  data_eq : a.data = elements.flatMap (stored base step)

variable {elements : List Bytes} {index : Bytes}

theorem exists_ofImage (hbase : base < 2 ^ 32) (hstep : step < 2 ^ 32) (hfour : 4 ∣ index.length)
    (hfits : SimpleSuccinctBitVectorIndex.Fits index 32) :
    ∃ a, BitVectorBasedArray.ofImage (imageOf base step index elements) = some a ∧
      Stores a base step elements index := by
  have hlength := hfits.length_lt (by decide)
  obtain ⟨v, hinit, hdata, hlen, hexact⟩ := SimpleSuccinctBitVectorIndex.exists_init
    (by decide) (by decide) hfour hfits BitVectorBasedArray.kLb0CacheSize
    BitVectorBasedArray.kLb1CacheSize
  have himage : imageOf base step index elements = leBytes 4 index.length ++ (leBytes 4 base
      ++ (leBytes 4 step ++ (leBytes 4 0 ++ (index ++ elements.flatMap (stored base step))))) := by
    simp [imageOf]
  have hload : ∀ (n : Nat) (before after : Bytes), n < 2 ^ 32 →
      loadUnaligned (before ++ (leBytes 4 n ++ after)) 4 before.length = some n := by
    intro n before after hn
    have hload := loadUnaligned_append before (leBytes 4 n) after
    rw [length_leBytes, leNat_leBytes (by omega)] at hload
    exact hload
  have hbaseMul : ∀ k, k = 0 ∨ base < 2 ^ 31 → toSizeT (toInt32 base) * k = base * k :=
    fun _ hk => toSizeT_mul hk
  have hstepMul : ∀ k, k = 0 ∨ step < 2 ^ 31 → toSizeT (toInt32 step) * k = step * k :=
    fun _ hk => toSizeT_mul hk
  generalize hbaseConv : toSizeT (toInt32 base) = baseLength at hbaseMul
  generalize hstepConv : toSizeT (toInt32 step) = stepLength at hstepMul
  refine ⟨⟨v, baseLength, stepLength, elements.flatMap (stored base step)⟩, ?_, hexact, hdata, hlen,
    hbaseMul, hstepMul, rfl⟩
  have h0 := hload index.length [] (leBytes 4 base ++ (leBytes 4 step ++ (leBytes 4 0 ++ (index
    ++ elements.flatMap (stored base step))))) (by omega)
  have h4 := hload base (leBytes 4 index.length) (leBytes 4 step ++ (leBytes 4 0 ++ (index
    ++ elements.flatMap (stored base step)))) hbase
  have h8 := hload step (leBytes 4 index.length ++ leBytes 4 base) (leBytes 4 0 ++ (index
    ++ elements.flatMap (stored base step))) hstep
  have h12 := hload 0 (leBytes 4 index.length ++ leBytes 4 base ++ leBytes 4 step) (index
    ++ elements.flatMap (stored base step)) (by decide)
  simp only [List.append_assoc, ← himage, List.nil_append, List.length_append, length_leBytes,
    List.length_nil] at h0 h4 h8 h12
  have hheader : (imageOf base step index elements).drop 16
      = index ++ elements.flatMap (stored base step) := by
    have hsplit : imageOf base step index elements
        = (leBytes 4 index.length ++ leBytes 4 base ++ leBytes 4 step ++ leBytes 4 0)
          ++ (index ++ elements.flatMap (stored base step)) := by
      simp [imageOf]
    rw [hsplit, List.drop_left' (by simp only [List.length_append, length_leBytes])]
  have hrest : (imageOf base step index elements).drop (16 + index.length)
      = elements.flatMap (stored base step) := by
    simp [← List.drop_drop, hheader]
  have hinside : ¬ (imageOf base step index elements).length < 16 + index.length := by
    simp [imageOf, length_leBytes]
    omega
  simp only [BitVectorBasedArray.ofImage, h0, h4, h8, h12, Option.bind_eq_bind, Option.bind_some,
    int_eq_some (show index.length < 2 ^ 31 by omega), hinside, or_false, ne_eq,
    not_true_eq_false, if_false, hheader, List.take_left, hinit, hrest, hbaseConv, hstepConv]
  rfl

/-! ## Elements -/

/-- **The place and the length of an element.** -/
theorem Stores.get_eq {before after : List Bytes} {element : Bytes}
    (h : Stores a base step (before ++ element :: after) index)
    (hcodes : ∃ n, bitsOf index
      = codes base step (before ++ element :: after) ++ List.replicate n false)
    (hfits : 8 * index.length < 2 ^ 31)
    (hdata : totalLength base step (before ++ element :: after) < 2 ^ 31) :
    a.get before.length
      = some ((totalLength base step before : Int), storedLength base step element) := by
  obtain ⟨n, hcodes⟩ := hcodes
  obtain ⟨rest, hrest⟩ : ∃ rest, after.flatMap (code base step) ++ [false]
      ++ List.replicate n false = false :: rest := by
    cases after with
    | nil => exact ⟨List.replicate n false, rfl⟩
    | cons next after => exact ⟨_, rfl⟩
  have hbits : bitsOf index = before.flatMap (code base step)
      ++ false :: (List.replicate (steps base step element.length) true ++ false :: rest) := by
    rw [hcodes, ← hrest, codes, List.flatMap_append, List.flatMap_cons, code]
    simp
  obtain ⟨hfalse, htrue⟩ := count_codes base step before
  have hall : (bitsOf index).length = (before.flatMap (code base step)).length
      + (1 + (steps base step element.length + (1 + rest.length))) := by
    rw [hbits]
    simp
    omega
  have hlength := length_flatMap_code base step before
  have hselect : IsSelect false (bitsOf index) (before.length + 1)
      (before.flatMap (code base step)).length := by
    constructor
    · simp [hbits]
    · simp [hbits, hfalse]
  obtain ⟨p, hp, hunique⟩ := h.exact.select0 (before.length + 1) (Nat.succ_pos _) (by
    rw [hbits, List.count_append, hfalse, List.count_cons_self]
    omega)
  obtain rfl := hunique.unique hselect
  have hrank := h.exact.rank1 (before.flatMap (code base step)).length (by omega)
  rw [hbits, List.take_left, htrue] at hrank
  have hbehind : ∀ j, a.index.get ((before.flatMap (code base step)).length + 1 + j)
      = (List.replicate (steps base step element.length) true ++ false :: rest)[j]? := by
    intro j
    rw [a.index.get_eq, h.index_eq, hbits, List.getElem?_append_right (by omega),
      Nat.add_assoc, Nat.add_sub_cancel_left, Nat.add_comm 1 j, List.getElem?_cons_succ]
  have hsearch : a.linearSearch (8 * a.index.length + 1)
      ((before.flatMap (code base step)).length + 1)
      = some ((before.flatMap (code base step)).length + 1 + steps base step element.length) := by
    rw [length_bitsOf] at hall
    refine linearSearch_eq (by rw [h.length_eq]; omega) (fun j hj => ?_) ?_
    · rw [hbehind, List.getElem?_append_left (by rw [List.length_replicate]; exact hj),
        List.getElem?_replicate, if_pos hj]
    · rw [hbehind, List.getElem?_append_right (by rw [List.length_replicate]),
        List.length_replicate, Nat.sub_self, List.getElem?_cons_zero]
  have hbefore := totalLength_eq base step before
  have htotal : totalLength base step (before ++ element :: after) = totalLength base step before
      + (storedLength base step element + totalLength base step after) := by
    rw [totalLength_append]
    rfl
  have hstored : storedLength base step element = base + steps base step element.length * step :=
    rfl
  have hbase : base < 2 ^ 31 := by omega
  have hsteps : ∀ k, step * k < 2 ^ 31 → k = 0 ∨ step < 2 ^ 31 := by
    intro k hk
    rcases Nat.eq_zero_or_pos k with hzero | hpos
    · exact .inl hzero
    · exact .inr (Nat.lt_of_le_of_lt (Nat.le_mul_of_pos_right step hpos) hk)
  have hone := h.mul_base 1 (.inr hbase)
  rw [Nat.mul_one, Nat.mul_one] at hone
  rw [length_bitsOf] at hall
  rw [BitVectorBasedArray.get, int_eq_some (by omega), Option.bind_eq_bind, Option.bind_some, hp,
    Option.bind_some, hrank, Option.bind_some]
  dsimp only
  rw [hsearch, Option.bind_some, h.mul_base before.length (.inr hbase),
    h.mul_step (totalSteps base step before) (hsteps _ (by omega)), ← hbefore,
    show (before.flatMap (code base step)).length + 1 + steps base step element.length
      - (before.flatMap (code base step)).length - 1 = steps base step element.length by omega,
    h.mul_step (steps base step element.length) (hsteps _ (by rw [Nat.mul_comm]; omega)), hone,
    Nat.mod_eq_of_lt (by omega), Nat.mul_comm step, ← hstored, Nat.mod_eq_of_lt (by omega),
    toInt32_of_range (by omega) (by unfold int32Max; omega)]
  rfl

/-! ## The whole array -/

theorem foldlM_add (image : Bytes) : ∀ elements done : List Bytes,
    elements.foldlM add ⟨false, done, base, step, image⟩
      = some ⟨false, done ++ elements, base, step, image⟩
  | [], done => by
    simp
  | element :: elements, done => by
    simp [add, foldlM_add image elements]

/-- The builder after its elements are added and its sizes set. -/
def builderOf (elements : List Bytes) (base step : Nat) : Option BitVectorBasedArrayBuilder :=
  elements.foldlM add {} >>= (·.setSize base step)

theorem builderOf_eq (elements : List Bytes) (base step : Nat) :
    builderOf elements base step
      = some { elements := elements, baseLength := base, stepLength := step } := by
  rw [builderOf, foldlM_add [] elements [], List.nil_append]
  rfl

theorem Stores.exists_get (hstep : 0 < step) (h : Stores a base step elements index)
    (hcodes : ∃ n, bitsOf index = codes base step elements ++ List.replicate n false)
    (hfits : 8 * index.length < 2 ^ 31) (hdata : totalLength base step elements < 2 ^ 31) {i : Nat}
    {element : Bytes} (hi : elements[i]? = some element) :
    a.get i = some ((totalLength base step (elements.take i) : Int), storedLength base step element)
      ∧ bytesAt a.data (totalLength base step (elements.take i)) (storedLength base step element)
        = some (stored base step element) := by
  obtain ⟨hlt, hget⟩ := List.getElem?_eq_some_iff.mp hi
  have hsplit : elements = elements.take i ++ element :: elements.drop (i + 1) := by
    simp [← hget, ← List.drop_eq_getElem_cons hlt]
  have hlength : (elements.take i).length = i := by
    simp
    omega
  constructor
  · rw [hsplit] at h hcodes hdata
    have hgetEq := h.get_eq hcodes hfits hdata
    simpa [hlength] using hgetEq
  · have hdataEq : a.data = (elements.take i).flatMap (stored base step)
        ++ (stored base step element ++ (elements.drop (i + 1)).flatMap (stored base step)) := by
      rw [h.data_eq, ← List.flatMap_cons, ← List.flatMap_append, ← hsplit]
    rw [hdataEq, ← length_flatMap_stored hstep, ← length_stored hstep]
    exact bytesAt_append _ _ _

theorem totalLength_take_le (base step : Nat) (elements : List Bytes) {i j : Nat} (h : i ≤ j) :
    totalLength base step (elements.take i) ≤ totalLength base step (elements.take j) := by
  obtain ⟨d, rfl⟩ := Nat.exists_eq_add_of_le h
  rw [List.take_add, totalLength_append]
  exact Nat.le_add_right _ _

theorem storedLength_le {element : Bytes} (h : element ∈ elements) :
    storedLength base step element ≤ totalLength base step elements := by
  obtain ⟨before, after, rfl⟩ := List.append_of_mem h
  rw [totalLength_append]
  exact Nat.le_trans (Nat.le_add_right _ _) (Nat.le_add_left _ _)

theorem isLeast_storedLength (hstep : 0 < step) (element : Bytes) :
    IsLeast {n | element.length ≤ n ∧ ∃ k, n = base + k * step}
      (storedLength base step element) := by
  refine ⟨⟨length_le_steps base hstep _, _, rfl⟩, ?_⟩
  rintro n ⟨hle, k, rfl⟩
  exact Nat.add_le_add_left (Nat.mul_le_mul_right step (steps_le hstep hle)) base

theorem fits_of_bits {n : Nat} (hlength : index.length = 4 * ((n + 31) / 32))
    (hbits : n ≤ 2 ^ 31 - 256) : SimpleSuccinctBitVectorIndex.Fits index 32 := by
  have hchunks : (index.length + 32 - 1) / 32 ≤ 2 ^ 23 - 1 := by omega
  have hmax : max 1 ((index.length + 32 - 1) / 32) ≤ 2 ^ 23 - 1 :=
    Nat.max_le.mpr ⟨by decide, hchunks⟩
  unfold SimpleSuccinctBitVectorIndex.Fits SimpleSuccinctBitVectorIndex.chunks
  omega

/-- The image is opened, and each element found where it was written. -/
theorem exists_stores (hstep : 0 < step) (hbase : step ≤ base + 1) (hbase32 : base < 2 ^ 32)
    (hstep32 : step < 2 ^ 32) (hdata : totalLength base step elements < 2 ^ 31)
    (hbits : elements.length + totalSteps base step elements + 1 ≤ 2 ^ 31 - 256) :
    ∃ builder a, builderOf elements base step >>= build = some builder ∧
      BitVectorBasedArray.ofImage builder.image = some a ∧
      ∀ i element, elements[i]? = some element →
        a.get i = some
          ((totalLength base step (elements.take i) : Int), storedLength base step element) ∧
        bytesAt a.data (totalLength base step (elements.take i)) (storedLength base step element)
          = some (stored base step element) := by
  have hcodes : (codes base step elements).length
      = elements.length + totalSteps base step elements + 1 := by
    rw [codes, List.length_append, length_flatMap_code, List.length_singleton]
  obtain ⟨index, hbuild, hlength, hindex⟩ := exists_build hstep hbase hbase32 hstep32
    (fun element hmem => Nat.lt_of_le_of_lt (storedLength_le hmem) hdata) (by omega)
  have hfits := fits_of_bits hlength (hcodes ▸ hbits)
  obtain ⟨a, himage, hstores⟩ := exists_ofImage hbase32 hstep32 ⟨_, hlength⟩ hfits
  refine ⟨⟨true, elements, base, step, imageOf base step index elements⟩, a, ?_, himage,
    fun i element hi => ?_⟩
  · simp [builderOf_eq, hbuild]
  · exact hstores.exists_get hstep ⟨_, hindex⟩ (hfits.length_lt (by decide)) hdata hi

/-- **The array gives back its elements, filled up with 0-bytes to the least length that there is,
one behind the other, when the sizes fit in an `int`.** -/
theorem array_roundtrip (elements : List Bytes) (base step : Nat) (hstep : 0 < step)
    (hbase : step ≤ base + 1) (hbase32 : base < 2 ^ 32) (hstep32 : step < 2 ^ 32)
    (hdata : totalLength base step elements < 2 ^ 31)
    (hbits : elements.length + totalSteps base step elements + 1 ≤ 2 ^ 31 - 256) :
    ∃ builder a, builderOf elements base step >>= build = some builder ∧
      BitVectorBasedArray.ofImage builder.image = some a ∧
      (∀ i element, elements[i]? = some element → ∃ (start : Int) (length : Nat),
        a.get i = some (start, length) ∧
        IsLeast {n | element.length ≤ n ∧ ∃ k, n = base + k * step} length ∧
        bytesAt a.data start length
          = some (element ++ List.replicate (length - element.length) 0)) ∧
      ∀ i j, i < j → j < elements.length → ∀ start length start' length',
        a.get i = some (start, length) → a.get j = some (start', length') →
        start + length ≤ start' := by
  obtain ⟨builder, a, hbuild, himage, hget⟩ := exists_stores hstep hbase hbase32 hstep32 hdata hbits
  refine ⟨builder, a, hbuild, himage, fun i element hi => ?_,
    fun i j hij hj start length start' length' hi hj' => ?_⟩
  · obtain ⟨hplace, hbytes⟩ := hget i element hi
    exact ⟨_, _, hplace, isLeast_storedLength hstep element, hbytes⟩
  · have hi' : i < elements.length := Nat.lt_trans hij hj
    have hplace := (hget i elements[i] (List.getElem?_eq_getElem hi')).1
    have hplace' := (hget j elements[j] (List.getElem?_eq_getElem hj)).1
    rw [hi, Option.some.injEq, Prod.mk.injEq] at hplace
    rw [hj', Option.some.injEq, Prod.mk.injEq] at hplace'
    have hle := totalLength_take_le base step elements (show i + 1 ≤ j from hij)
    rw [List.take_add_one, List.getElem?_eq_getElem hi', Option.toList_some,
      totalLength_append] at hle
    have hlast : totalLength base step [elements[i]] = storedLength base step elements[i] := rfl
    omega

theorem array_roundtrip_words : ∃ builder a,
    builderOf [[1], [1, 2, 3, 4, 5], []] 2 2 >>= build = some builder ∧
      BitVectorBasedArray.ofImage builder.image = some a ∧
      ∃ (start : Int) (length : Nat), a.get 1 = some (start, length) ∧
        bytesAt a.data start length = some ([1, 2, 3, 4, 5] ++ List.replicate (length - 5) 0) := by
  obtain ⟨builder, a, hbuild, himage, hget, -⟩ := array_roundtrip [[1], [1, 2, 3, 4, 5], []] 2 2
    (by decide) (by decide) (by decide) (by decide) (by decide) (by decide)
  obtain ⟨start, length, hplace, -, hbytes⟩ := hget 1 [1, 2, 3, 4, 5] rfl
  exact ⟨builder, a, hbuild, himage, start, length, hplace, hbytes⟩

/-- A size in the header has four bytes. -/
theorem build_of_large_base : builderOf [] (2 ^ 32) 1 >>= build = none := by
  rw [builderOf_eq]
  decide

end Mozkey.Storage.Louds
