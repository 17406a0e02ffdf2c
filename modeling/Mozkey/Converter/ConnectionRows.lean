import Mozkey.Converter.ConnectionData
import Mozkey.Converter.Connector

/-!
# The rows of the connection data

* `RankBitVector.rank1IfSet_eq` — the index and the word together count the bits before a bit
* `buildRow_packed` — what the script writes for a row
* `Row.getValue_eq` — **what the connector finds in it**
-/

namespace Mozkey.Converter

open Infra

/-! ## Writing a row -/

/-- The value that stands for a cost. -/
def storedValue (use1byteCost : Bool) (cost : Int) : Int :=
  if use1byteCost then if cost = invalidCost then invalid1ByteCost else cost / resolutionFor1Byte
  else cost

theorem eq_storedValue {u : Bool} {cost value : Int} (h : encodeCost u cost = some value) :
    value = storedValue u cost := by
  unfold encodeCost at h
  unfold storedValue
  split at h
  · next hu =>
    rw [if_pos hu]
    split at h
    · next hc => rw [if_pos hc, ← Option.some.inj h]
    · next hc =>
      rw [if_neg hc]
      split at h
      · rw [← Option.some.inj h]
      · cases h
  · next hu => rw [if_neg hu, ← Option.some.inj h]

/-- The cells of a row as they are written. -/
def storedRow (u : Bool) (row : CompressedRow) : List (Option Int) :=
  row.map (Option.map (storedValue u))

theorem foldlM_addCost {u : Bool} : ∀ {chunk : List (Option Int)} {row row' : Sparse Int},
    chunk.foldlM (addCost u) row = some row' →
      row' = ⟨row.chunkBits, row.compactBits ++ (storedRow u chunk).map Option.isSome,
        row.values ++ (storedRow u chunk).reduceOption⟩ ∧
      ∀ cost, some cost ∈ chunk → encodeCost u cost = some (storedValue u cost)
  | [], row, row', h => by
    obtain rfl : row = row' := Option.some.inj h
    simp [storedRow]
  | none :: chunk, row, row', h => by
    rw [List.foldlM_cons, addCost] at h
    obtain ⟨rfl, hcosts⟩ := foldlM_addCost h
    refine ⟨by simp [storedRow], fun cost hc => hcosts cost ?_⟩
    simpa using hc
  | some cost :: chunk, row, row', h => by
    rw [List.foldlM_cons, addCost] at h
    cases hcost : encodeCost u cost with
    | none => simp [hcost] at h
    | some value =>
      simp only [hcost, Option.map_some] at h
      obtain ⟨rfl, hcosts⟩ := foldlM_addCost h
      obtain rfl := eq_storedValue hcost
      refine ⟨by simp [storedRow], fun c hc => ?_⟩
      rcases List.mem_cons.mp hc with heq | hc
      · rw [Option.some.inj heq, hcost]
      · exact hcosts c hc

theorem all_isNone_storedRow (u : Bool) (chunk : List (Option Int)) :
    (storedRow u chunk).all Option.isNone = chunk.all Option.isNone := by
  rw [storedRow, List.all_map]
  exact congrArg _ (funext fun cell => by cases cell <;> rfl)

theorem addChunk_eq {u : Bool} {chunk : List (Option Int)} {row row' : Sparse Int}
    (h : addChunk u row chunk = some row') :
    row' = row.append (.ofChunk (storedRow u chunk)) ∧
      ∀ cost, some cost ∈ chunk → encodeCost u cost = some (storedValue u cost) := by
  unfold addChunk at h
  rw [Sparse.ofChunk, all_isNone_storedRow]
  split at h
  · next hnone =>
    cases h
    rw [if_pos hnone]
    refine ⟨by simp [Sparse.append], fun cost hc => ?_⟩
    have := List.all_eq_true.mp hnone _ hc
    simp at this
  · next hnone =>
    rw [if_neg hnone]
    exact foldlM_addCost h

theorem foldlM_addChunk {u : Bool} : ∀ {chunks : List (List (Option Int))} {row row' : Sparse Int},
    chunks.foldlM (addChunk u) row = some row' →
      row' = row.append (.ofChunks (chunks.map (storedRow u))) ∧
      ∀ cost, some cost ∈ chunks.flatten → encodeCost u cost = some (storedValue u cost)
  | [], row, row', h => by
    obtain rfl : row = row' := Option.some.inj h
    simp [Sparse.ofChunks]
  | chunk :: chunks, row, row', h => by
    rw [List.foldlM_cons] at h
    cases hchunk : addChunk u row chunk with
    | none => simp [hchunk] at h
    | some row₁ =>
      simp only [hchunk, Option.bind_eq_bind, Option.bind_some] at h
      obtain ⟨rfl, hcosts⟩ := addChunk_eq hchunk
      obtain ⟨rfl, hcosts'⟩ := foldlM_addChunk h
      refine ⟨by rw [List.map_cons, Sparse.ofChunks, Sparse.append_assoc], fun cost hc => ?_⟩
      rw [List.flatten_cons, List.mem_append] at hc
      exact hc.elim (hcosts cost) (hcosts' cost)

/-! ## The parts of a row -/

/-- Packed numbers are found at the multiples of their size. -/
theorem mapM_pack {size : Nat} : ∀ {values : List Int} {bs : List Bytes},
    values.mapM (pack size) = some bs →
      bs.flatten.length = values.length * size ∧
      ∀ (k : Nat) (v : Int), values[k]? = some v →
        ∃ n : Nat, Connector.loadUnaligned size bs.flatten (size * k) = some n ∧ (n : Int) = v
  | [], bs, h => by
    obtain rfl : [] = bs := Option.some.inj h
    simp
  | value :: values, bs, h => by
    rw [List.mapM_cons] at h
    cases hvalue : pack size value with
    | none => simp [hvalue] at h
    | some b =>
      cases hvalues : values.mapM (pack size) with
      | none => simp [hvalue, hvalues] at h
      | some rest =>
        simp only [hvalue, hvalues, Option.bind_eq_bind, Option.bind_some, Option.pure_def,
          Option.some.injEq] at h
        obtain rfl := h
        obtain ⟨hlen, hb⟩ := pack_eq_some hvalue
        obtain ⟨hrest, ih⟩ := mapM_pack hvalues
        rw [List.flatten_cons]
        refine ⟨by rw [List.length_append, hlen, hrest, List.length_cons, Nat.succ_mul,
          Nat.add_comm], fun k v hk => ?_⟩
        cases k with
        | zero =>
          rw [List.getElem?_cons_zero, Option.some.injEq] at hk
          exact ⟨_, Connector.loadUnaligned_zero hlen _, hb.trans hk⟩
        | succ k =>
          rw [List.getElem?_cons_succ] at hk
          obtain ⟨n, hn, hv⟩ := ih k v hk
          rw [Nat.mul_succ, Nat.add_comm, ← hlen, Connector.loadUnaligned_append_right, hlen]
          exact ⟨n, hn, hv⟩

/-- The three parts of a row in the data. -/
structure PackedRow where
  chunkBits : Bytes
  compactBits : Bytes
  values : Bytes

namespace PackedRow

def bytes (p : PackedRow) : Bytes :=
  leBytes 2 p.compactBits.length ++ (leBytes 2 p.values.length ++
    (p.chunkBits ++ (p.compactBits ++ p.values)))

/-- What the parts hold. -/
structure Holds (p : PackedRow) (u : Bool) (s : Sparse Int) : Prop where
  chunkBits : bitsOf p.chunkBits = padTo 32 false s.chunkBits
  compactBits : bitsOf p.compactBits = padTo 32 false s.compactBits
  values : ∀ (k : Nat) (v : Int), s.values[k]? = some v →
    ∃ n : Nat, Connector.loadUnaligned (valueSize u) p.values (valueSize u * k) = some n ∧
      (n : Int) = v
  values_mod : p.values.length % 4 = 0
  compactBits_lt : p.compactBits.length < 256 ^ 2
  values_lt : p.values.length < 256 ^ 2

variable {p : PackedRow} {u : Bool} {s : Sparse Int}

theorem Holds.chunkBits_mod (h : p.Holds u s) : p.chunkBits.length % 4 = 0 := by
  have hlen := congrArg List.length h.chunkBits
  have hmod := length_padTo (show 0 < 32 by decide) false s.chunkBits
  rw [length_bitsOf] at hlen
  omega

theorem Holds.compactBits_mod (h : p.Holds u s) : p.compactBits.length % 4 = 0 := by
  have hlen := congrArg List.length h.compactBits
  have hmod := length_padTo (show 0 < 32 by decide) false s.compactBits
  rw [length_bitsOf] at hlen
  omega

end PackedRow

theorem outputRow_packed {u : Bool} {s : Sparse Int} {bs : Bytes} (h : outputRow u s = some bs) :
    ∃ p : PackedRow, bs = p.bytes ∧ p.Holds u s := by
  unfold outputRow at h
  simp only [Option.bind_eq_bind, Option.bind_eq_some_iff, Option.pure_def, Option.some.injEq] at h
  obtain ⟨b₁, hb₁, b₂, hb₂, chunk, hchunk, compact, hcompact, vs, hvs, rfl⟩ := h
  obtain ⟨rfl, hlt₁⟩ := pack_natCast hb₁
  obtain ⟨rfl, hlt₂⟩ := pack_natCast hb₂
  obtain ⟨hlen, hload⟩ := mapM_pack hvs
  have hcompactBits := bitsOf_outputBitList hcompact
  have hcompactLen : (padTo 32 false s.compactBits).length / 8 = compact.length := by
    rw [← hcompactBits, length_bitsOf]
    omega
  rw [hcompactLen] at hlt₁ ⊢
  rw [← hlen] at hlt₂ ⊢
  refine ⟨⟨chunk, compact, vs.flatten⟩, by simp [PackedRow.bytes], ?_⟩
  refine ⟨bitsOf_outputBitList hchunk, hcompactBits, fun k v hk => hload k v ?_, ?_, hlt₁, hlt₂⟩
  · rw [padTo, List.getElem?_append_left (List.getElem?_eq_some_iff.mp hk).1, hk]
  · show vs.flatten.length % 4 = 0
    rw [hlen]
    cases u with
    | true =>
      have := length_padTo (show 0 < 4 by decide) 0 s.values
      simp only [valueSize, if_true]
      omega
    | false =>
      have := length_padTo (show 0 < 2 by decide) 0 s.values
      simp [valueSize]
      omega

/-- **What the script writes for a row.** -/
theorem buildRow_packed {u : Bool} {row : CompressedRow} {bs : Bytes}
    (h : buildRow u row = some bs) :
    ∃ p : PackedRow, bs = p.bytes ∧ p.Holds u (.ofChunks (splitChunk 8 (storedRow u row))) ∧
      ∀ cost, some cost ∈ row → encodeCost u cost = some (storedValue u cost) := by
  unfold buildRow at h
  simp only [Option.bind_eq_bind, Option.bind_eq_some_iff] at h
  obtain ⟨s, hs, hout⟩ := h
  obtain ⟨rfl, hcosts⟩ := foldlM_addChunk hs
  obtain ⟨p, rfl, hp⟩ := outputRow_packed hout
  have hmap : (splitChunk 8 row).map (storedRow u) = splitChunk 8 (storedRow u row) :=
    map_splitChunk _ _ _
  rw [Sparse.empty_append, hmap] at hp
  rw [flatten_splitChunk (by decide)] at hcosts
  exact ⟨p, rfl, hp, hcosts⟩

/-! ## Finding a cell -/

namespace Connector

namespace RankBitVector

/-- The bits of the word `i`. -/
theorem bitsOf_word (data : Bytes) (i : Nat) :
    bitsOf ((data.drop (4 * i)).take 4) = ((bitsOf data).drop (32 * i)).take 32 := by
  rw [take_bitsOf, drop_bitsOf, ← Nat.mul_assoc]

theorem count_take_word {data : Bytes} {i : Nat} (h : 4 * (i + 1) ≤ data.length) :
    ((bitsOf data).take (32 * (i + 1))).count true
      = ((bitsOf data).take (32 * i)).count true
        + popcount 32 (leNat ((data.drop (4 * i)).take 4)) := by
  have hlen : ((data.drop (4 * i)).take 4).length = 4 := by
    simp
    omega
  have hword := popcount_leNat ((data.drop (4 * i)).take 4)
  rw [hlen, bitsOf_word] at hword
  rw [Nat.mul_succ, List.take_add, List.count_append, ← hword]

theorem getElem?_buildIndexFrom {data : Bytes} : ∀ {k i numBits j : Nat},
    4 * (i + k) ≤ data.length → numBits = ((bitsOf data).take (32 * i)).count true → j < k →
      (buildIndexFrom data i k numBits)[j]?
        = some (((bitsOf data).take (32 * (i + j))).count true % 2 ^ 16)
  | 0, i, numBits, j, _, _, hj => absurd hj (Nat.not_lt_zero j)
  | k + 1, i, numBits, 0, _, hbits, _ => by
    simp [buildIndexFrom, hbits]
  | k + 1, i, numBits, j + 1, h, hbits, hj => by
    rw [buildIndexFrom, List.getElem?_cons_succ,
      getElem?_buildIndexFrom (show 4 * (i + 1 + k) ≤ data.length by omega)
        (by rw [count_take_word (by omega), hbits]) (by omega : j < k),
      show i + 1 + j = i + (j + 1) by omega]

/-- **The index and the word count the bits before a bit.** -/
theorem rank1IfSet_eq {data : Bytes} (hmod : data.length % 4 = 0)
    (hcount : (bitsOf data).count true < 2 ^ 16) {n : Nat} (hn : n < 8 * data.length) :
    (setData data).buildIndex.rank1IfSet n
      = some (if (bitsOf data).getD n false then some (((bitsOf data).take n).count true)
        else none) := by
  have hword : 4 * (n / 32) + 4 ≤ data.length := by omega
  have hsplit : n = 32 * (n / 32) + n % 32 := (Nat.div_add_mod n 32).symm
  have hbit : (leNat ((data.drop (4 * (n / 32))).take 4)).testBit (n % 32)
      = (bitsOf data).getD n false := by
    rw [testBit_leNat, bitsOf_word, List.getD_eq_getElem?_getD, List.getElem?_take_of_lt (by omega),
      List.getElem?_drop, ← hsplit, List.getD_eq_getElem?_getD]
  have hrank : (buildIndexFrom data 0 (data.length / 4) 0)[n / 32]?
      = some (((bitsOf data).take (32 * (n / 32))).count true) := by
    rw [getElem?_buildIndexFrom (by omega) (by simp) (by omega), Nat.zero_add, Nat.mod_eq_of_lt]
    exact Nat.lt_of_le_of_lt ((List.take_sublist _ _).count_le _) hcount
  have hmask : popcount 32
      (leNat ((data.drop (4 * (n / 32))).take 4) &&& (2 ^ (n % 32) - 1))
        = (((bitsOf data).drop (32 * (n / 32))).take (n % 32)).count true := by
    rw [popcount_mask_leNat (by omega), bitsOf_word, List.take_take, Nat.min_eq_left (by omega)]
  have htake : ((bitsOf data).take n).count true
      = ((bitsOf data).take (32 * (n / 32))).count true
        + (((bitsOf data).drop (32 * (n / 32))).take (n % 32)).count true := by
    conv_lhs => rw [hsplit, List.take_add, List.count_append]
  have hload : loadUnaligned 4 data (4 * (n / 32))
      = some (leNat ((data.drop (4 * (n / 32))).take 4)) := if_pos hword
  simp only [rank1IfSet, buildIndex, setData, indexSize, hload, Option.bind_eq_bind,
    Option.bind_some, Nat.one_shiftLeft, Nat.and_two_pow, hbit, hrank, hmask, ← htake]
  cases (bitsOf data).getD n false <;> simp

end RankBitVector

/-- The value that is found for a cost, before it is scaled. -/
def foundValue (use1byteCost : Bool) (cost : Int) : Int :=
  if use1byteCost then if cost = invalidCost then cost else cost / resolutionFor1Byte else cost

namespace Row

variable {u : Bool} {row : CompressedRow} {p : PackedRow}

theorem loadValue_eq {s : Sparse Int} (hp : p.Holds u s) {k : Nat} {cost : Int}
    (hcost : encodeCost u cost = some (storedValue u cost))
    (hk : s.values[k]? = some (storedValue u cost)) :
    ∃ n : Nat, (init p.chunkBits p.compactBits p.values).buildIndex.loadValue u k = some n ∧
      (n : Int) = foundValue u cost ∧ (u = true → cost ≠ invalidCost → n < 256) := by
  obtain ⟨n, hload, hn⟩ := hp.values k _ hk
  cases u with
  | false => exact ⟨n, hload, hn, by simp⟩
  | true =>
    rw [show valueSize true = 1 from rfl, Nat.one_mul] at hload
    by_cases hinvalid : cost = invalidCost
    · refine ⟨kInvalidCost, ?_, by simp [foundValue, hinvalid, kInvalidCost, invalidCost],
        fun _ hne => absurd hinvalid hne⟩
      have : n = kInvalid1ByteCostValue := by
        simp only [storedValue, hinvalid, if_true, invalid1ByteCost] at hn
        exact Int.ofNat.inj hn
      simp [loadValue, init, buildIndex, hload, this]
    · have hne : cost / resolutionFor1Byte ≠ invalid1ByteCost := by
        intro heq
        simp [encodeCost, hinvalid, heq] at hcost
      have hn' : (n : Int) = cost / resolutionFor1Byte := by
        simpa [storedValue, hinvalid] using hn
      refine ⟨n, ?_, by simpa [foundValue, hinvalid] using hn', fun _ _ => loadUnaligned_lt hload⟩
      have : n ≠ kInvalid1ByteCostValue := by
        rintro rfl
        exact hne hn'.symm
      simp [loadValue, init, buildIndex, hload, this]

theorem count_padTo (n : Nat) (l : List Bool) : (padTo n false l).count true = l.count true := by
  rw [padTo, List.count_append, List.count_replicate]
  simp

theorem getValue_of_chunk {r : Row} {i : Nat}
    (h : r.chunkBitsIndex.rank1IfSet (i / kChunkWidth) = some none) :
    r.getValue i u = some none := by
  simp [getValue, h]

theorem getValue_of_compact {r : Row} {i k : Nat}
    (h : r.chunkBitsIndex.rank1IfSet (i / kChunkWidth) = some (some k))
    (h' : r.compactBitsIndex.rank1IfSet (k * kChunkWidth + i % kChunkWidth) = some none) :
    r.getValue i u = some none := by
  simp [getValue, h, h']

theorem getValue_of_value {r : Row} {i k m n : Nat}
    (h : r.chunkBitsIndex.rank1IfSet (i / kChunkWidth) = some (some k))
    (h' : r.compactBitsIndex.rank1IfSet (k * kChunkWidth + i % kChunkWidth) = some (some m))
    (hvalue : r.loadValue u m = some n) : r.getValue i u = some (some n) := by
  simp [getValue, h, h', hvalue]

/-- The row as its bits are in the data. -/
def packedSparse (p : PackedRow) (s : Sparse Int) : Sparse Int :=
  ⟨bitsOf p.chunkBits, bitsOf p.compactBits, s.values⟩

theorem packedSparse_eq {s : Sparse Int} (hp : p.Holds u s) : packedSparse p s = s.append
    ⟨List.replicate ((32 - s.chunkBits.length % 32) % 32) false,
      List.replicate ((32 - s.compactBits.length % 32) % 32) false, []⟩ := by
  simp [packedSparse, hp.chunkBits, hp.compactBits, Sparse.append, padTo]

theorem get_packedSparse {s : Sparse Int} (hp : p.Holds u s)
    (hs : s = .ofChunks (splitChunk 8 (storedRow u row))) {i : Nat} (hi : i < row.length) :
    (packedSparse p s).get 8 i = some (row[i].map (storedValue u)) := by
  have hi' : i < (storedRow u row).length := by rw [storedRow, List.length_map]; exact hi
  rw [packedSparse_eq hp, hs, Sparse.get_ofChunks_append (by decide) _ _ i hi']
  exact congrArg some (List.getElem_map ..)

theorem position_packedSparse {s : Sparse Int} (hp : p.Holds u s) {i : Nat}
    (hi : i / 8 < s.chunkBits.length) :
    (packedSparse p s).position 8 i = s.position 8 i ∧
      (packedSparse p s).chunkBits.getD (i / 8) false = s.chunkBits.getD (i / 8) false := by
  rw [packedSparse_eq hp, Sparse.append, Sparse.position,
    List.take_append_of_le_length (Nat.le_of_lt hi), List.getD_append _ _ _ _ hi]
  exact ⟨rfl, rfl⟩

/-- **What the connector finds in a row.** -/
theorem getValue_eq (hp : p.Holds u (.ofChunks (splitChunk 8 (storedRow u row))))
    (hcosts : ∀ cost, some cost ∈ row → encodeCost u cost = some (storedValue u cost))
    (hlen : row.length < 2 ^ 16) {i : Nat} (hi : i < row.length) :
    (row[i] = none →
      (init p.chunkBits p.compactBits p.values).buildIndex.getValue i u = some none) ∧
    ∀ cost, row[i] = some cost → ∃ n : Nat,
      (init p.chunkBits p.compactBits p.values).buildIndex.getValue i u = some (some n) ∧
        (n : Int) = foundValue u cost ∧ (u = true → cost ≠ invalidCost → n < 256) := by
  generalize hs : Sparse.ofChunks (splitChunk 8 (storedRow u row)) = s at hp
  have hchunks : s.chunkBits.length = (row.length + 8 - 1) / 8 := by
    simp [← hs, Sparse.length_chunkBits, length_splitChunk, storedRow]
  have hcompacts : s.compactBits.length ≤ row.length := by
    have := Sparse.length_compactBits_le (splitChunk 8 (storedRow u row))
    rwa [hs, flatten_splitChunk (by decide), storedRow, List.length_map] at this
  have hget := get_packedSparse hp hs.symm hi
  obtain ⟨hposition, hchunkBit⟩ := position_packedSparse hp (i := i) (by omega)
  have hchunkCount : (bitsOf p.chunkBits).count true < 2 ^ 16 := by
    rw [hp.chunkBits, count_padTo]
    exact Nat.lt_of_le_of_lt List.count_le_length (by omega)
  have hcompactCount : (bitsOf p.compactBits).count true < 2 ^ 16 := by
    rw [hp.compactBits, count_padTo]
    exact Nat.lt_of_le_of_lt List.count_le_length (by omega)
  have hchunkRank := RankBitVector.rank1IfSet_eq hp.chunkBits_mod hchunkCount
    (show i / 8 < 8 * p.chunkBits.length by
      rw [← length_bitsOf, hp.chunkBits, padTo, List.length_append]
      omega)
  have hcompactRank : ∀ n < s.compactBits.length,
      (RankBitVector.setData p.compactBits).buildIndex.rank1IfSet n
        = some (if (bitsOf p.compactBits).getD n false
          then some (((bitsOf p.compactBits).take n).count true) else none) := by
    intro n hn
    refine RankBitVector.rank1IfSet_eq hp.compactBits_mod hcompactCount ?_
    simp [← length_bitsOf, hp.compactBits, padTo]
    omega
  rw [Sparse.get] at hget
  cases hbit : (packedSparse p s).chunkBits.getD (i / 8) false with
  | false =>
    rw [hbit, if_neg Bool.false_ne_true] at hget
    rw [show (bitsOf p.chunkBits).getD (i / 8) false = false from hbit,
      if_neg Bool.false_ne_true] at hchunkRank
    refine ⟨fun _ => getValue_of_chunk hchunkRank, fun cost hcost => ?_⟩
    simp [hcost] at hget
  | true =>
    rw [hbit, if_pos rfl] at hget
    rw [show (bitsOf p.chunkBits).getD (i / 8) false = true from hbit, if_pos rfl] at hchunkRank
    have hlt : (packedSparse p s).position 8 i < s.compactBits.length := by
      rw [hposition, ← hs]
      refine Sparse.position_lt (by decide) _ i ?_ ?_
      · simpa [storedRow] using hi
      · rw [hs, ← hchunkBit, hbit]
    have hcompact := hcompactRank _ hlt
    cases hbit' : (packedSparse p s).compactBits.getD ((packedSparse p s).position 8 i) false with
    | false =>
      rw [hbit', if_neg Bool.false_ne_true] at hget
      rw [show (bitsOf p.compactBits).getD _ false = false from hbit',
        if_neg Bool.false_ne_true] at hcompact
      refine ⟨fun _ => getValue_of_compact hchunkRank hcompact, fun cost hcost => ?_⟩
      simp [hcost] at hget
    | true =>
      rw [hbit', if_pos rfl] at hget
      rw [show (bitsOf p.compactBits).getD _ false = true from hbit', if_pos rfl] at hcompact
      refine ⟨fun hnone => ?_, fun cost hcost => ?_⟩
      · rw [hnone] at hget
        simp at hget
      · rw [hcost] at hget
        obtain ⟨v, hv, heq⟩ := Option.map_eq_some_iff.mp hget
        cases heq
        obtain ⟨n, hn, hfound⟩ :=
          loadValue_eq hp (hcosts cost (hcost ▸ List.getElem_mem hi)) hv
        exact ⟨n, getValue_of_value hchunkRank hcompact hn, hfound⟩

end Row

end Connector

end Mozkey.Converter
