import Mathlib.Data.List.Forall2
import Mozkey.Converter.ConnectionRows

/-!
# The connector reads what the script wrote

* `create_packed` — the connector accepts the compiled bytes, where they are aligned
* `lookupCost_compiled` — **and finds the cost of every cell**, as far as it was written
-/

namespace Mozkey.Converter

open Infra

/-! ## The compiled bytes -/

/-- The header, the default costs and the rows. -/
structure PackedMatrix where
  resolution : Nat
  size : Nat
  defaultCost : Bytes
  rows : List PackedRow

def PackedMatrix.bytes (m : PackedMatrix) : Bytes :=
  fileMagic ++ (leBytes 2 m.resolution ++ (leBytes 2 m.size ++ (leBytes 2 m.size ++
    (m.defaultCost ++ (m.rows.map PackedRow.bytes).flatten))))

/-- What the script writes in one row. -/
def RowPacked (u : Bool) (row : CompressedRow) (p : PackedRow) : Prop :=
  p.Holds u (.ofChunks (splitChunk 8 (storedRow u row))) ∧
    ∀ cost, some cost ∈ row → encodeCost u cost = some (storedValue u cost)

structure PackedMatrix.Holds (m : PackedMatrix) (u : Bool) (matrix : List CompressedRow)
    (modeValueList : List Int) : Prop where
  resolution : m.resolution = if u then 64 else 1
  size : m.size = matrix.length
  size_lt : m.size < 256 ^ 2
  defaultCost_length : m.defaultCost.length = (modeValueList.length + modeValueList.length % 2) * 2
  defaultCost : ∀ (rid : Nat) (cost : Int), modeValueList[rid]? = some cost →
    ∃ n : Nat, Connector.loadUnaligned 2 m.defaultCost (2 * rid) = some n ∧ (n : Int) = cost
  rows : List.Forall₂ (RowPacked u) matrix m.rows

variable {u : Bool}

theorem exists_row_of_mem : ∀ {matrix : List CompressedRow} {ps : List PackedRow},
    List.Forall₂ (RowPacked u) matrix ps → ∀ {p : PackedRow}, p ∈ ps →
      ∃ row ∈ matrix, RowPacked u row p
  | _, _, .cons hrow hrest, p, h => by
    rcases List.mem_cons.mp h with rfl | h
    · exact ⟨_, List.mem_cons_self, hrow⟩
    · obtain ⟨row, hmem, hp⟩ := exists_row_of_mem hrest h
      exact ⟨row, List.mem_cons_of_mem _ hmem, hp⟩

theorem mapM_buildRow : ∀ {matrix : List CompressedRow} {bs : List Bytes},
    matrix.mapM (buildRow u) = some bs →
      ∃ ps : List PackedRow, bs = ps.map PackedRow.bytes ∧ List.Forall₂ (RowPacked u) matrix ps
  | [], bs, h => by
    obtain rfl : [] = bs := Option.some.inj h
    exact ⟨[], rfl, .nil⟩
  | row :: matrix, bs, h => by
    rw [List.mapM_cons] at h
    simp only [Option.bind_eq_bind, Option.bind_eq_some_iff, Option.pure_def,
      Option.some.injEq] at h
    obtain ⟨b, hb, rest, hrest, rfl⟩ := h
    obtain ⟨p, rfl, hp⟩ := buildRow_packed hb
    obtain ⟨ps, rfl, hps⟩ := mapM_buildRow hrest
    exact ⟨p :: ps, rfl, .cons hp hps⟩

/-- **What the script writes.** -/
theorem buildBinaryData_packed {matrix : List CompressedRow} {modes : List Int} {bytes : Bytes}
    (h : buildBinaryData matrix modes u = some bytes) :
    ∃ m : PackedMatrix, bytes = m.bytes ∧ m.Holds u matrix modes := by
  unfold buildBinaryData at h
  simp only [Option.bind_eq_bind, Option.bind_eq_some_iff, Option.pure_def, Option.some.injEq] at h
  obtain ⟨r, hr, n, hn, vs, hvs, bs, hbs, rfl⟩ := h
  have hr' : pack 2 ((if u then 64 else 1 : Nat) : Int) = some r := by
    cases u <;> exact hr
  obtain ⟨rfl, _⟩ := pack_natCast hr'
  obtain ⟨rfl, hlt⟩ := pack_natCast hn
  obtain ⟨hlen, hload⟩ := mapM_pack hvs
  obtain ⟨ps, rfl, hps⟩ := mapM_buildRow hbs
  refine ⟨⟨if u then 64 else 1, matrix.length,
    vs.flatten ++ (if modes.length % 2 = 1 then [0, 0] else []), ps⟩,
    by simp [PackedMatrix.bytes], rfl, rfl, hlt, ?_, fun rid cost hcost => ?_, hps⟩
  · rw [List.length_append, hlen]
    split
    · next hodd => rw [hodd, List.length_cons, List.length_cons, List.length_nil]; omega
    · next heven => rw [show modes.length % 2 = 0 by omega, List.length_nil]; rfl
  · obtain ⟨k, hk, hcost⟩ := hload rid cost hcost
    exact ⟨k, Connector.loadUnaligned_append hk _, hcost⟩

namespace Connector

/-! ## Reading -/

theorem readBytes_of_drop {data x rest : Bytes} {ptr : Nat} (h : data.drop ptr = x ++ rest)
    (part : Part) : readBytes data ptr x.length part = .ok x := by
  have hlen := congrArg List.length h
  rw [List.length_drop, List.length_append] at hlen
  rw [readBytes, if_pos (by omega), h, List.take_left]

theorem drop_add_of_drop {data x rest : Bytes} {ptr : Nat} (h : data.drop ptr = x ++ rest) :
    data.drop (ptr + x.length) = rest := by
  simp [← List.drop_drop, h]

theorem readRow_of_drop {u : Bool} {s : Sparse Int} {p : PackedRow} (hp : p.Holds u s)
    {address ptr i : Nat} {data rest : Bytes} (haligned : (address + ptr) % 4 = 0)
    (h : data.drop ptr = p.bytes ++ rest) :
    readRow address data p.chunkBits.length i ptr
      = .ok (.init p.chunkBits p.compactBits p.values, ptr + p.bytes.length) := by
  have hchunk := hp.chunkBits_mod
  have hcompact := hp.compactBits_mod
  rw [PackedRow.bytes, List.append_assoc, List.append_assoc, List.append_assoc,
    List.append_assoc] at h
  have h₁ := drop_add_of_drop h
  have h₂ := drop_add_of_drop h₁
  have h₃ := drop_add_of_drop h₂
  have h₄ := drop_add_of_drop h₃
  have hr := readBytes_of_drop h (.compactBitsSize i)
  have hr₁ := readBytes_of_drop h₁ (.valuesSize i)
  have hr₂ := readBytes_of_drop h₂ (.chunkBits i)
  have hr₃ := readBytes_of_drop h₃ (.compactBits i)
  have hr₄ := readBytes_of_drop h₄ (.values i)
  have ha : ∀ n part, n % 4 = 0 → validateAlignment address (ptr + 2 + 2 + n) part = .ok () :=
    fun n part hn => if_pos (by omega)
  have ha₂ := ha 0 (.chunkBits i) rfl
  have ha₃ := ha p.chunkBits.length (.compactBits i) hchunk
  have ha₄ := ha (p.chunkBits.length + p.compactBits.length) (.values i) (by omega)
  simp only [length_leBytes, Nat.add_zero, ← Nat.add_assoc] at *
  simp only [readRow, hr, hr₁, hr₂, hr₃, hr₄, ha₂, ha₃, ha₄, leNat_leBytes hp.compactBits_lt,
    leNat_leBytes hp.values_lt, bind, Except.bind, pure, Except.pure]
  simp [PackedRow.bytes]
  omega

theorem length_bytes_mod {u : Bool} {s : Sparse Int} {p : PackedRow} (hp : p.Holds u s) :
    p.bytes.length % 4 = 0 := by
  have h₁ := hp.chunkBits_mod
  have h₂ := hp.compactBits_mod
  have h₃ := hp.values_mod
  simp [PackedRow.bytes, length_leBytes]
  omega

/-- All rows, one after the other. -/
theorem readRows_of_drop {u : Bool} {address chunkBitsSize : Nat} {data rest : Bytes} :
    ∀ {matrix : List CompressedRow} {ps : List PackedRow} {i ptr : Nat},
      List.Forall₂ (RowPacked u) matrix ps → (∀ p ∈ ps, p.chunkBits.length = chunkBitsSize) →
      (address + ptr) % 4 = 0 → data.drop ptr = (ps.map PackedRow.bytes).flatten ++ rest →
      readRows address data chunkBitsSize i ps.length ptr
        = .ok (ps.map fun p => .init p.chunkBits p.compactBits p.values)
  | _, _, _, _, .nil, _, _, _ => rfl
  | row :: matrix, p :: ps, i, ptr, .cons hp hps, hsize, haligned, h => by
    have hmod := length_bytes_mod hp.1
    rw [List.map_cons, List.flatten_cons, List.append_assoc] at h
    have hrow := readRow_of_drop (i := i) hp.1 haligned h
    have hnext : (address + (ptr + p.bytes.length)) % 4 = 0 := by omega
    have hrest := readRows_of_drop (i := i + 1) hps
      (List.forall_mem_cons.mp hsize).2 hnext (drop_add_of_drop h)
    rw [hsize p List.mem_cons_self] at hrow
    simp only [List.length_cons, readRows, hrow, hrest, bind, Except.bind, pure, Except.pure,
      List.map_cons]

theorem length_chunkBits {u : Bool} {row : CompressedRow} {p : PackedRow}
    (hp : RowPacked u row p) {m : Metadata} (h : m.lsize = row.length) :
    p.chunkBits.length = m.chunkBitsSize := by
  have hlen := congrArg List.length hp.1.chunkBits
  rw [length_bitsOf, padTo, List.length_append, List.length_replicate, Sparse.length_chunkBits,
    length_splitChunk, storedRow, List.length_map, ← h] at hlen
  rw [Metadata.chunkBitsSize, Metadata.numChunkBits, kChunkWidth]
  omega

/-- The metadata of compiled bytes. -/
theorem parseMetadata_bytes {m : PackedMatrix} (hres : m.resolution < 256 ^ 2)
    (hsize : m.size < 256 ^ 2) :
    parseMetadata m.bytes = .ok ⟨kConnectorMagicNumber, m.resolution, m.size, m.size⟩ := by
  have hlen : ¬m.bytes.length < Metadata.kByteSize := by
    simp [PackedMatrix.bytes, fileMagic, length_leBytes, Metadata.kByteSize]
    omega
  have h₀ : m.bytes.take 2 = fileMagic := rfl
  have h₁ : (m.bytes.drop 2).take 2 = leBytes 2 m.resolution := rfl
  have h₂ : (m.bytes.drop 4).take 2 = leBytes 2 m.size := rfl
  have h₃ : (m.bytes.drop 6).take 2 = leBytes 2 m.size := rfl
  have hmagic : leNat fileMagic = kConnectorMagicNumber := by decide
  simp [parseMetadata, hlen, h₀, h₁, h₂, h₃, hmagic, leNat_leBytes hres, leNat_leBytes hsize]

/-- **The connector accepts the compiled bytes.** -/
theorem create_packed {u : Bool} {m : PackedMatrix} {matrix : List CompressedRow}
    {modes : List Int} (hm : m.Holds u matrix modes) (hmodes : modes.length = matrix.length)
    (hsquare : ∀ row ∈ matrix, row.length = matrix.length) {address : Nat}
    (haligned : address % 4 = 0) :
    create address m.bytes = .ok {
      rows := m.rows.map fun p => (Row.init p.chunkBits p.compactBits p.values).buildIndex
      defaultCost := m.defaultCost
      resolution := m.resolution
      use1ByteValue := u
      cache := fun _ => 0 } := by
  have hres : m.resolution < 256 ^ 2 := by
    rw [hm.resolution]
    cases u <;> decide
  have hrows : m.rows.length = m.size := by rw [hm.size, hm.rows.length_eq]
  have h₀ : m.bytes.drop 8 = m.defaultCost ++ (m.rows.map PackedRow.bytes).flatten := rfl
  have hdefault := readBytes_of_drop h₀ .defaultCost
  rw [← List.append_nil (m.rows.map PackedRow.bytes).flatten] at h₀
  have hlen : m.defaultCost.length = (m.size + m.size % 2) * 2 := by
    rw [hm.defaultCost_length, hmodes, hm.size]
  have hchunk : ∀ p ∈ m.rows, p.chunkBits.length
      = Metadata.chunkBitsSize ⟨kConnectorMagicNumber, m.resolution, m.size, m.size⟩ := by
    intro p hp
    obtain ⟨row, hrow, hpacked⟩ := exists_row_of_mem hm.rows hp
    exact length_chunkBits hpacked (hm.size.trans (hsquare row hrow).symm)
  have hafter : (address + (8 + m.defaultCost.length)) % 4 = 0 := by omega
  have hread := readRows_of_drop (i := 0) hm.rows hchunk hafter (drop_add_of_drop h₀)
  have ha : validateAlignment address 8 .defaultCost = .ok () := if_pos (by omega)
  have huse : Metadata.use1ByteValue ⟨kConnectorMagicNumber, m.resolution, m.size, m.size⟩ = u := by
    rw [Metadata.use1ByteValue, hm.resolution]
    cases u <;> rfl
  rw [hlen, ← Metadata.defaultCostArraySize.eq_def ⟨kConnectorMagicNumber, m.resolution,
    m.size, m.size⟩] at hdefault hread
  rw [hrows] at hread
  simp only [create, parseMetadata_bytes hres hm.size_lt, Metadata.kByteSize, hdefault, ha, hread,
    huse, bind, Except.bind, pure, Except.pure, List.map_map]
  rfl

/-! ## Looking a cost up -/

variable {c : Connector} {rid lid : Nat} {row : Row}

theorem lookupCost_of_none (hrow : c.rows[rid]? = some row)
    (h : row.getValue lid c.use1ByteValue = some none) :
    c.lookupCost rid lid = loadUnaligned 2 c.defaultCost (2 * rid) := by
  simp [lookupCost, hrow, h]

theorem lookupCost_of_some (hrow : c.rows[rid]? = some row) {value : Nat}
    (h : row.getValue lid c.use1ByteValue = some (some value)) :
    c.lookupCost rid lid = if value = kInvalidCost then some kInvalidCost
      else some (value * c.resolution) := by
  simp [lookupCost, hrow, h]

end Connector

/-- A cost as it comes back: rounded down to the resolution when it is written in one byte. -/
def readCost (use1byteCost : Bool) (modeValue cost : Int) : Int :=
  if cost = modeValue ∨ cost = invalidCost then cost
  else if use1byteCost then cost / resolutionFor1Byte * resolutionFor1Byte else cost

/-- Scaling what was found. -/
theorem scaled_eq {cost modeValue : Int} {n : Nat} (hn : (n : Int) = Connector.foundValue u cost)
    (hlt : u = true → cost ≠ invalidCost → n < 256) (hne : cost ≠ modeValue) :
    ((if n = Connector.kInvalidCost then Connector.kInvalidCost else
      n * (if u then 64 else 1) : Nat) : Int) = readCost u modeValue cost := by
  by_cases hinvalid : cost = invalidCost
  · have hn' : (n : Int) = invalidCost := by
      cases u <;> simpa [Connector.foundValue, hinvalid] using hn
    have h : n = Connector.kInvalidCost := Int.ofNat.inj hn'
    rw [if_pos h, readCost, if_pos (Or.inr hinvalid), hinvalid]
    rfl
  · have hneither : ¬(cost = modeValue ∨ cost = invalidCost) := by simp [hne, hinvalid]
    rw [readCost, if_neg hneither]
    cases u with
    | false =>
      have hn' : (n : Int) = cost := hn
      have h : n ≠ Connector.kInvalidCost := by
        rintro rfl
        exact hinvalid hn'.symm
      simpa [h] using hn'
    | true =>
      have hn' : (n : Int) = cost / resolutionFor1Byte := by
        simpa [Connector.foundValue, hinvalid] using hn
      have h : n ≠ Connector.kInvalidCost :=
        Nat.ne_of_lt (Nat.lt_trans (hlt rfl hinvalid) (by decide))
      rw [if_neg h, if_pos rfl, if_pos rfl, ← hn']
      rfl

theorem exists_packed_of_getElem? : ∀ {matrix : List CompressedRow}
    {ps : List PackedRow}, List.Forall₂ (RowPacked u) matrix ps → ∀ {i : Nat} {row : CompressedRow},
      matrix[i]? = some row → ∃ p, ps[i]? = some p ∧ RowPacked u row p
  | _, _, .cons (b := p) hrow _, 0, row, h => by
    rw [List.getElem?_cons_zero, Option.some.injEq] at h
    exact ⟨p, rfl, h ▸ hrow⟩
  | _, _, .cons _ hrest, i + 1, row, h => exists_packed_of_getElem? hrest h

/-- The rows of a square matrix, before and after compression. -/
theorem compressMatrixByModeValue_eq {matrix : List (List Int)} {modes : List Int}
    {compressed : List CompressedRow}
      (h : compressMatrixByModeValue matrix modes = some compressed) :
    modes.length = matrix.length ∧ compressed.length = matrix.length ∧
      (∀ row ∈ compressed, ∃ row' ∈ matrix, row.length = row'.length) ∧
      ∀ (i : Nat) (row : List Int) (modeValue : Int), matrix[i]? = some row →
        modes[i]? = some modeValue → compressed[i]?
          = some (row.map fun cost => if cost = modeValue then none else some cost) := by
  unfold compressMatrixByModeValue at h
  split at h
  · next hlen =>
    cases h
    refine ⟨hlen.symm, by rw [List.length_zipWith, hlen, Nat.min_self], fun row hrow => ?_,
      fun i row modeValue hrow hmode => ?_⟩
    · obtain ⟨i, hi, rfl⟩ := List.mem_iff_getElem.mp hrow
      rw [List.length_zipWith] at hi
      rw [List.getElem_zipWith, List.length_map]
      exact ⟨_, List.getElem_mem (by omega), rfl⟩
    · rw [List.getElem?_zipWith, hrow, hmode]
  · cases h

/-- **The connector finds the cost of every cell.** -/
theorem lookupCost_compiled {matrix : List (List Int)} {modes : List Int} {bytes : Bytes}
    (h : compile matrix modes u = some bytes) (hsquare : ∀ row ∈ matrix, row.length = matrix.length)
    {address : Nat} (haligned : address % 4 = 0) :
    ∃ c : Connector, Connector.create address bytes = .ok c ∧ (∀ b, c.cache b = 0) ∧
      matrix.length < 2 ^ 16 ∧ modes.length = matrix.length ∧
      ∀ rid lid row cost modeValue, matrix[rid]? = some row → row[lid]? = some cost →
        modes[rid]? = some modeValue →
          ∃ n : Nat, c.lookupCost rid lid = some n ∧ (n : Int) = readCost u modeValue cost := by
  unfold compile at h
  simp only [Option.bind_eq_bind, Option.bind_eq_some_iff] at h
  obtain ⟨compressed, hcompressed, hbuild⟩ := h
  obtain ⟨hmodes, hlen, hrows, hcells⟩ := compressMatrixByModeValue_eq hcompressed
  obtain ⟨m, rfl, hm⟩ := buildBinaryData_packed hbuild
  have hsquare' : ∀ row ∈ compressed, row.length = compressed.length := fun row hrow => by
    obtain ⟨row', hrow', heq⟩ := hrows row hrow
    rw [heq, hsquare row' hrow', hlen]
  have hsize : matrix.length < 2 ^ 16 := by
    rw [← hlen, ← hm.size]
    exact hm.size_lt
  refine ⟨_, Connector.create_packed hm (hmodes.trans hlen.symm) hsquare' haligned, fun _ => rfl,
    hsize, hmodes, fun rid lid row cost modeValue hrow hcell hmode => ?_⟩
  obtain ⟨p, hp, hholds, hcosts⟩ :=
    exists_packed_of_getElem? hm.rows (hcells rid row modeValue hrow hmode)
  have hp' : (m.rows.map fun p =>
      (Connector.Row.init p.chunkBits p.compactBits p.values).buildIndex)[rid]?
        = some (Connector.Row.init p.chunkBits p.compactBits p.values).buildIndex := by
    simp [List.getElem?_map, hp]
  have hlt := (List.getElem?_eq_some_iff.mp hcell).1
  have hrowlen := hsquare row (List.mem_of_getElem? hrow)
  obtain ⟨hnone, hsome⟩ := Connector.Row.getValue_eq hholds hcosts
    (by rw [List.length_map, hrowlen]; exact hsize) (i := lid) (by rwa [List.length_map])
  rw [List.getElem_map, (List.getElem?_eq_some_iff.mp hcell).2] at hnone hsome
  by_cases heq : cost = modeValue
  · obtain ⟨n, hn, hcost⟩ := hm.defaultCost rid modeValue hmode
    refine ⟨n, ?_, by rw [hcost, readCost, if_pos (Or.inl heq), heq]⟩
    rw [Connector.lookupCost_of_none hp' (hnone (if_pos heq)), hn]
  · obtain ⟨n, hn, hfound, hbound⟩ := hsome cost (if_neg heq)
    refine ⟨_, ?_, scaled_eq hfound hbound heq⟩
    rw [Connector.lookupCost_of_some hp' hn, hm.resolution]
    split <;> rfl

end Mozkey.Converter
