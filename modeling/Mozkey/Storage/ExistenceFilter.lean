import Mozkey.Infra.Bits
import Mozkey.Storage.LruStorage

/-!
# The existence filter

`storage/existence_filter.cc`, a Bloom filter: a bitmap cut into blocks, its builder, and the buffer
of words it is written to and read from. CityHash is a parameter.

* `existenceFilter_faithful_iff` — what was inserted exists, also after the filter was written and
  read, and reading any buffer is safe if and only if no valid header in it has the size zero
-/

namespace Mozkey.Storage

open Infra Base

/-! ## Bitmaps -/

def kBlockBits : Nat := 2 ^ 21
def kBlockWords : Nat := 2 ^ 16

structure BlockDimensions where
  count : Nat
  lastSize : Nat

def blockDimensions (bits : Nat) : BlockDimensions :=
  let bitsInLastBlock := bits % kBlockBits
  if bitsInLastBlock ≠ 0 then ⟨bits / kBlockBits + 1, (bitsInLastBlock + 31) / 32⟩
  else ⟨bits / kBlockBits, kBlockWords⟩

abbrev Blocks := List (List (BitVec 32))

/-- `count - 1` of `uint32_t` -/
def BlockDimensions.before (dimensions : BlockDimensions) : Nat :=
  (dimensions.count + (2 ^ 32 - 1)) % 2 ^ 32

/-- The blocks before the last one are cut off the buffer. There are none where the buffer has no
such prefix to be removed. -/
def cutBlocks (lastSize : Nat) : Nat → List (BitVec 32) → Option Blocks
  | 0, buf => some [buf.take lastSize]
  | n + 1, buf =>
    if buf.length < kBlockWords then none
    else (cutBlocks lastSize n (buf.drop kBlockWords)).map (buf.take kBlockWords :: ·)

def blockBitmap (size : Nat) (buf : List (BitVec 32)) : Option Blocks :=
  let dimensions := blockDimensions size
  cutBlocks dimensions.lastSize dimensions.before buf

/-- None where the index lies outside. -/
def Blocks.get (blocks : Blocks) (index : Nat) : Option Bool :=
  (blocks[index / kBlockBits]?).bind fun block =>
    (block[index % kBlockBits / 32]?).map fun word => word.getLsbD (index % 32)

def Blocks.set (blocks : Blocks) (index : Nat) : Blocks :=
  blocks.modify (index / kBlockBits) fun block =>
    block.modify (index % kBlockBits / 32) fun word => word ||| (1#32 <<< (index % 32))

/-- The blocks of a new `BlockBitmapBuilder`. -/
def newBlocks (size : Nat) : Blocks :=
  let dimensions := blockDimensions size
  List.replicate dimensions.before (List.replicate kBlockWords 0#32) ++
    [List.replicate dimensions.lastSize 0#32]

/-! ## Filters -/

def kFpTypeSize : Nat := 2
def kHeaderSize : Nat := 3

structure ExistenceFilterParams where
  size : Nat
  expectedNelts : Nat
  numHashes : Nat
  fpType : Nat

structure ExistenceFilter where
  params : ExistenceFilterParams
  rep : Blocks

/-- `std::rotl(hash, 8)` -/
def rotl8 (hash : UInt64) : UInt64 := hash <<< 8 ||| hash >>> 56

/-- None where an index lies outside, or is taken modulo zero. -/
def existsHash (size : Nat) (rep : Blocks) : Nat → UInt64 → Option Bool
  | 0, _ => some true
  | n + 1, hash =>
    let hash := rotl8 hash
    if size = 0 then none
    else
      match rep.get (hash.toNat % size) with
      | some true => existsHash size rep n hash
      | found => found

def insertHash (size : Nat) : Nat → UInt64 → Blocks → Blocks
  | 0, _, rep => rep
  | n + 1, hash, rep =>
    let hash := rotl8 hash
    insertHash size n hash (rep.set (hash.toNat % size))

section Fingerprints

variable (cityFingerprint : Bytes → UInt64)

def fingerprint (str : Bytes) (fpType : Nat) : UInt64 :=
  if fpType = 0 then legacyFingerprint str else cityFingerprint str

def ExistenceFilter.exists (filter : ExistenceFilter) (key : Bytes) : Option Bool :=
  existsHash filter.params.size filter.rep filter.params.numHashes
    (fingerprint cityFingerprint key filter.params.fpType)

/-- A builder has the same members as the filter that it builds. -/
def ExistenceFilter.insert (builder : ExistenceFilter) (key : Bytes) : ExistenceFilter :=
  { builder with
    rep := insertHash builder.params.size builder.params.numHashes
      (fingerprint cityFingerprint key builder.params.fpType) builder.rep }

/-- `Build` after these keys were inserted. -/
def buildFilter (params : ExistenceFilterParams) (keys : List Bytes) : ExistenceFilter :=
  keys.foldl (ExistenceFilter.insert cityFingerprint) ⟨params, newBlocks params.size⟩

end Fingerprints

/-! ## The buffer -/

def bitsToWords (bits : Nat) : Nat :=
  let words := (bits + 31) % 2 ^ 32 / 32
  -- the sum has overflowed
  if 0 < bits ∧ words = 0 then 2 ^ (32 - 5) else words

namespace ExistenceFilter

def requiredBytes (builder : ExistenceFilter) : Nat :=
  (kHeaderSize + bitsToWords builder.params.size) * 4

/-- What `SerializeAsString` writes from the beginning of its buffer on. -/
def written (builder : ExistenceFilter) : Bytes :=
  leBytes 4 builder.params.size ++ leBytes 4 builder.params.expectedNelts ++
    leBytes 2 builder.params.numHashes ++ leBytes 2 builder.params.fpType ++
    builder.rep.flatten.flatMap fun word => leBytes 4 word.toNat

/-- The buffer. None where something is written behind its end. -/
def serializeAsString (builder : ExistenceFilter) : Option Bytes :=
  if builder.written.length ≤ builder.requiredBytes then
    some (builder.written ++
      List.replicate (builder.requiredBytes - builder.written.length) 0)
  else none

end ExistenceFilter

def readHeader : List (BitVec 32) → Except String ExistenceFilterParams
  | size :: expectedNelts :: v :: _ =>
    let numHashes := v.toNat % 2 ^ 16
    let fpType := v.toNat / 2 ^ 16
    if 8 ≤ numHashes ∨ numHashes ≤ 0 then .error "Bad number of hashes (header.k)"
    else if kFpTypeSize ≤ fpType then .error "unsupported fp type"
    else .ok ⟨size.toNat, expectedNelts.toNat, numHashes, fpType⟩
  | _ => .error "Not enough bufsize: could not read header"

/-- `ExistenceFilter::Read`. None where its behaviour is not defined. -/
def readFilter (buf : List (BitVec 32)) : Option (Except String ExistenceFilter) :=
  match readHeader buf with
  | .error _ => some (.error "Invalid format: could not read header")
  | .ok params =>
    let buf := buf.drop kHeaderSize
    if buf.length < bitsToWords params.size then
      some (.error "Not enough bufsize: could not read")
    else (blockBitmap params.size buf).map fun rep => .ok ⟨params, rep⟩

/-- The words in the bytes of a buffer. -/
def wordsOf : Bytes → List (BitVec 32)
  | a :: b :: c :: d :: rest => BitVec.ofNat 32 (leNat [a, b, c, d]) :: wordsOf rest
  | _ => []

/-! ## The blocks of a size -/

variable {size index : Nat} {blocks : Blocks}

theorem kBlockBits_eq : kBlockBits = 2097152 := rfl

theorem kBlockWords_eq : kBlockWords = 65536 := rfl

/-- The blocks of a size hold its bits, and no word more. -/
theorem blockDimensions_spec (hpos : 0 < size) (hsize : size < 2 ^ 32) :
    (blockDimensions size).count = (blockDimensions size).before + 1 ∧
      (blockDimensions size).lastSize ≤ kBlockWords ∧
      (blockDimensions size).before * kBlockWords + (blockDimensions size).lastSize =
        bitsToWords size := by
  unfold BlockDimensions.before blockDimensions bitsToWords
  rw [kBlockBits_eq, kBlockWords_eq]
  dsimp only
  split_ifs <;> dsimp only <;> omega

/-- The last block is big enough for the last bit. -/
theorem index_spec (hsize : size < 2 ^ 32) (h : index < size) :
    index / kBlockBits ≤ (blockDimensions size).before ∧
      (index / kBlockBits = (blockDimensions size).before →
        index % kBlockBits / 32 < (blockDimensions size).lastSize) := by
  unfold BlockDimensions.before blockDimensions
  rw [kBlockBits_eq, kBlockWords_eq]
  dsimp only
  split_ifs <;> dsimp only <;> omega

/-- The blocks have the lengths that are said for a size. -/
def HasShape (size : Nat) (blocks : Blocks) : Prop :=
  blocks.map List.length =
    List.replicate (blockDimensions size).before kBlockWords ++ [(blockDimensions size).lastSize]

theorem hasShape_newBlocks (size : Nat) : HasShape size (newBlocks size) := by
  unfold HasShape newBlocks
  simp

theorem HasShape.exists_block (hshape : HasShape size blocks) (hsize : size < 2 ^ 32)
    (h : index < size) :
    ∃ block, blocks[index / kBlockBits]? = some block ∧ index % kBlockBits / 32 < block.length := by
  obtain ⟨hle, hlast⟩ := index_spec hsize h
  have hlength := congrArg List.length hshape
  rw [List.length_map, List.length_append, List.length_replicate, List.length_singleton] at hlength
  have hin : index / kBlockBits < blocks.length := by omega
  obtain ⟨block, hblock⟩ : ∃ block, blocks[index / kBlockBits]? = some block :=
    ⟨_, List.getElem?_eq_getElem hin⟩
  refine ⟨block, hblock, ?_⟩
  have hsome : (blocks.map List.length)[index / kBlockBits]? = some block.length := by
    simp [List.getElem?_map, hblock]
  rw [hshape] at hsome
  obtain hlt | heq := Nat.lt_or_eq_of_le hle
  · rw [List.getElem?_append_left (by rwa [List.length_replicate]),
      List.getElem?_replicate_of_lt hlt, Option.some.injEq] at hsome
    rw [← hsome, kBlockBits_eq, kBlockWords_eq]
    omega
  · rw [heq, List.getElem?_append_right (by rw [List.length_replicate]), List.length_replicate,
      Nat.sub_self, List.getElem?_cons_zero, Option.some.injEq] at hsome
    rw [← hsome]
    exact hlast heq

theorem HasShape.set (hshape : HasShape size blocks) (index : Nat) :
    HasShape size (blocks.set index) := by
  unfold HasShape at *
  rw [← hshape]
  refine List.ext_getElem? fun i => ?_
  rw [List.getElem?_map, List.getElem?_map, Blocks.set, List.getElem?_modify]
  cases blocks[i]? with
  | none => rfl
  | some block =>
    rw [Option.map_eq_map, Option.map_some, Option.map_some, Option.map_some]
    split
    · simp
    · rfl

/-! ## Setting bits -/

theorem get_eq_some {b : Bool} : blocks.get index = some b ↔ ∃ block word,
    blocks[index / kBlockBits]? = some block ∧ block[index % kBlockBits / 32]? = some word ∧
      word.getLsbD (index % 32) = b := by
  simp [Blocks.get, Option.bind_eq_some_iff]

theorem HasShape.exists_get (hshape : HasShape size blocks) (hsize : size < 2 ^ 32)
    (h : index < size) : ∃ b, blocks.get index = some b := by
  obtain ⟨block, hblock, hlt⟩ := hshape.exists_block hsize h
  exact ⟨_, get_eq_some.mpr ⟨block, _, hblock, List.getElem?_eq_getElem hlt, rfl⟩⟩

theorem HasShape.get_set_self (hshape : HasShape size blocks) (hsize : size < 2 ^ 32)
    (h : index < size) : (blocks.set index).get index = some true := by
  obtain ⟨block, hblock, hlt⟩ := hshape.exists_block hsize h
  refine get_eq_some.mpr ⟨block.modify (index % kBlockBits / 32) fun word =>
    word ||| (1#32 <<< (index % 32)),
    block[index % kBlockBits / 32] ||| (1#32 <<< (index % 32)), ?_, ?_, ?_⟩
  · simp [Blocks.set, hblock]
  · simp [List.getElem?_eq_getElem hlt]
  · have hbit : index % 32 < 32 := Nat.mod_lt _ (by decide)
    simp [hbit]

/-- A bit that is set stays set. -/
theorem get_set_of_get {other : Nat} (h : blocks.get index = some true) :
    (blocks.set other).get index = some true := by
  obtain ⟨block, word, hblock, hword, hbit⟩ := get_eq_some.mp h
  refine get_eq_some.mpr ?_
  rw [Blocks.set, List.getElem?_modify, hblock, Option.map_eq_map, Option.map_some]
  split
  · refine ⟨_, if other % kBlockBits / 32 = index % kBlockBits / 32 then
      word ||| (1#32 <<< (other % 32)) else word, rfl, ?_, ?_⟩
    · simp [List.getElem?_modify, hword]
    · split
      · simp [hbit]
      · exact hbit
  · exact ⟨block, word, rfl, hword, hbit⟩

/-! ## Inserting -/

theorem HasShape.insertHash : ∀ {blocks : Blocks} (n : Nat) (hash : UInt64),
    HasShape size blocks → HasShape size (Storage.insertHash size n hash blocks)
  | _, 0, _, hshape => hshape
  | _, n + 1, _, hshape => insertHash n _ (hshape.set _)

theorem get_insertHash : ∀ {blocks : Blocks} (n : Nat) (hash : UInt64),
    blocks.get index = some true → (insertHash size n hash blocks).get index = some true
  | _, 0, _, h => h
  | _, n + 1, _, h => get_insertHash n _ (get_set_of_get h)

theorem existsHash_eq_some_true : ∀ {n : Nat} {hash : UInt64}, 0 < size →
    (existsHash size blocks (n + 1) hash = some true ↔
      blocks.get ((rotl8 hash).toNat % size) = some true ∧
        existsHash size blocks n (rotl8 hash) = some true) := by
  intro n hash hpos
  rw [existsHash, if_neg (by omega)]
  split
  · next hget => exact ⟨fun h => ⟨hget, h⟩, fun h => h.2⟩
  · next hget => exact ⟨fun h => absurd h hget, fun h => absurd h.1 hget⟩

/-- What exists still exists when more was set. -/
theorem existsHash_mono {blocks' : Blocks} (hpos : 0 < size)
    (hmono : ∀ index, blocks.get index = some true → blocks'.get index = some true) :
    ∀ {n : Nat} {hash : UInt64}, existsHash size blocks n hash = some true →
      existsHash size blocks' n hash = some true
  | 0, _, _ => rfl
  | n + 1, hash, h => by
    rw [existsHash_eq_some_true hpos] at h ⊢
    exact ⟨hmono _ h.1, existsHash_mono hpos hmono h.2⟩

/-- **What was inserted exists.** -/
theorem HasShape.existsHash_insertHash (hpos : 0 < size) (hsize : size < 2 ^ 32) :
    ∀ {blocks : Blocks} (n : Nat) (hash : UInt64), HasShape size blocks →
      existsHash size (Storage.insertHash size n hash blocks) n hash = some true
  | _, 0, _, _ => rfl
  | _, n + 1, _, hshape => by
    rw [existsHash_eq_some_true hpos]
    refine ⟨?_, existsHash_insertHash hpos hsize n _ (hshape.set _)⟩
    exact get_insertHash n _ (hshape.get_set_self hsize (Nat.mod_lt _ hpos))

/-- Every index lies inside the blocks. -/
theorem HasShape.existsHash_ne_none (hshape : HasShape size blocks) (hpos : 0 < size)
    (hsize : size < 2 ^ 32) : ∀ (n : Nat) (hash : UInt64), existsHash size blocks n hash ≠ none
  | 0, _ => Option.some_ne_none _
  | n + 1, hash => by
    obtain ⟨b, hget⟩ := hshape.exists_get hsize (Nat.mod_lt (rotl8 hash).toNat hpos)
    rw [existsHash, if_neg (by omega), hget]
    cases b with
    | true => exact hshape.existsHash_ne_none hpos hsize n _
    | false => exact Option.some_ne_none _

section Keys

variable {cityFingerprint : Bytes → UInt64} {params : ExistenceFilterParams} {keys : List Bytes}
  {key : Bytes} {filter : ExistenceFilter}

theorem foldl_insert_params : ∀ (keys : List Bytes) (filter : ExistenceFilter),
    (keys.foldl (ExistenceFilter.insert cityFingerprint) filter).params = filter.params
  | [], _ => rfl
  | _ :: keys, _ => foldl_insert_params keys _

theorem foldl_insert_shape : ∀ {keys : List Bytes} {filter : ExistenceFilter},
    HasShape filter.params.size filter.rep →
    HasShape filter.params.size
      (keys.foldl (ExistenceFilter.insert cityFingerprint) filter).rep
  | [], _, h => h
  | key :: keys, filter, h => by
    rw [List.foldl_cons]
    exact foldl_insert_shape (h.insertHash _ _)

theorem foldl_insert_get : ∀ {keys : List Bytes} {filter : ExistenceFilter},
    filter.rep.get index = some true →
    (keys.foldl (ExistenceFilter.insert cityFingerprint) filter).rep.get index = some true
  | [], _, h => h
  | key :: keys, filter, h => by
    simpa using foldl_insert_get (get_insertHash _ _ h)

theorem foldl_insert_exists : ∀ {keys : List Bytes} {filter : ExistenceFilter},
    0 < filter.params.size → filter.params.size < 2 ^ 32 →
    HasShape filter.params.size filter.rep → ∀ key ∈ keys,
      (keys.foldl (ExistenceFilter.insert cityFingerprint) filter).exists cityFingerprint key =
        some true
  | [], _, _, _, _, _, hkey => absurd hkey List.not_mem_nil
  | first :: keys, filter, hpos, hsize, hshape, key, hkey => by
    obtain rfl | hkey := List.mem_cons.mp hkey
    · rw [List.foldl_cons, ExistenceFilter.exists, foldl_insert_params]
      exact existsHash_mono hpos (fun _ => foldl_insert_get)
        (HasShape.existsHash_insertHash hpos hsize _ _ hshape)
    · have hinserted : HasShape (filter.insert cityFingerprint first).params.size
          (filter.insert cityFingerprint first).rep := hshape.insertHash _ _
      rw [List.foldl_cons]
      refine foldl_insert_exists ?_ ?_ hinserted key hkey
      · exact hpos
      · exact hsize

/-! ## Writing and reading -/

theorem wordsOf_leBytes {n : Nat} (h : n < 2 ^ 32) (rest : Bytes) :
    wordsOf (leBytes 4 n ++ rest) = BitVec.ofNat 32 n :: wordsOf rest := by
  have hread : leNat (leBytes 4 n) = n := leNat_leBytes (by omega)
  conv_rhs => rw [← hread]
  rfl

/-- The two halves of a word. -/
theorem wordsOf_halves {low high : Nat} (hlow : low < 2 ^ 16) (hhigh : high < 2 ^ 16)
    (rest : Bytes) : wordsOf (leBytes 2 low ++ leBytes 2 high ++ rest) =
      BitVec.ofNat 32 (low + 2 ^ 16 * high) :: wordsOf rest := by
  have hlow' : leNat (leBytes 2 low) = low := leNat_leBytes (by omega)
  have hhigh' : leNat (leBytes 2 high) = high := leNat_leBytes (by omega)
  have hvalue : leNat (leBytes 2 low ++ leBytes 2 high) = low + 2 ^ 16 * high := by
    conv_rhs => rw [← hlow', ← hhigh']
    simp [leBytes, leNat]
    omega
  conv_rhs => rw [← hvalue]
  rfl

theorem wordsOf_flatMap : ∀ words : List (BitVec 32),
    wordsOf (words.flatMap fun word => leBytes 4 word.toNat) = words
  | [] => rfl
  | word :: words => by
    simp [wordsOf_leBytes word.isLt, wordsOf_flatMap words]

theorem length_flatMap_leBytes : ∀ words : List (BitVec 32),
    (words.flatMap fun word => leBytes 4 word.toNat).length = words.length * 4
  | [] => rfl
  | word :: words => by
    simp [length_leBytes, length_flatMap_leBytes words]
    omega

theorem HasShape.length_flatten (hshape : HasShape size blocks) (hpos : 0 < size)
    (hsize : size < 2 ^ 32) : blocks.flatten.length = bitsToWords size := by
  rw [List.length_flatten, hshape, List.sum_append, List.sum_replicate_nat, List.sum_singleton]
  exact (blockDimensions_spec hpos hsize).2.2

/-- Blocks that follow each other are cut where they begin. -/
theorem cutBlocks_flatten {lastSize : Nat} : ∀ {n : Nat} {blocks : Blocks},
    blocks.map List.length = List.replicate n kBlockWords ++ [lastSize] →
    cutBlocks lastSize n blocks.flatten = some blocks
  | 0, blocks, h => by
    obtain ⟨block, rest, rfl, hblock, hrest⟩ := List.map_eq_cons_iff.mp h
    simp [List.map_eq_nil_iff.mp hrest, cutBlocks, ← hblock]
  | n + 1, blocks, h => by
    rw [List.replicate_succ, List.cons_append] at h
    obtain ⟨block, rest, rfl, hblock, hrest⟩ := List.map_eq_cons_iff.mp h
    rw [cutBlocks, List.flatten_cons, if_neg, List.take_left' hblock, List.drop_left' hblock,
      cutBlocks_flatten hrest, Option.map_some]
    simp
    omega

variable {buf : List (BitVec 32)}

/-- A buffer that is long enough is cut into blocks of the right lengths. -/
theorem exists_cutBlocks {lastSize n : Nat} (h : n * kBlockWords + lastSize ≤ buf.length) :
    ∃ blocks, cutBlocks lastSize n buf = some blocks ∧
      blocks.map List.length = List.replicate n kBlockWords ++ [lastSize] := by
  induction n generalizing buf with
  | zero =>
    rw [Nat.zero_mul, Nat.zero_add] at h
    refine ⟨[buf.take lastSize], rfl, ?_⟩
    simp [Nat.min_eq_left h]
  | succ n ih =>
    rw [Nat.succ_mul] at h
    have hlen : n * kBlockWords + lastSize ≤ (buf.drop kBlockWords).length := by
      simp
      omega
    obtain ⟨blocks, hcut, hlengths⟩ := ih hlen
    refine ⟨buf.take kBlockWords :: blocks, ?_, ?_⟩
    · rw [cutBlocks, if_neg (by omega), hcut, Option.map_some]
    · rw [List.map_cons, hlengths, List.length_take, Nat.min_eq_left (by omega),
        List.replicate_succ, List.cons_append]

/-! ## What a filter promises -/

/-- The parameters that a builder takes. -/
structure ExistenceFilterParams.Valid (params : ExistenceFilterParams) : Prop where
  size : 1 ≤ params.size ∧ params.size < 2 ^ 32
  expectedNelts : params.expectedNelts < 2 ^ 32
  numHashes : 1 ≤ params.numHashes ∧ params.numHashes ≤ 7
  fpType : params.fpType < kFpTypeSize

/-- No key is lost, and the buffer that is written is read as the same filter. -/
structure FaithfulFilter (cityFingerprint : Bytes → UInt64) (params : ExistenceFilterParams)
    (keys : List Bytes) : Prop where
  exists_of_mem : ∀ key ∈ keys,
    (buildFilter cityFingerprint params keys).exists cityFingerprint key = some true
  fills : (buildFilter cityFingerprint params keys).written.length =
    (buildFilter cityFingerprint params keys).requiredBytes
  read : ∃ bytes filter, (buildFilter cityFingerprint params keys).serializeAsString = some bytes ∧
    readFilter (wordsOf bytes) = some (.ok filter) ∧ filter.params = params ∧
    ∀ key, filter.exists cityFingerprint key =
      (buildFilter cityFingerprint params keys).exists cityFingerprint key

/-- A buffer is refused, or every question to its filter is answered. -/
def ReadIsSafe (cityFingerprint : Bytes → UInt64) (buf : List (BitVec 32)) : Prop :=
  ∃ result, readFilter buf = some result ∧
    ∀ filter, result = .ok filter → ∀ key, filter.exists cityFingerprint key ≠ none

/-- A header that is accepted, with the size zero. -/
def ZeroSizeHeader (buf : List (BitVec 32)) : Prop :=
  ∃ expectedNelts v rest, buf = 0#32 :: expectedNelts :: v :: rest ∧
    1 ≤ v.toNat % 2 ^ 16 ∧ v.toNat % 2 ^ 16 ≤ 7 ∧ v.toNat / 2 ^ 16 < kFpTypeSize

theorem buildFilter_params : (buildFilter cityFingerprint params keys).params = params :=
  foldl_insert_params _ _

theorem buildFilter_shape : HasShape params.size (buildFilter cityFingerprint params keys).rep := by
  have hnew : HasShape (ExistenceFilter.mk params (newBlocks params.size)).params.size
      (ExistenceFilter.mk params (newBlocks params.size)).rep := hasShape_newBlocks _
  exact foldl_insert_shape hnew

theorem length_written (filter : ExistenceFilter) :
    filter.written.length = (kHeaderSize + filter.rep.flatten.length) * 4 := by
  unfold ExistenceFilter.written kHeaderSize
  rw [List.length_append, List.length_append, List.length_append, List.length_append,
    length_flatMap_leBytes, length_leBytes, length_leBytes, length_leBytes, length_leBytes]
  omega

theorem readHeader_ok {params : ExistenceFilterParams} (h : readHeader buf = .ok params) :
    ∃ size expectedNelts v rest,
    buf = size :: expectedNelts :: v :: rest ∧ params.size = size.toNat ∧
      params.numHashes = v.toNat % 2 ^ 16 ∧ 1 ≤ v.toNat % 2 ^ 16 ∧ v.toNat % 2 ^ 16 ≤ 7 ∧
      v.toNat / 2 ^ 16 < kFpTypeSize := by
  unfold readHeader at h
  split at h
  · next size expectedNelts v rest =>
    dsimp only at h
    split at h
    · cases h
    · next hhashes =>
      split at h
      · cases h
      · next htype =>
        cases h
        exact ⟨size, expectedNelts, v, rest, rfl, rfl, rfl, by omega, by omega, by omega⟩
  · cases h

/-- The words of a written filter are read as the filter. -/
theorem readFilter_written {filter : ExistenceFilter} (hvalid : filter.params.Valid)
    (hshape : HasShape filter.params.size filter.rep) :
    readFilter (wordsOf filter.written) = some (.ok filter) := by
  obtain ⟨⟨hpos, hsize⟩, hnelts, ⟨hone, hseven⟩, htype⟩ := hvalid
  unfold kFpTypeSize at htype
  have hwords : wordsOf filter.written = BitVec.ofNat 32 filter.params.size ::
      BitVec.ofNat 32 filter.params.expectedNelts ::
      BitVec.ofNat 32 (filter.params.numHashes + 2 ^ 16 * filter.params.fpType) ::
      filter.rep.flatten := by
    rw [ExistenceFilter.written, List.append_assoc, List.append_assoc, List.append_assoc,
      wordsOf_leBytes hsize, wordsOf_leBytes hnelts, ← List.append_assoc,
      wordsOf_halves (by omega) (by omega), wordsOf_flatMap]
  have hword : (BitVec.ofNat 32 (filter.params.numHashes + 2 ^ 16 * filter.params.fpType)).toNat =
      filter.params.numHashes + 2 ^ 16 * filter.params.fpType := by
    rw [BitVec.toNat_ofNat, Nat.mod_eq_of_lt (by omega)]
  have hlow : (filter.params.numHashes + 2 ^ 16 * filter.params.fpType) % 2 ^ 16 =
      filter.params.numHashes := by omega
  have hhigh : (filter.params.numHashes + 2 ^ 16 * filter.params.fpType) / 2 ^ 16 =
      filter.params.fpType := by omega
  have hheader : readHeader (wordsOf filter.written) = .ok filter.params := by
    rw [hwords, readHeader, hword, hlow, hhigh, if_neg (by omega),
      if_neg (by unfold kFpTypeSize; omega),
      BitVec.toNat_ofNat, BitVec.toNat_ofNat, Nat.mod_eq_of_lt hsize, Nat.mod_eq_of_lt hnelts]
  have hdrop : (wordsOf filter.written).drop kHeaderSize = filter.rep.flatten := by
    rw [hwords]
    rfl
  rw [readFilter, hheader]
  dsimp only
  simp [hdrop, hshape.length_flatten hpos hsize, blockBitmap,
    cutBlocks_flatten hshape]

theorem faithfulFilter (hvalid : params.Valid) : FaithfulFilter cityFingerprint params keys := by
  have hparams : (buildFilter cityFingerprint params keys).params = params := buildFilter_params
  have hshape : HasShape params.size (buildFilter cityFingerprint params keys).rep :=
    buildFilter_shape
  have hfills : (buildFilter cityFingerprint params keys).written.length =
      (buildFilter cityFingerprint params keys).requiredBytes := by
    rw [length_written, ExistenceFilter.requiredBytes, hparams,
      hshape.length_flatten hvalid.size.1 hvalid.size.2]
  refine ⟨?_, hfills, (buildFilter cityFingerprint params keys).written, _, ?_, ?_, hparams,
    fun _ => rfl⟩
  · exact foldl_insert_exists hvalid.size.1 hvalid.size.2 (hasShape_newBlocks _)
  · simp [ExistenceFilter.serializeAsString, hfills]
  · refine readFilter_written ?_ ?_
    · rw [hparams]
      exact hvalid
    · rw [hparams]
      exact hshape

/-- Blocks of a size that is not zero are in the buffer, and every index lies inside them. -/
theorem readIsSafe_of_size (h : ¬ZeroSizeHeader buf) :
    ReadIsSafe cityFingerprint buf := by
  cases hheader : readHeader buf with
  | error message =>
    refine ⟨.error "Invalid format: could not read header", ?_, fun _ h => by cases h⟩
    rw [readFilter, hheader]
  | ok params =>
    obtain ⟨size, expectedNelts, v, rest, rfl, hsize, -, hone, hseven, htype⟩ :=
      readHeader_ok hheader
    have hpos : 0 < params.size := by
      refine Nat.pos_of_ne_zero fun hzero => h ⟨expectedNelts, v, rest, ?_, hone, hseven, htype⟩
      rw [hsize] at hzero
      rw [BitVec.eq_of_toNat_eq (y := 0#32) hzero]
    have hlt : params.size < 2 ^ 32 := hsize ▸ size.isLt
    by_cases hshort : ((size :: expectedNelts :: v :: rest).drop kHeaderSize).length <
        bitsToWords params.size
    · refine ⟨.error "Not enough bufsize: could not read", ?_, fun _ h => by cases h⟩
      rw [readFilter, hheader]
      exact if_pos hshort
    · have henough := Nat.not_lt.mp hshort
      rw [← (blockDimensions_spec hpos hlt).2.2] at henough
      obtain ⟨blocks, hcut, hshape⟩ := exists_cutBlocks henough
      refine ⟨.ok ⟨params, blocks⟩, ?_, ?_⟩
      · rw [readFilter, hheader]
        dsimp only
        rw [if_neg hshort, blockBitmap, hcut, Option.map_some]
      · intro filter heq key
        cases heq
        exact HasShape.existsHash_ne_none hshape hpos hlt _ _

/-- With the size zero there is no filter, or one that divides by zero. -/
theorem not_readIsSafe_of_zero (h : ZeroSizeHeader buf) :
    ¬ReadIsSafe cityFingerprint buf := by
  obtain ⟨expectedNelts, v, rest, rfl, hone, hseven, htype⟩ := h
  rintro ⟨result, hread, hsafe⟩
  have hheader : readHeader (0#32 :: expectedNelts :: v :: rest) =
      .ok ⟨0, expectedNelts.toNat, v.toNat % 2 ^ 16, v.toNat / 2 ^ 16⟩ := by
    rw [readHeader, if_neg (by omega), if_neg (by omega)]
    rfl
  rw [readFilter, hheader] at hread
  dsimp only at hread
  rw [if_neg (by exact Nat.not_lt_zero _)] at hread
  obtain ⟨rep, -, rfl⟩ := Option.map_eq_some_iff.mp hread
  refine hsafe _ rfl [] ?_
  obtain ⟨n, hn⟩ : ∃ n, v.toNat % 2 ^ 16 = n + 1 := ⟨v.toNat % 2 ^ 16 - 1, by omega⟩
  rw [ExistenceFilter.exists]
  dsimp only
  rw [hn, existsHash, if_pos rfl]

/-- **A filter is faithful, and reading a buffer is safe if and only if no accepted header has the
size zero.** -/
theorem existenceFilter_faithful_iff {buf : List (BitVec 32)} (hvalid : params.Valid) :
    FaithfulFilter cityFingerprint params keys ∧ ReadIsSafe cityFingerprint buf ↔
      ¬ZeroSizeHeader buf :=
  ⟨fun h hzero => not_readIsSafe_of_zero hzero h.2,
    fun h => ⟨faithfulFilter hvalid, readIsSafe_of_size h⟩⟩

end Keys

theorem existenceFilter_faithful_iff_word :
    FaithfulFilter legacyFingerprint ⟨32, 1, 1, 0⟩ [utf8 "a"] ∧
        ReadIsSafe legacyFingerprint [32#32, 1#32, 1#32, 0#32] ↔
      ¬ZeroSizeHeader [32#32, 1#32, 1#32, 0#32] :=
  existenceFilter_faithful_iff ⟨by decide, by decide, by decide, by decide⟩

/-- A header with the size zero and one hash, and nothing behind it. -/
theorem existenceFilter_zeroSize : ¬ReadIsSafe legacyFingerprint [0#32, 0#32, 1#32] := by
  refine not_readIsSafe_of_zero ⟨0#32, 1#32, [], rfl, ?_⟩
  decide

end Mozkey.Storage
