import Mozkey.Infra.LevelOrder
import Mozkey.Storage.SuccinctSelect

/-!
# The trie in a level-order unary degree sequence

`storage/louds/louds.h`, `storage/louds/louds_trie.h` and their `.cc` files: the moves from node to
node, and what the trie says of a node.

A node is its number, counted from one, and where its bit is among those of its parent. The image
of a trie has the degrees in unary, the bits of the nodes that end a key, and the letters.

* `LoudsTrie.exists_openTrie` — the image of a tree is opened
* `Represents.childNodes_eq` — the moves go over the children of a node
* `Represents.restoreKeyString_eq` — the way up reads the key
-/

namespace Mozkey.Storage

open Infra

structure Louds where
  index : Louds.SimpleSuccinctBitVectorIndex
  /-- The positions after the first 0-bits. -/
  select0Cache : List Nat
  /-- The positions of the first 1-bits. -/
  select1Cache : List Nat

namespace Louds

/-- The default is the root. -/
structure Node where
  edgeIndex : Nat := 0
  nodeId : Nat := 1
  deriving DecidableEq, Repr

/-- The first values of a function, which is not asked for zero. -/
def selectCache (select : Nat → Option Nat) (size : Nat) : Option (List Nat) :=
  (List.range size).mapM fun i => if i = 0 then some 0 else select i

def init (image : Bytes) (length bitvecLb0CacheSize bitvecLb1CacheSize select0CacheSize
    select1CacheSize : Nat) : Option Louds := do
  let index ← SimpleSuccinctBitVectorIndex.init image length 32 bitvecLb0CacheSize
    bitvecLb1CacheSize
  -- the caches are not larger than the bits
  let select0CacheSize := min select0CacheSize (← index.getNum0Bits)
  let select1CacheSize := min select1CacheSize (← index.getNum1Bits)
  let select0Cache ← selectCache (fun i => (index.select0 i).map (· + 1)) select0CacheSize
  let select1Cache ← selectCache index.select1 select1CacheSize
  return ⟨index, select0Cache, select1Cache⟩

/-- A value from the cache, or from the index. -/
def cached (cache : List Nat) (select : Nat → Option Nat) (i : Nat) : Option Nat :=
  if i < cache.length then cache[i]? else select i

def isRoot (node : Node) : Bool := node.nodeId == 1

def moveToFirstChild (louds : Louds) (node : Node) : Option Node := do
  let edgeIndex ← cached louds.select0Cache (fun i => (louds.index.select0 i).map (· + 1))
    node.nodeId
  return ⟨edgeIndex, edgeIndex - node.nodeId + 1⟩

def moveToNextSibling (node : Node) : Node := ⟨node.edgeIndex + 1, node.nodeId + 1⟩

def moveToParent (louds : Louds) (node : Node) : Option Node := do
  let nodeId := node.edgeIndex - node.nodeId + 1
  let edgeIndex ← cached louds.select1Cache louds.index.select1 nodeId
  return ⟨edgeIndex, nodeId⟩

def isValidNode (louds : Louds) (node : Node) : Option Bool := louds.index.get node.edgeIndex

structure LoudsTrie where
  louds : Louds
  terminalBitVector : SimpleSuccinctBitVectorIndex
  edgeCharacter : Bytes

namespace LoudsTrie

def maxDepth : Nat := 256

/-- `LoudsTrie::Open` -/
def openTrie (image : Bytes) (loudsLb0CacheSize loudsLb1CacheSize loudsSelect0CacheSize
    loudsSelect1CacheSize termvecLb1CacheSize : Nat) : Option LoudsTrie := do
  let loudsSize ← int (← loadUnaligned image 4 0)
  let terminalSize ← int (← loadUnaligned image 4 4)
  let numCharacterBits ← int (← loadUnaligned image 4 8)
  let edgeCharacterSize ← int (← loadUnaligned image 4 12)
  if numCharacterBits ≠ 8 ∨ edgeCharacterSize = 0 then none
  else
    let image := image.drop 16
    let louds ← init (image.take loudsSize) loudsSize loudsLb0CacheSize loudsLb1CacheSize
      loudsSelect0CacheSize loudsSelect1CacheSize
    let terminalBitVector ← SimpleSuccinctBitVectorIndex.init
      ((image.drop loudsSize).take terminalSize) terminalSize 32 0 termvecLb1CacheSize
    return ⟨louds, terminalBitVector, (image.drop loudsSize).drop terminalSize⟩

variable (trie : LoudsTrie)

def isTerminalNode (node : Node) : Option Bool := trie.terminalBitVector.get (node.nodeId - 1)

def getEdgeLabelToParentNode (node : Node) : Option UInt8 := trie.edgeCharacter[node.nodeId - 1]?

/-- The loop over a node and its siblings to the right. -/
def siblingNodes : Nat → Node → Option (List Node)
  | 0, _ => none
  | fuel + 1, node => do
    if ← trie.louds.isValidNode node then
      return node :: (← siblingNodes fuel (moveToNextSibling node))
    else return []

/-- `for (MoveToFirstChild(&node); IsValidNode(node); MoveToNextSibling(&node))`. Each step reads
one more bit. -/
def childNodes (node : Node) : Option (List Node) := do
  trie.siblingNodes (8 * trie.louds.index.data.length + 1) (← trie.louds.moveToFirstChild node)

/-- The loop of `RestoreKeyString`, which fills the buffer backward. -/
def restoreKeyStringFrom : Nat → Node → Bytes → Option Bytes
  | 0, node, key => if isRoot node then some key else none
  | room + 1, node, key =>
    if isRoot node then some key
    else do
      let label ← trie.getEdgeLabelToParentNode node
      restoreKeyStringFrom room (← trie.louds.moveToParent node) (label :: key)

def restoreKeyString (node : Node) : Option Bytes := trie.restoreKeyStringFrom maxDepth node []

end LoudsTrie

/-! ## The caches -/

/-- A cache of the values of a function. -/
def Caches (P : Nat → Nat → Prop) (cache : List Nat) : Prop :=
  ∀ i, 0 < i → i < cache.length → ∃ r, cache[i]? = some r ∧ P i r

theorem exists_selectCache {select : Nat → Option Nat} {P : Nat → Nat → Prop} {size : Nat}
    (h : ∀ i, 0 < i → i < size → ∃ r, select i = some r ∧ P i r) :
    ∃ cache, selectCache select size = some cache ∧ Caches P cache := by
  have heach : ∀ i ∈ List.range size, ∃ r, (if i = 0 then some 0 else select i) = some r ∧
      (0 < i → P i r) := by
    intro i hi
    by_cases hzero : i = 0
    · exact ⟨0, if_pos hzero, fun hpos => absurd hpos (by omega)⟩
    · obtain ⟨r, hr, hP⟩ := h i (Nat.pos_of_ne_zero hzero) (List.mem_range.mp hi)
      exact ⟨r, by rw [if_neg hzero, hr], fun _ => hP⟩
  obtain ⟨cache, hcache, hall⟩ := SimpleSuccinctBitVectorIndex.exists_mapM heach
  refine ⟨cache, hcache, fun i hpos hi => ⟨cache[i], List.getElem?_eq_getElem hi, ?_⟩⟩
  have hrange : i < (List.range size).length := by rwa [hall.length_eq]
  have hP := hall.get hrange hi
  rw [List.get_eq_getElem, List.getElem_range] at hP
  exact hP hpos

theorem Caches.cached_eq {select : Nat → Option Nat} {P : Nat → Nat → Prop} {cache : List Nat}
    (h : Caches P cache) {i r : Nat} (hpos : 0 < i) (hselect : select i = some r)
    (hunique : ∀ r', P i r' → r' = r) : cached cache select i = some r := by
  unfold cached
  split
  · next hlt =>
    obtain ⟨r', hr', hP⟩ := h i hpos hlt
    rw [hr', hunique r' hP]
  · exact hselect

/-! ## What a trie stands for -/

/-- The bits are those of a tree, and the caches are right. -/
structure RepresentsTree (louds : Louds) (tree : LevelTree) : Prop where
  unary : tree.unary <+: bitsOf louds.index.data
  exact : louds.index.Exact (bitsOf louds.index.data)
  select0Cache : Caches (fun i r => ∃ p, r = p + 1 ∧ IsSelect false (bitsOf louds.index.data) i p)
    louds.select0Cache
  select1Cache : Caches (IsSelect true (bitsOf louds.index.data)) louds.select1Cache

structure Represents (trie : LoudsTrie) (tree : KeyTree UInt8) : Prop where
  louds : RepresentsTree trie.louds tree.toLevelTree
  terminals : tree.terminals <+: bitsOf trie.terminalBitVector.data
  labels : trie.edgeCharacter = tree.labels

/-- The node of a number in the tree. -/
def nodeAt (tree : LevelTree) (c : Nat) : Node :=
  if c = 0 then {} else ⟨c + tree.parent c + 1, c + 1⟩

@[simp] theorem nodeId_nodeAt (tree : LevelTree) (c : Nat) : (nodeAt tree c).nodeId = c + 1 := by
  rw [nodeAt]
  split
  · next h => rw [h]
  · rfl

theorem nodeAt_child {tree : LevelTree} {i c : Nat} (hi : i < tree.size)
    (hc : c ∈ tree.children i) :
    nodeAt tree c = ⟨c + i + 1, c + 1⟩ := by
  have hpos : c ≠ 0 := by
    have hle := (tree.mem_children.mp hc).1
    rw [LevelTree.firstChild] at hle
    omega
  rw [nodeAt, if_neg hpos, tree.parent_eq hi hc]

/-! ## Moves -/

section Moves

variable {louds : Louds} {tree : LevelTree} {i c : Nat}

theorem RepresentsTree.moveToFirstChild_eq (h : RepresentsTree louds tree) (hi : i < tree.size) :
    louds.moveToFirstChild (nodeAt tree i)
      = some ⟨tree.firstChild i + i + 1, tree.firstChild i + 1⟩ := by
  have hselect := LevelTree.isSelect_unary h.unary hi
  obtain ⟨p, hp, hother⟩ := h.exact.select0 (i + 1) (Nat.succ_pos i) hselect.le_count
  have hplace : cached louds.select0Cache (fun i => (louds.index.select0 i).map (· + 1)) (i + 1)
      = some (tree.firstChild i + i + 1) := by
    refine h.select0Cache.cached_eq (Nat.succ_pos i) ?_ ?_
    · simp [hp, hother.unique hselect]
    · rintro r' ⟨p', rfl, hp'⟩
      rw [hp'.unique hselect]
  rw [moveToFirstChild, nodeId_nodeAt, hplace, Option.bind_eq_bind, Option.bind_some]
  refine congrArg some (congrArg (Node.mk _) ?_)
  omega

/-- The bit of a node among those of its parent. -/
theorem isSelect_nodeAt (hbits : tree.unary <+: bitsOf louds.index.data)
    (hc : c = 0 ∨ ∃ i < tree.size, c ∈ tree.children i) :
    IsSelect true (bitsOf louds.index.data) (c + 1) (nodeAt tree c).edgeIndex := by
  rcases hc with rfl | ⟨i, hi, hc⟩
  · exact LevelTree.isSelect_unary_root hbits
  · rw [nodeAt_child hi hc]
    exact LevelTree.isSelect_unary_child hbits hi hc

theorem RepresentsTree.moveToParent_eq (h : RepresentsTree louds tree) (hi : i < tree.size)
    (hc : c ∈ tree.children i) (hparent : i = 0 ∨ ∃ j < tree.size, i ∈ tree.children j) :
    louds.moveToParent (nodeAt tree c) = some (nodeAt tree i) := by
  have hselect := isSelect_nodeAt h.unary hparent
  obtain ⟨p, hp, hother⟩ := h.exact.select1 (i + 1) (Nat.succ_pos i) hselect.le_count
  have hplace :=
    h.select1Cache.cached_eq (Nat.succ_pos i) (hp.trans (by rw [hother.unique hselect]))
    fun r' hr' => hr'.unique hselect
  have hid : c + i + 1 - (c + 1) + 1 = i + 1 := by omega
  rw [moveToParent, nodeAt_child hi hc]
  dsimp only
  rw [hid, hplace, Option.bind_eq_bind, Option.bind_some, ← nodeId_nodeAt tree i]
  rfl

theorem RepresentsTree.get_eq (h : RepresentsTree louds tree) (hi : i < tree.size) {j : Nat}
    (hj : j ≤ tree.degrees[i]?.getD 0) : louds.index.get (tree.firstChild i + i + 1 + j)
      = some (decide (j < tree.degrees[i]?.getD 0)) := by
  rw [SimpleSuccinctBitVectorIndex.get_eq, LevelTree.getElem?_unary h.unary hi hj]

end Moves

variable {trie : LoudsTrie} {tree : KeyTree UInt8} {i c : Nat}

theorem Represents.siblingNodes_eq (h : Represents trie tree) (hi : i < tree.size) :
    ∀ {fuel j rest : Nat}, j + rest = tree.degrees[i]?.getD 0 → rest < fuel →
      trie.siblingNodes fuel ⟨tree.firstChild i + i + 1 + j, tree.firstChild i + j + 1⟩
        = some ((List.range' (tree.firstChild i + j) rest).map (nodeAt tree.toLevelTree))
  | 0, _, _, _, hfuel => absurd hfuel (Nat.not_lt_zero _)
  | fuel + 1, j, 0, hj, _ => by
    have hget := h.louds.get_eq hi (show j ≤ tree.degrees[i]?.getD 0 by omega)
    rw [decide_eq_false (by omega)] at hget
    rw [LoudsTrie.siblingNodes, isValidNode, hget]
    rfl
  | fuel + 1, j, rest + 1, hj, hfuel => by
    have hget := h.louds.get_eq hi (show j ≤ tree.degrees[i]?.getD 0 by omega)
    rw [decide_eq_true (by omega)] at hget
    have ih : trie.siblingNodes fuel ⟨tree.firstChild i + i + 1 + (j + 1),
        tree.firstChild i + (j + 1) + 1⟩
          = some ((List.range' (tree.firstChild i + (j + 1)) rest).map (nodeAt tree.toLevelTree)) :=
      siblingNodes_eq h hi (by omega) (by omega)
    have hchild : tree.firstChild i + j ∈ tree.children i := by
      rw [LevelTree.mem_children, LevelTree.firstChild_succ]
      omega
    rw [LoudsTrie.siblingNodes, isValidNode, hget, List.range'_succ, List.map_cons,
      nodeAt_child hi hchild]
    rw [show tree.firstChild i + (j + 1) = tree.firstChild i + j + 1 by omega] at ih
    rw [Option.bind_eq_bind, Option.bind_some, if_pos rfl, moveToNextSibling]
    dsimp only
    simp [show tree.firstChild i + i + 1 + j + 1 = tree.firstChild i + i + 1 + (j + 1) by omega, ih,
      show tree.firstChild i + j + i + 1 = tree.firstChild i + i + 1 + j by omega]

/-- **The loop goes over the children.** -/
theorem Represents.childNodes_eq (h : Represents trie tree) (hi : i < tree.size) :
    trie.childNodes (nodeAt tree.toLevelTree i)
      = some ((tree.children i).map (nodeAt tree.toLevelTree)) := by
  -- each child has a bit
  have hroom : tree.degrees[i]?.getD 0 < 8 * trie.louds.index.data.length + 1 := by
    have hlast := LevelTree.getElem?_unary h.louds.unary hi (Nat.le_refl _)
    have hlt := (List.getElem?_eq_some_iff.mp hlast).1
    rw [length_bitsOf] at hlt
    omega
  have hsiblings := h.siblingNodes_eq hi (Nat.zero_add _) hroom
  rw [LoudsTrie.childNodes, h.louds.moveToFirstChild_eq hi, Option.bind_eq_bind, Option.bind_some]
  exact hsiblings

theorem getElem?_of_isPrefix {α : Type} {l l' : List α} (h : l <+: l') {i : Nat} {a : α}
    (ha : l[i]? = some a) : l'[i]? = some a := by
  obtain ⟨rest, rfl⟩ := h
  rw [List.getElem?_append_left (List.getElem?_eq_some_iff.mp ha).1, ha]

theorem Represents.isTerminalNode_eq (h : Represents trie tree) (hc : c < tree.size) :
    trie.isTerminalNode (nodeAt tree.toLevelTree c) = some (tree.terminals.getD c false) := by
  rw [LoudsTrie.isTerminalNode, nodeId_nodeAt, SimpleSuccinctBitVectorIndex.get_eq]
  exact getElem?_of_isPrefix h.terminals (KeyTree.getElem?_terminals hc)

theorem Represents.getEdgeLabel_eq (h : Represents trie tree) (c : Nat) :
    trie.getEdgeLabelToParentNode (nodeAt tree.toLevelTree c) = tree.labels[c]? := by
  simp [LoudsTrie.getEdgeLabelToParentNode, nodeId_nodeAt, h.labels]

theorem isRoot_nodeAt (tree : LevelTree) (c : Nat) : isRoot (nodeAt tree c) = decide (c = 0) := by
  rw [isRoot, nodeId_nodeAt, Bool.eq_iff_iff, beq_iff_eq, decide_eq_true_eq]
  omega

theorem Represents.restoreKeyStringFrom_eq (h : Represents trie tree) {key : Bytes}
    (hkey : tree.HasKey c key) : ∀ {room : Nat} {rest : Bytes}, key.length ≤ room →
      trie.restoreKeyStringFrom room (nodeAt tree.toLevelTree c) rest = some (key ++ rest) := by
  induction hkey with
  | root => rintro (_ | room) rest - <;> rfl
  | @child i c key a hparent hc ha ih =>
    rintro (_ | room) rest hroom
    · rw [List.length_append, List.length_singleton] at hroom
      exact absurd hroom (Nat.not_succ_le_zero _)
    · have hroot := isRoot_nodeAt tree.toLevelTree c
      have hpos := (tree.mem_children.mp hc).1
      rw [decide_eq_false (by rw [LevelTree.firstChild] at hpos; omega)] at hroot
      simp [LoudsTrie.restoreKeyStringFrom, hroot, h.getEdgeLabel_eq, ha,
        h.louds.moveToParent_eq hparent.lt_size hc hparent.root_or_child, ih (by simpa using hroom)]

/-- **The way up reads the key of a node.** -/
theorem Represents.restoreKeyString_eq (h : Represents trie tree) {key : Bytes}
    (hkey : tree.HasKey c key) (hdepth : key.length ≤ LoudsTrie.maxDepth) :
    trie.restoreKeyString (nodeAt tree.toLevelTree c) = some key := by
  simp [LoudsTrie.restoreKeyString, h.restoreKeyStringFrom_eq hkey hdepth]

/-! ## Images -/

/-- The parts of the image of a tree. The bits are filled up to words, and fit in an `int`. -/
structure TrieImage (tree : KeyTree UInt8) where
  louds : Bytes
  terminals : Bytes
  unary_isPrefix : tree.unary <+: bitsOf louds
  terminals_isPrefix : tree.terminals <+: bitsOf terminals
  louds_aligned : 4 ∣ louds.length
  terminals_aligned : 4 ∣ terminals.length
  louds_fits : SimpleSuccinctBitVectorIndex.Fits louds 32
  terminals_fits : SimpleSuccinctBitVectorIndex.Fits terminals 32
  labels_fits : tree.labels.length < 2 ^ 31

/-- The sizes of the parts, and the parts. -/
def TrieImage.bytes (image : TrieImage tree) : Bytes :=
  leBytes 4 image.louds.length ++ (leBytes 4 image.terminals.length ++ (leBytes 4 8 ++
    (leBytes 4 tree.labels.length ++ (image.louds ++ (image.terminals ++ tree.labels)))))

theorem loadUnaligned_leBytes {front rest : Bytes} {n offset : Nat} (hn : n < 2 ^ 31)
    (hoffset : front.length = offset) :
    loadUnaligned (front ++ (leBytes 4 n ++ rest)) 4 offset = some n := by
  subst hoffset
  rw [SimpleSuccinctBitVectorIndex.loadUnaligned_eq (by
      rw [List.length_append, List.length_append, length_leBytes]
      omega),
    List.drop_left, List.take_left' (length_leBytes 4 n), leNat_leBytes (by omega)]

theorem exists_init {loudsImage : Bytes} {tree : LevelTree}
    (hunary : tree.unary <+: bitsOf loudsImage) (hlength : 4 ∣ loudsImage.length)
    (hfits : SimpleSuccinctBitVectorIndex.Fits loudsImage 32)
    (lb0CacheSize lb1CacheSize select0CacheSize select1CacheSize : Nat) :
    ∃ louds, init loudsImage loudsImage.length lb0CacheSize lb1CacheSize select0CacheSize
      select1CacheSize = some louds ∧ RepresentsTree louds tree := by
  obtain ⟨index, hindex, rfl, -, hexact⟩ := SimpleSuccinctBitVectorIndex.exists_init (by decide)
    (by decide) hlength hfits lb0CacheSize lb1CacheSize
  have hzeros : ∀ i, 0 < i → i < min select0CacheSize ((bitsOf index.data).count false) →
      ∃ r, (index.select0 i).map (· + 1) = some r ∧
        ∃ p, r = p + 1 ∧ IsSelect false (bitsOf index.data) i p := by
    intro i hpos hi
    obtain ⟨p, hp, hselect⟩ := hexact.select0 i hpos (by omega)
    exact ⟨p + 1, by rw [hp, Option.map_some], p, rfl, hselect⟩
  have hones : ∀ i, 0 < i → i < min select1CacheSize ((bitsOf index.data).count true) →
      ∃ r, index.select1 i = some r ∧ IsSelect true (bitsOf index.data) i r :=
    fun i hpos hi => hexact.select1 i hpos (by omega)
  obtain ⟨cache0, hcache0, hright0⟩ := exists_selectCache hzeros
  obtain ⟨cache1, hcache1, hright1⟩ := exists_selectCache hones
  refine ⟨⟨index, cache0, cache1⟩, ?_, hunary, hexact, hright0, hright1⟩
  simp only [init, hindex, hexact.num0Bits, hexact.num1Bits, hcache0, hcache1, Option.bind_eq_bind,
    Option.bind_some]
  rfl

/-- **The image of a tree is opened, whatever the sizes of the caches.** -/
theorem exists_openTrie (image : TrieImage tree) (loudsLb0CacheSize loudsLb1CacheSize
    loudsSelect0CacheSize loudsSelect1CacheSize termvecLb1CacheSize : Nat) :
    ∃ trie, LoudsTrie.openTrie image.bytes loudsLb0CacheSize loudsLb1CacheSize
      loudsSelect0CacheSize loudsSelect1CacheSize termvecLb1CacheSize = some trie ∧
      Represents trie tree := by
  have hlouds := image.louds_fits.length_lt (by decide)
  have hterminals := image.terminals_fits.length_lt (by decide)
  have hsize := tree.size_pos
  have hlabels : tree.labels.length ≠ 0 := by
    rw [tree.length_labels]
    exact Nat.ne_of_gt hsize
  have hword0 : loadUnaligned ([] ++ image.bytes) 4 0 = some image.louds.length :=
    loadUnaligned_leBytes (by omega) rfl
  rw [List.nil_append] at hword0
  have hword1 : loadUnaligned image.bytes 4 4 = some image.terminals.length :=
    loadUnaligned_leBytes (by omega) (length_leBytes 4 _)
  have hword2 : loadUnaligned image.bytes 4 8 = some 8 := by
    rw [TrieImage.bytes, ← List.append_assoc]
    exact loadUnaligned_leBytes (by omega) (by simp)
  have hword3 : loadUnaligned image.bytes 4 12 = some tree.labels.length := by
    rw [TrieImage.bytes, ← List.append_assoc, ← List.append_assoc]
    exact loadUnaligned_leBytes image.labels_fits (by simp)
  have hparts : image.bytes.drop 16 = image.louds ++ (image.terminals ++ tree.labels) := by
    rw [TrieImage.bytes, ← List.append_assoc, ← List.append_assoc, ← List.append_assoc]
    exact List.drop_left' (by simp)
  obtain ⟨louds, hinit, hrepresents⟩ := exists_init image.unary_isPrefix image.louds_aligned
    image.louds_fits loudsLb0CacheSize loudsLb1CacheSize loudsSelect0CacheSize
    loudsSelect1CacheSize
  obtain ⟨terminalBitVector, hterminal, hdata, -, -⟩ := SimpleSuccinctBitVectorIndex.exists_init
    (by decide) (by decide) image.terminals_aligned image.terminals_fits 0 termvecLb1CacheSize
  refine ⟨⟨louds, terminalBitVector, tree.labels⟩, ?_, hrepresents, ?_, rfl⟩
  · simp only [LoudsTrie.openTrie, hword0, hword1, hword2, hword3, hparts, Option.bind_eq_bind,
      Option.bind_some, int_eq_some (show image.louds.length < 2 ^ 31 by omega),
      int_eq_some (show image.terminals.length < 2 ^ 31 by omega),
      int_eq_some (show 8 < 2 ^ 31 by decide), int_eq_some image.labels_fits, List.take_left,
      List.drop_left, hinit, hterminal]
    rw [if_neg (by simpa using hlabels)]
    rfl
  · rw [hdata]
    exact image.terminals_isPrefix

/-- **The key of every node can be restored from the image**, if it fits in the buffer. -/
theorem restoreKeyString_openTrie (image : TrieImage tree) (lb0 lb1 select0 select1 termvec : Nat) :
    ∃ trie, LoudsTrie.openTrie image.bytes lb0 lb1 select0 select1 termvec = some trie ∧
      ∀ c key, tree.HasKey c key → key.length ≤ LoudsTrie.maxDepth →
        trie.restoreKeyString (nodeAt tree.toLevelTree c) = some key := by
  obtain ⟨trie, hopen, h⟩ := exists_openTrie image lb0 lb1 select0 select1 termvec
  exact ⟨trie, hopen, fun _ _ => h.restoreKeyString_eq⟩

end Louds

end Mozkey.Storage
