import Mozkey.Base.Utf8Front

/-!
# Full-width ASCII

`FullWidthAsciiToHalfWidthAscii` in `base/strings/japanese.cc`, with `double_array.cc` and the
table of `japanese_rules.cc`. Every rule takes one character of three bytes to one ASCII character,
and what the function leaves has nothing to take any more
(`fullWidthAsciiToHalfWidthAscii_idem`).
-/

namespace Mozkey.Base

open Infra

/-! ## Double arrays -/

structure DoubleArray where
  base : Int
  check : Int
  deriving DecidableEq

structure LookupResult where
  seekto : Nat := 0
  index : Nat := 0
  deriving DecidableEq

variable (da : Int → DoubleArray)

/-- The index that is stored at the node `b`. -/
def storedIndex (b : Int) : Option Nat :=
  if b = (da b).check ∧ (da b).base < 0 then some (-(da b).base - 1).toNat else none

/-- The node that a byte leads to. -/
def childNode (b : Int) (c : UInt8) : Option Int :=
  let p := b + c.toNat + 1
  if b = (da p).check then some (da p).base else none

/-- The loop over the bytes from the `i`-th one on. -/
def lookupFrom : Bytes → Int → Nat → LookupResult → LookupResult
  | key, b, i, result =>
    let result :=
      match storedIndex da b with
      | some index => { seekto := i, index }
      | none => result
    match key with
    | [] => result
    | c :: rest =>
      match childNode da b c with
      | some b => lookupFrom rest b (i + 1) result
      | none => result

def lookupDoubleArray (key : Bytes) : LookupResult := lookupFrom da key (da 0).base 0 {}

/-- What is written for the first bytes, and how many they are. An entry of the table is a string
with a zero byte behind it and the number of bytes to go back. -/
def convertFront (ctable : Bytes) : Bytes → Option (Bytes × Nat)
  | [] => none
  | c :: rest =>
    let result := lookupDoubleArray da (c :: rest)
    if 0 < result.seekto then
      let s := (ctable.drop result.index).takeWhile (· != 0)
      some (s, result.seekto - (ctable.getD (result.index + s.length + 1) 0).toNat)
    else some ((c :: rest).take (oneCharLen c), oneCharLen c)

def convertUsingDoubleArray (ctable input : Bytes) : Bytes :=
  (walk (convertFront da ctable) input).1.flatten

/-! ## The table -/

/-- The array from its 228th entry on, behind which all entries are zero. -/
def fullWidthAsciiBlock : List DoubleArray :=
  [⟨101, 1⟩, ⟨108, 1⟩, ⟨77, 101⟩, ⟨232, 77⟩, ⟨-22, 232⟩, ⟨-7, 233⟩, ⟨236, 87⟩, ⟨233, 77⟩,
   ⟨-40, 236⟩, ⟨110, 108⟩, ⟨87, 101⟩, ⟨240, 110⟩, ⟨-1, 240⟩, ⟨54, 1⟩, ⟨-283, 242⟩, ⟨125, 54⟩,
   ⟨237, 54⟩, ⟨-4, 245⟩, ⟨259, 54⟩, ⟨-10, 247⟩, ⟨-13, 248⟩, ⟨-16, 249⟩, ⟨-19, 250⟩, ⟨-25, 251⟩,
   ⟨-28, 252⟩, ⟨-31, 253⟩, ⟨-34, 254⟩, ⟨245, 125⟩, ⟨-37, 256⟩, ⟨247, 125⟩, ⟨248, 125⟩, ⟨249, 125⟩,
   ⟨250, 125⟩, ⟨-43, 261⟩, ⟨251, 125⟩, ⟨252, 125⟩, ⟨253, 125⟩, ⟨254, 125⟩, ⟨256, 125⟩, ⟨242, 110⟩,
   ⟨261, 125⟩, ⟨314, 125⟩, ⟨318, 125⟩, ⟨319, 125⟩, ⟨320, 125⟩, ⟨321, 125⟩, ⟨322, 125⟩, ⟨323, 125⟩,
   ⟨324, 125⟩, ⟨325, 125⟩, ⟨326, 125⟩, ⟨327, 125⟩, ⟨328, 125⟩, ⟨329, 125⟩, ⟨330, 125⟩, ⟨331, 125⟩,
   ⟨332, 125⟩, ⟨333, 125⟩, ⟨334, 125⟩, ⟨335, 125⟩, ⟨336, 125⟩, ⟨337, 125⟩, ⟨338, 125⟩, ⟨339, 125⟩,
   ⟨340, 125⟩, ⟨341, 125⟩, ⟨342, 125⟩, ⟨343, 125⟩, ⟨344, 125⟩, ⟨345, 125⟩, ⟨346, 125⟩, ⟨347, 125⟩,
   ⟨348, 125⟩, ⟨349, 125⟩, ⟨350, 125⟩, ⟨351, 125⟩, ⟨352, 125⟩, ⟨353, 125⟩, ⟨354, 125⟩, ⟨355, 125⟩,
   ⟨356, 125⟩, ⟨357, 125⟩, ⟨358, 125⟩, ⟨359, 125⟩, ⟨360, 125⟩, ⟨361, 125⟩, ⟨-46, 314⟩, ⟨362, 125⟩,
   ⟨363, 125⟩, ⟨364, 125⟩, ⟨-49, 318⟩, ⟨-52, 319⟩, ⟨-55, 320⟩, ⟨-58, 321⟩, ⟨-61, 322⟩, ⟨-64, 323⟩,
   ⟨-67, 324⟩, ⟨-70, 325⟩, ⟨-73, 326⟩, ⟨-76, 327⟩, ⟨-79, 328⟩, ⟨-82, 329⟩, ⟨-85, 330⟩, ⟨-88, 331⟩,
   ⟨-91, 332⟩, ⟨-94, 333⟩, ⟨-97, 334⟩, ⟨-100, 335⟩, ⟨-103, 336⟩, ⟨-106, 337⟩, ⟨-109, 338⟩,
   ⟨-112, 339⟩, ⟨-115, 340⟩, ⟨-118, 341⟩, ⟨-121, 342⟩, ⟨-124, 343⟩, ⟨-127, 344⟩, ⟨-130, 345⟩,
   ⟨-133, 346⟩, ⟨-136, 347⟩, ⟨-139, 348⟩, ⟨-142, 349⟩, ⟨-145, 350⟩, ⟨-148, 351⟩, ⟨-151, 352⟩,
   ⟨-154, 353⟩, ⟨-157, 354⟩, ⟨-160, 355⟩, ⟨-163, 356⟩, ⟨-166, 357⟩, ⟨-169, 358⟩, ⟨-172, 359⟩,
   ⟨-175, 360⟩, ⟨-178, 361⟩, ⟨-184, 362⟩, ⟨-187, 363⟩, ⟨-190, 364⟩, ⟨-193, 365⟩, ⟨365, 237⟩,
   ⟨396, 237⟩, ⟨397, 237⟩, ⟨398, 237⟩, ⟨399, 237⟩, ⟨400, 237⟩, ⟨401, 237⟩, ⟨402, 237⟩, ⟨403, 237⟩,
   ⟨404, 237⟩, ⟨405, 237⟩, ⟨406, 237⟩, ⟨407, 237⟩, ⟨408, 237⟩, ⟨409, 237⟩, ⟨410, 237⟩, ⟨411, 237⟩,
   ⟨412, 237⟩, ⟨413, 237⟩, ⟨414, 237⟩, ⟨415, 237⟩, ⟨416, 237⟩, ⟨417, 237⟩, ⟨418, 237⟩, ⟨419, 237⟩,
   ⟨420, 237⟩, ⟨421, 237⟩, ⟨422, 237⟩, ⟨423, 237⟩, ⟨424, 237⟩, ⟨-196, 396⟩, ⟨-199, 397⟩,
   ⟨-202, 398⟩, ⟨-205, 399⟩, ⟨-208, 400⟩, ⟨-211, 401⟩, ⟨-214, 402⟩, ⟨-217, 403⟩, ⟨-220, 404⟩,
   ⟨-223, 405⟩, ⟨-226, 406⟩, ⟨-229, 407⟩, ⟨-232, 408⟩, ⟨-235, 409⟩, ⟨-238, 410⟩, ⟨-241, 411⟩,
   ⟨-244, 412⟩, ⟨-247, 413⟩, ⟨-250, 414⟩, ⟨-253, 415⟩, ⟨-256, 416⟩, ⟨-259, 417⟩, ⟨-262, 418⟩,
   ⟨-265, 419⟩, ⟨-268, 420⟩, ⟨-271, 421⟩, ⟨-274, 422⟩, ⟨-277, 423⟩, ⟨-280, 424⟩, ⟨426, 259⟩,
   ⟨-181, 426⟩]

/-- Before the block only the first entry is not zero. -/
def fullWidthAsciiToHalfWidthAsciiDa (p : Int) : DoubleArray :=
  if p = 0 then ⟨1, 0⟩
  else if p < 228 then ⟨0, 0⟩
  else fullWidthAsciiBlock.getD (p - 228).toNat ⟨0, 0⟩

/-- The printable characters from the blank to the tilde. -/
def fullWidthAsciiToHalfWidthAsciiTable : Bytes :=
  (List.range' 0x20 95).flatMap fun c => [c.toUInt8, 0, 0]

def fullWidthAsciiToHalfWidthAscii (input : Bytes) : Bytes :=
  convertUsingDoubleArray fullWidthAsciiToHalfWidthAsciiDa fullWidthAsciiToHalfWidthAsciiTable input

/-! ## The rules -/

/-- The nodes of one byte. -/
def firstNodes : List Int := [101, 108, 54]

/-- The nodes of two bytes. -/
def secondNodes : List Int := [77, 87, 110, 125, 237, 259]

/-- What is written where the search ends in a node. -/
def written (n : Int) : Bytes :=
  match storedIndex fullWidthAsciiToHalfWidthAsciiDa n with
  | some index => (fullWidthAsciiToHalfWidthAsciiTable.drop index).takeWhile (· != 0)
  | none => []

/-- A node that has an entry with one ASCII character and nothing to go back. -/
def isRule (n : Int) : Bool :=
  match storedIndex fullWidthAsciiToHalfWidthAsciiDa n with
  | some index =>
    match (fullWidthAsciiToHalfWidthAsciiTable.drop index).take 3 with
    | [x, y, z] => 0 < x.toNat && x.toNat < 0x80 && y.toNat = 0 && z.toNat = 0
    | _ => false
  | none => false

section Nodes

variable {n m : Int} {a b c : UInt8}

/-- A node that a byte leads to is an entry of the block. -/
theorem entry_of_childNode (hm : m ≠ 0)
    (h : childNode fullWidthAsciiToHalfWidthAsciiDa m c = some n) :
    ∃ k, (⟨n, m⟩, k) ∈ fullWidthAsciiBlock.zipIdx ∧ m + c.toNat + 1 = k + 228 := by
  simp only [childNode, Option.ite_none_right_eq_some, Option.some.injEq] at h
  obtain ⟨hcheck, hbase⟩ := h
  unfold fullWidthAsciiToHalfWidthAsciiDa at hcheck hbase
  split at hcheck
  · exact absurd hcheck hm
  · split at hcheck
    · exact absurd hcheck hm
    · next hne hle =>
      rw [if_neg hne, if_neg hle] at hbase
      rw [List.getD_eq_getElem?_getD] at hcheck hbase
      cases hk : fullWidthAsciiBlock[(m + c.toNat + 1 - 228).toNat]? with
      | none =>
        rw [hk] at hcheck
        exact absurd hcheck hm
      | some e =>
        rw [hk] at hcheck hbase
        obtain ⟨base, check⟩ := e
        obtain rfl : m = check := hcheck
        obtain rfl : base = n := hbase
        exact ⟨(m + c.toNat + 1 - 228).toNat, List.mem_zipIdx_iff_getElem?.mpr hk, by omega⟩

/-- What the entries of the block are, by the node that they belong to. -/
theorem block_entries :
    (∀ e ∈ fullWidthAsciiBlock.zipIdx, e.1.check = 1 →
      0xE0 + 2 ≤ e.2 + 228 ∧ e.2 + 228 < 0xF0 + 2 ∧ e.1.base ∈ firstNodes) ∧
    (∀ e ∈ fullWidthAsciiBlock.zipIdx, e.1.check ∈ firstNodes → e.1.base ∈ secondNodes) ∧
    (∀ e ∈ fullWidthAsciiBlock.zipIdx, e.1.check ∈ secondNodes → isRule e.1.base = true) ∧
    (∀ e ∈ fullWidthAsciiBlock.zipIdx,
      e.1.check ∈ 0 :: 1 :: (firstNodes ++ secondNodes) ∨ e.1.check = e.2 + 228) ∧
    ∀ n ∈ 0 :: 1 :: (firstNodes ++ secondNodes),
      storedIndex fullWidthAsciiToHalfWidthAsciiDa n = none := by
  decide +kernel

theorem first_node (h : childNode fullWidthAsciiToHalfWidthAsciiDa 1 c = some n) :
    oneCharLen c = 3 ∧ n ∈ firstNodes := by
  obtain ⟨k, hk, hc⟩ := entry_of_childNode (by decide) h
  obtain ⟨hle, hlt, hn⟩ := block_entries.1 _ hk rfl
  refine ⟨?_, hn⟩
  unfold oneCharLen
  rw [if_neg (by omega), if_neg (by omega), if_pos (by omega)]

theorem second_node (hm : m ∈ firstNodes)
    (h : childNode fullWidthAsciiToHalfWidthAsciiDa m c = some n) : n ∈ secondNodes := by
  have hzero : (0 : Int) ∉ firstNodes := by decide
  obtain ⟨k, hk, _⟩ := entry_of_childNode (ne_of_mem_of_not_mem hm hzero) h
  exact block_entries.2.1 _ hk hm

theorem third_node (hm : m ∈ secondNodes)
    (h : childNode fullWidthAsciiToHalfWidthAsciiDa m c = some n) : isRule n = true := by
  have hzero : (0 : Int) ∉ secondNodes := by decide
  obtain ⟨k, hk, _⟩ := entry_of_childNode (ne_of_mem_of_not_mem hm hzero) h
  exact block_entries.2.2.1 _ hk hm

/-- Only at the end of a rule an index is stored. -/
theorem storedIndex_inner (hn : n = 1 ∨ n ∈ firstNodes ∨ n ∈ secondNodes) :
    storedIndex fullWidthAsciiToHalfWidthAsciiDa n = none := by
  exact block_entries.2.2.2.2 n (List.mem_cons_of_mem _ (by simpa using hn))

theorem childNode_rule (hn : isRule n = true) :
    childNode fullWidthAsciiToHalfWidthAsciiDa n c = none := by
  have hstored : storedIndex fullWidthAsciiToHalfWidthAsciiDa n ≠ none := by
    intro hnone
    simp [isRule, hnone] at hn
  cases h : childNode fullWidthAsciiToHalfWidthAsciiDa n c with
  | none => rfl
  | some m =>
    have hzero : storedIndex fullWidthAsciiToHalfWidthAsciiDa 0 = none :=
      block_entries.2.2.2.2 0 List.mem_cons_self
    obtain ⟨k, hk, hc⟩ := entry_of_childNode (fun h0 => hstored (by rw [h0, hzero])) h
    -- The only entry that belongs to such a node is the node itself.
    rcases block_entries.2.2.2.1 _ hk with hinner | hself
    · exact absurd (block_entries.2.2.2.2 _ hinner) hstored
    · dsimp only at hself
      omega

/-- What a rule writes, and that it goes back by no byte. -/
theorem written_of_isRule (hn : isRule n = true) :
    ∃ index x, storedIndex fullWidthAsciiToHalfWidthAsciiDa n = some index ∧ written n = [x] ∧
      x.toNat < 0x80 ∧ fullWidthAsciiToHalfWidthAsciiTable.getD (index + 2) 0 = 0 := by
  unfold isRule at hn
  split at hn
  · next index hstored =>
    split at hn
    · next x y z htake =>
      simp only [Bool.and_eq_true, decide_eq_true_eq] at hn
      obtain ⟨⟨⟨hpos, hascii⟩, hy⟩, hz⟩ := hn
      obtain rfl : y = 0 := UInt8.toNat_inj.mp hy
      obtain rfl : z = 0 := UInt8.toNat_inj.mp hz
      have hentry : fullWidthAsciiToHalfWidthAsciiTable.drop index =
          x :: 0 :: 0 :: (fullWidthAsciiToHalfWidthAsciiTable.drop index).drop 3 := by
        conv_lhs => rw [← List.take_append_drop 3 (List.drop index _), htake]
        rfl
      have hx : x ≠ 0 := by
        rintro rfl
        exact absurd hpos (by decide)
      refine ⟨index, x, hstored, ?_, hascii, ?_⟩
      · rw [written, hstored]
        dsimp only
        rw [hentry, List.takeWhile_cons_of_pos (by simpa using hx),
          List.takeWhile_cons_of_neg (by simp)]
      · rw [List.getD_eq_getElem?_getD, ← List.getElem?_drop, hentry]
        rfl
    · exact absurd hn (by decide)
  · exact absurd hn (by decide)

end Nodes

/-! ## One step -/

/-- The node of the first three bytes. -/
def nodeOfFront : Bytes → Option Int
  | a :: b :: c :: _ =>
    (childNode fullWidthAsciiToHalfWidthAsciiDa 1 a).bind fun n =>
      (childNode fullWidthAsciiToHalfWidthAsciiDa n b).bind fun n =>
        childNode fullWidthAsciiToHalfWidthAsciiDa n c
  | _ => none

section Lookup

variable {b : Int} {c : UInt8} {key : Bytes} {i : Nat} {result : LookupResult}

theorem lookupFrom_nil (hb : storedIndex da b = none) : lookupFrom da [] b i result = result := by
  rw [lookupFrom, hb]

theorem lookupFrom_none (hb : storedIndex da b = none) (hc : childNode da b c = none) :
    lookupFrom da (c :: key) b i result = result := by
  rw [lookupFrom, hb]
  simp only [hc]

theorem lookupFrom_some {n : Int} (hb : storedIndex da b = none) (hc : childNode da b c = some n) :
    lookupFrom da (c :: key) b i result = lookupFrom da key n (i + 1) result := by
  rw [lookupFrom, hb]
  simp only [hc]

theorem lookupFrom_end {index : Nat} (hb : storedIndex da b = some index)
    (hc : ∀ c, childNode da b c = none) :
      lookupFrom da key b i result = { seekto := i, index } := by
  cases key with
  | nil => rw [lookupFrom, hb]
  | cons c key =>
    rw [lookupFrom, hb]
    simp only [hc]

end Lookup

theorem isRule_of_nodeOfFront {key : Bytes} {n : Int} (h : nodeOfFront key = some n) :
    isRule n = true := by
  unfold nodeOfFront at h
  split at h
  · obtain ⟨n₁, h₁, h⟩ := Option.bind_eq_some_iff.mp h
    obtain ⟨n₂, h₂, h₃⟩ := Option.bind_eq_some_iff.mp h
    exact third_node (second_node (first_node h₁).2 h₂) h₃
  · simp at h

/-- The search ends at the third byte, or has found nothing. -/
theorem lookup_eq (key : Bytes) :
    lookupDoubleArray fullWidthAsciiToHalfWidthAsciiDa key =
      match (nodeOfFront key).bind (storedIndex fullWidthAsciiToHalfWidthAsciiDa) with
      | some index => { seekto := 3, index }
      | none => {} := by
  have hroot : (fullWidthAsciiToHalfWidthAsciiDa 0).base = 1 := rfl
  have hone := storedIndex_inner (.inl rfl)
  rw [lookupDoubleArray, hroot]
  match key with
  | [] => exact lookupFrom_nil _ hone
  | a :: rest =>
    cases ha : childNode fullWidthAsciiToHalfWidthAsciiDa 1 a with
    | none =>
      rw [lookupFrom_none _ hone ha]
      match rest with
      | [] | [_] => rfl
      | _ :: _ :: _ => simp [nodeOfFront, ha]
    | some n₁ =>
      have hfirst := (first_node ha).2
      have hn₁ := storedIndex_inner (.inr (.inl hfirst))
      rw [lookupFrom_some _ hone ha]
      match rest with
      | [] => exact lookupFrom_nil _ hn₁
      | b :: rest =>
        cases hb : childNode fullWidthAsciiToHalfWidthAsciiDa n₁ b with
        | none =>
          rw [lookupFrom_none _ hn₁ hb]
          match rest with
          | [] => rfl
          | _ :: _ => simp [nodeOfFront, ha, hb]
        | some n₂ =>
          have hsecond := second_node hfirst hb
          have hn₂ := storedIndex_inner (.inr (.inr hsecond))
          rw [lookupFrom_some _ hn₁ hb]
          match rest with
          | [] => exact lookupFrom_nil _ hn₂
          | c :: rest =>
            cases hc : childNode fullWidthAsciiToHalfWidthAsciiDa n₂ c with
            | none =>
              simp [lookupFrom_none _ hn₂ hc, nodeOfFront, ha, hb, hc]
            | some n₃ =>
              have hrule := third_node hsecond hc
              rw [lookupFrom_some _ hn₂ hc]
              cases hstored : storedIndex fullWidthAsciiToHalfWidthAsciiDa n₃ with
              | none => simp [isRule, hstored] at hrule
              | some index =>
                rw [lookupFrom_end _ hstored fun c => childNode_rule hrule]
                simp [nodeOfFront, ha, hb, hc, hstored]

/-- A character that a rule is for is replaced by one ASCII character, another one is kept. -/
theorem convertFront_eq (c : UInt8) (rest : Bytes) :
    convertFront fullWidthAsciiToHalfWidthAsciiDa fullWidthAsciiToHalfWidthAsciiTable (c :: rest) =
      match nodeOfFront (c :: rest) with
      | some n => some (written n, 3)
      | none => some ((c :: rest).take (oneCharLen c), oneCharLen c) := by
  unfold convertFront
  dsimp only
  rw [lookup_eq]
  cases hnode : nodeOfFront (c :: rest) with
  | none => rfl
  | some n =>
    obtain ⟨index, x, hstored, hwritten, _, hback⟩ :=
      written_of_isRule (isRule_of_nodeOfFront hnode)
    have htext : (fullWidthAsciiToHalfWidthAsciiTable.drop index).takeWhile (· != 0) = [x] := by
      rw [← hwritten, written, hstored]
    simp only [Option.bind_some, hstored, htext]
    rw [if_pos (by decide), hwritten, List.length_singleton, hback]
    rfl

/-- Only a character of three bytes can be replaced, and the rest of the text does not matter. -/
theorem nodeOfFront_of_oneCharLen {c : UInt8} (h : oneCharLen c ≠ 3) (rest : Bytes) :
    nodeOfFront (c :: rest) = none := by
  match rest with
  | [] | [_] => rfl
  | _ :: _ :: _ =>
    cases hc : childNode fullWidthAsciiToHalfWidthAsciiDa 1 c with
    | none => simp [nodeOfFront, hc]
    | some n => exact absurd (first_node hc).1 h

/-! ## The whole text -/

theorem convert_nil : fullWidthAsciiToHalfWidthAscii [] = [] := rfl

theorem convert_of_front {key text : Bytes} {len : Nat} (hkey : key ≠ []) (hlen : 0 < len)
    (h : convertFront fullWidthAsciiToHalfWidthAsciiDa fullWidthAsciiToHalfWidthAsciiTable key =
      some (text, len)) :
    fullWidthAsciiToHalfWidthAscii key = text ++ fullWidthAsciiToHalfWidthAscii (key.drop len) := by
  unfold fullWidthAsciiToHalfWidthAscii convertUsingDoubleArray
  simp [walk_of_some h hkey hlen]

theorem convert_rule {key : Bytes} {n : Int} (h : nodeOfFront key = some n) :
    fullWidthAsciiToHalfWidthAscii key =
      written n ++ fullWidthAsciiToHalfWidthAscii (key.drop 3) := by
  match key, h with
  | c :: rest, h => exact convert_of_front (by simp) (by decide) (by rw [convertFront_eq, h])

theorem convert_copy {c : UInt8} {rest : Bytes} (h : nodeOfFront (c :: rest) = none) :
    fullWidthAsciiToHalfWidthAscii (c :: rest) = (c :: rest).take (oneCharLen c) ++
      fullWidthAsciiToHalfWidthAscii ((c :: rest).drop (oneCharLen c)) :=
  convert_of_front (by simp) (oneCharLen_le c).1 (by rw [convertFront_eq, h])

/-- A character that was kept once is kept again, whatever has become of the rest. -/
theorem convert_copied {c : UInt8} {rest more : Bytes} (h : nodeOfFront (c :: rest) = none)
    (hmore : oneCharLen c ≤ (c :: rest).length ∨ more = []) :
    fullWidthAsciiToHalfWidthAscii ((c :: rest).take (oneCharLen c) ++ more) =
      (c :: rest).take (oneCharLen c) ++ fullWidthAsciiToHalfWidthAscii more := by
  obtain ⟨k, hk⟩ : ∃ k, oneCharLen c = k + 1 :=
    ⟨oneCharLen c - 1, (Nat.sub_add_cancel (oneCharLen_le c).1).symm⟩
  have hnode : nodeOfFront ((c :: rest).take (oneCharLen c) ++ more) = none := by
    by_cases hthree : oneCharLen c = 3
    · rw [hthree] at hmore ⊢
      rcases rest with _ | ⟨a, _ | ⟨b, rest⟩⟩
      · rcases hmore with hmore | rfl
        · simp at hmore
        · simp [nodeOfFront]
      · rcases hmore with hmore | rfl
        · simp at hmore
        · simp [nodeOfFront]
      · simpa [nodeOfFront] using h
    · simpa [hk] using nodeOfFront_of_oneCharLen hthree _
  rw [hk, List.take_succ_cons, List.cons_append] at hnode ⊢
  rw [convert_copy hnode, hk, List.take_succ_cons, List.drop_succ_cons]
  rcases hmore with hmore | rfl
  · have hlen : (rest.take k).length = k := by
      rw [hk, List.length_cons] at hmore
      simp
      omega
    have htake : (rest.take k ++ more).take k = rest.take k := List.take_left' hlen
    have hdrop : (rest.take k ++ more).drop k = more := List.drop_left' hlen
    rw [htake, hdrop]
  · rw [List.append_nil, List.take_take, Nat.min_self, List.drop_take, Nat.sub_self, List.take_zero]

/-- **What was converted stays as it is.** -/
theorem fullWidthAsciiToHalfWidthAscii_idem (input : Bytes) :
    fullWidthAsciiToHalfWidthAscii (fullWidthAsciiToHalfWidthAscii input) =
      fullWidthAsciiToHalfWidthAscii input := by
  match input with
  | [] => rfl
  | c :: rest =>
    cases h : nodeOfFront (c :: rest) with
    | some n =>
      obtain ⟨_, x, _, hx, hascii, _⟩ := written_of_isRule (isRule_of_nodeOfFront h)
      have hone : oneCharLen x = 1 := by
        unfold oneCharLen
        rw [if_pos (by omega)]
      have ih := fullWidthAsciiToHalfWidthAscii_idem ((c :: rest).drop 3)
      rw [convert_rule h, hx, List.singleton_append,
        convert_copy (nodeOfFront_of_oneCharLen (by omega) _), hone, List.drop_one, List.tail_cons,
        ih]
      rfl
    | none =>
      have ih := fullWidthAsciiToHalfWidthAscii_idem ((c :: rest).drop (oneCharLen c))
      rw [convert_copy h, convert_copied h ?_, ih]
      by_cases hlen : oneCharLen c ≤ (c :: rest).length
      · exact .inl hlen
      · rw [List.drop_of_length_le (Nat.le_of_not_le hlen)]
        exact .inr rfl
termination_by input.length
decreasing_by
  all_goals
    have := oneCharLen_le c
    simp only [List.length_drop, List.length_cons]
    omega

end Mozkey.Base
