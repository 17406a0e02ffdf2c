import Mozkey.Converter.Segments
import Mozkey.Converter.ConnectionRoundtrip
import Mozkey.Infra.Memo

/-!
# The caches are invisible

A connector and a caching connector in front of it are asked in any order. What they answer is
the cost in the matrix the connection data was compiled from, and that cost less the bonus.

* `Connector.getTransitionCost_eq`, `CachingConnector.getTransitionCost_eq` — one call
* `answers_compiled` — **every call of every run**
-/

/-!
## The caching connector (`converter/caching_connector.h`)

The Viterbi search looks up the costs from many left nodes to one right node. The caching
connector keeps a cost for each right id of the left node, tagged with the left id of the right
node. It also lowers the cost where a particle is likely to be left out.
-/

namespace Mozkey.Converter

structure CachingConnector where
  /-- The template parameter. -/
  hasBonus : Bool
  particleOmissionTransitionCostBonus : Int
  posMatcher : PosMatcher
  /-- For each right id the tag and the cost. -/
  cache : Nat → Nat × Int
  cacheLid : Nat
  isRightNodeTarget : Bool

namespace CachingConnector

def kInvalidLid : Nat := 0xFFFF

def kCacheSize : Nat := 2048

def create (hasBonus : Bool) (bonus : Int) (posMatcher : PosMatcher) : CachingConnector :=
  { hasBonus := hasBonus
    particleOmissionTransitionCostBonus := bonus
    posMatcher := posMatcher
    cache := fun _ => (kInvalidLid, 0)
    cacheLid := kInvalidLid
    isRightNodeTarget := false }

def resetCacheIfNecessary (cc : CachingConnector) (rnodeLid : Nat) : CachingConnector :=
  if cc.cacheLid ≠ rnodeLid then
    { cc with
      cacheLid := rnodeLid
      isRightNodeTarget :=
        if cc.hasBonus then
          decide (0 < cc.particleOmissionTransitionCostBonus) &&
            cc.posMatcher.isContentWordWithConjugation rnodeLid
        else cc.isRightNodeTarget }
  else cc

def applyBonus (cc : CachingConnector) (cost : Int) (lnodeRid : Nat) : Int :=
  if cc.hasBonus && (cc.isRightNodeTarget &&
      (cc.posMatcher.isContentNoun lnodeRid || cc.posMatcher.isPronoun lnodeRid)) then
    max 0 (cost - cc.particleOmissionTransitionCostBonus)
  else cost

def getTransitionCost (cc : CachingConnector) (connector : Connector) (lnodeRid rnodeLid : Nat) :
    Option (Int × CachingConnector × Connector) :=
  if kCacheSize ≤ lnodeRid then
    (connector.getTransitionCost lnodeRid rnodeLid).map fun (cost, connector) =>
      (cc.applyBonus cost lnodeRid, cc, connector)
  else if (cc.cache lnodeRid).1 = rnodeLid then some ((cc.cache lnodeRid).2, cc, connector)
  else (connector.getTransitionCost lnodeRid rnodeLid).map fun (cost, connector) =>
    let cost := cc.applyBonus cost lnodeRid
    (cost, { cc with cache := Function.update cc.cache lnodeRid (rnodeLid, cost) }, connector)

end CachingConnector

open Infra

/-! ## The hashed cache -/

namespace Connector

/-- The cache of packed words. -/
def memo : Memo (Nat × Nat) Nat Nat Nat where
  slot k := bucket k.1 k.2
  answer cv k := if cv % 2 ^ 32 = cacheIndex k.1 k.2 then some (cv >>> 32) else none
  entry k value := value <<< 32 ||| cacheIndex k.1 k.2

/-- The pairs of ids of a matrix of this size. -/
def Ids (size : Nat) (k : Nat × Nat) : Prop := k.1 < size ∧ k.2 < size

theorem cacheIndex_eq (rid : Nat) {lid : Nat} (h : lid < 2 ^ 16) :
    cacheIndex rid lid = rid * 2 ^ 16 + lid := by
  rw [cacheIndex, ← Nat.shiftLeft_add_eq_or_of_lt h, Nat.shiftLeft_eq]

theorem memo_exact {size : Nat} (hsize : size ≤ 2 ^ 16) : memo.Exact (Ids size) := by
  rintro ⟨rid, lid⟩ ⟨rid', lid'⟩ v v' ⟨hrid, hlid⟩ ⟨hrid', hlid'⟩ _ h
  simp only at hrid hlid hrid' hlid'
  have hindex := cacheIndex_eq rid (show lid < 2 ^ 16 by omega)
  have hindex' := cacheIndex_eq rid' (show lid' < 2 ^ 16 by omega)
  have hlt : cacheIndex rid lid < 2 ^ 32 := by omega
  have hword : v <<< 32 ||| cacheIndex rid lid = v * 2 ^ 32 + cacheIndex rid lid := by
    rw [← Nat.shiftLeft_add_eq_or_of_lt hlt, Nat.shiftLeft_eq]
  simp only [memo, hword, Nat.shiftRight_eq_div_pow] at h
  split at h
  · next heq =>
    have hv := Option.some.inj h
    refine ⟨Prod.ext ?_ ?_, ?_⟩
    · show rid' = rid
      omega
    · show lid' = lid
      omega
    · omega
  · cases h

variable {size : Nat} {cost : Nat → Nat → Nat} {c : Connector} {rid lid : Nat}

/-- The rows hold these costs, and so does the cache. -/
structure Serves (c : Connector) (size : Nat) (cost : Nat → Nat → Nat) : Prop where
  lookup : ∀ rid lid, rid < size → lid < size → c.lookupCost rid lid = some (cost rid lid)
  cache : memo.Coherent (Ids size) (fun k => cost k.1 k.2) c.cache

/-- A new connector: the words filled with 0 answer 0 for the pair (0, 0). -/
theorem Serves.init (hlookup : ∀ rid lid, rid < size → lid < size →
    c.lookupCost rid lid = some (cost rid lid)) (hzero : cost 0 0 = 0)
    (hcache : ∀ b, c.cache b = 0) (hsize : size ≤ 2 ^ 16) : c.Serves size cost := by
  refine ⟨hlookup, ?_⟩
  rintro ⟨rid, lid⟩ v ⟨_, hlid⟩ h
  simp only at hlid
  have hindex := cacheIndex_eq rid (show lid < 2 ^ 16 by omega)
  simp only [memo, hcache, Nat.zero_mod, Nat.zero_shiftRight] at h
  split at h
  · next heq =>
    obtain rfl : rid = 0 := by omega
    obtain rfl : lid = 0 := by omega
    rw [← Option.some.inj h]
    exact hzero.symm
  · cases h

/-- **One call**: the cost, and a connector that still serves. -/
theorem getTransitionCost_eq (h : c.Serves size cost) (hsize : size ≤ 2 ^ 16)
    (hrid : rid < size) (hlid : lid < size) :
    ∃ c', c.getTransitionCost rid lid = some (cost rid lid, c') ∧ c'.Serves size cost := by
  rw [getTransitionCost]
  split
  · next hit =>
    have hv : c.cache (bucket rid lid) >>> 32 = cost rid lid :=
      h.cache (rid, lid) _ ⟨hrid, hlid⟩ (if_pos hit)
    rw [hv]
    exact ⟨c, rfl, h⟩
  · rw [h.lookup rid lid hrid hlid, Option.map_some]
    refine ⟨_, rfl, fun rid' lid' hrid' hlid' => h.lookup rid' lid' hrid' hlid', ?_⟩
    exact h.cache.update (memo_exact hsize) (k := (rid, lid)) ⟨hrid, hlid⟩

end Connector

/-! ## The tagged cache -/

namespace CachingConnector

/-- The entries with their tags. -/
def memo : Memo (Nat × Nat) Nat (Nat × Int) Int where
  slot k := k.1
  answer e k := if e.1 = k.2 then some e.2 else none
  entry k cost := (k.2, cost)

theorem memo_exact (keys : Nat × Nat → Prop) : memo.Exact keys := by
  rintro ⟨rid, lid⟩ ⟨rid', lid'⟩ v v' _ _ hslot h
  simp only [memo] at hslot h
  split at h
  · next heq => exact ⟨Prod.ext hslot heq.symm, (Option.some.inj h).symm⟩
  · cases h

/-- The bonus is for a content noun or a pronoun before a content word with conjugation. -/
def bonusApplies (cc : CachingConnector) (rid lid : Nat) : Bool :=
  cc.hasBonus && (decide (0 < cc.particleOmissionTransitionCostBonus) &&
    cc.posMatcher.isContentWordWithConjugation lid &&
      (cc.posMatcher.isContentNoun rid || cc.posMatcher.isPronoun rid))

/-- The cost less the bonus. -/
def reducedCost (cc : CachingConnector) (cost : Int) (rid lid : Nat) : Int :=
  if cc.bonusApplies rid lid then max 0 (cost - cc.particleOmissionTransitionCostBonus) else cost

/-- The fixed part of a caching connector. -/
def SameRules (cc cc' : CachingConnector) : Prop :=
  cc'.hasBonus = cc.hasBonus ∧
    cc'.particleOmissionTransitionCostBonus = cc.particleOmissionTransitionCostBonus ∧
    cc'.posMatcher = cc.posMatcher

variable {size : Nat} {cost : Nat → Nat → Nat} {cc cc₀ : CachingConnector} {c : Connector}
  {rid lid : Nat} {latest : Option Nat}

theorem SameRules.reducedCost_eq (h : cc₀.SameRules cc) (n : Int) (rid lid : Nat) :
    cc.reducedCost n rid lid = cc₀.reducedCost n rid lid := by
  simp [reducedCost, bonusApplies, h.1, h.2.1, h.2.2]

/-- What holds between the calls. -/
structure Serves (cc₀ cc : CachingConnector) (size : Nat) (cost : Nat → Nat → Nat)
    (latest : Option Nat) : Prop where
  rules : cc₀.SameRules cc
  cache : memo.Coherent (Connector.Ids size)
    (fun k => cc₀.reducedCost (cost k.1 k.2) k.1 k.2) cc.cache
  latest : ∀ lid, latest = some lid → cc.cacheLid = lid
  /-- The flag is for the tag, but for the one that no id of the matrix has. -/
  target : cc.hasBonus = true → cc.cacheLid < size → cc.isRightNodeTarget =
    (decide (0 < cc.particleOmissionTransitionCostBonus) &&
      cc.posMatcher.isContentWordWithConjugation cc.cacheLid)

theorem serves_create (hasBonus : Bool) (bonus : Int) (posMatcher : PosMatcher)
    (hsize : size < 2 ^ 16) :
    Serves (create hasBonus bonus posMatcher)
      (create hasBonus bonus posMatcher) size cost none := by
  refine ⟨⟨rfl, rfl, rfl⟩, ?_, fun lid h => (by cases h), fun _ h => ?_⟩
  · rintro ⟨rid, lid⟩ v ⟨_, hlid⟩ h
    simp only at hlid
    have hne : ¬kInvalidLid = lid := by
      rw [kInvalidLid]
      omega
    simp [memo, create, hne] at h
  · have hlt : kInvalidLid < size := h
    rw [kInvalidLid] at hlt
    omega

theorem Serves.reset (h : Serves cc₀ cc size cost latest) (lid : Nat) :
    Serves cc₀ (cc.resetCacheIfNecessary lid) size cost (some lid) := by
  unfold resetCacheIfNecessary
  split
  · exact ⟨h.rules, h.cache, fun l hl => Option.some.inj hl, fun hbonus _ => by
      simp only at hbonus
      simp [hbonus]⟩
  · next heq => exact ⟨h.rules, h.cache, fun l hl => by
      rw [← Option.some.inj hl]
      exact not_not.mp heq, h.target⟩

theorem Serves.applyBonus_eq (h : Serves cc₀ cc size cost latest) (hlid : cc.cacheLid < size)
    (n : Int) (rid : Nat) : cc.applyBonus n rid = cc₀.reducedCost n rid cc.cacheLid := by
  rw [← h.rules.reducedCost_eq, applyBonus, reducedCost, bonusApplies]
  cases hbonus : cc.hasBonus with
  | false => rfl
  | true => rw [h.target hbonus hlid]

/-- **One call with the id of the latest reset.** -/
theorem getTransitionCost_eq (h : Serves cc₀ cc size cost (some lid)) (hc : c.Serves size cost)
    (hsize : size ≤ 2 ^ 16) (hrid : rid < size) (hlid : lid < size) :
    ∃ cc' c', cc.getTransitionCost c rid lid
        = some (cc₀.reducedCost (cost rid lid) rid lid, cc', c') ∧
      Serves cc₀ cc' size cost (some lid) ∧ c'.Serves size cost := by
  obtain rfl := h.latest lid rfl
  obtain ⟨c', hget, hc'⟩ := Connector.getTransitionCost_eq hc hsize hrid hlid
  have hbonus := h.applyBonus_eq hlid
  rw [getTransitionCost]
  split
  · refine ⟨cc, c', ?_, h, hc'⟩
    simp [hget, ← hbonus]
  · split
    · next hit =>
      have hv : (cc.cache rid).2 = cc₀.reducedCost (cost rid cc.cacheLid) rid cc.cacheLid :=
        h.cache (rid, cc.cacheLid) _ ⟨hrid, hlid⟩ (if_pos hit)
      rw [hv]
      exact ⟨cc, c, rfl, h, hc⟩
    · rw [hget, Option.map_some]
      simp only [hbonus]
      refine ⟨_, c', rfl, ⟨h.rules, ?_, h.latest, h.target⟩, hc'⟩
      exact h.cache.update (memo_exact _) (k := (rid, cc.cacheLid)) ⟨hrid, hlid⟩

end CachingConnector

/-! ## Runs -/

/-- A call of the connector, or of the caching connector in front of it. -/
inductive Call
  | connector (rid lid : Nat)
  | reset (lid : Nat)
  | caching (rid lid : Nat)
deriving Repr, DecidableEq

/-- Both, between two calls. -/
structure Connectors where
  connector : Connector
  caching : CachingConnector

namespace Connectors

/-- A call with its answer, if it has one. -/
def call (s : Connectors) : Call → Option (Option Int × Connectors)
  | .connector rid lid => (s.connector.getTransitionCost rid lid).map fun (cost, connector) =>
    (some (cost : Int), { s with connector := connector })
  | .reset lid => some (none, { s with caching := s.caching.resetCacheIfNecessary lid })
  | .caching rid lid =>
    (s.caching.getTransitionCost s.connector rid lid).map fun (cost, caching, connector) =>
      (some cost, ⟨connector, caching⟩)

/-- The answers of the calls, in order. -/
def answers : Connectors → List Call → Option (List Int)
  | _, [] => some []
  | s, call :: calls =>
    (s.call call).bind fun (answer, s) => (answers s calls).map (answer.toList ++ ·)

end Connectors

/-- The ids are of the matrix, and the caching connector is asked with the id of the latest
reset. -/
def Legal (size : Nat) : Option Nat → List Call → Prop
  | _, [] => True
  | latest, .connector rid lid :: calls => rid < size ∧ lid < size ∧ Legal size latest calls
  | _, .reset lid :: calls => Legal size (some lid) calls
  | latest, .caching rid lid :: calls =>
    rid < size ∧ lid < size ∧ latest = some lid ∧ Legal size latest calls

/-- What a call is to answer. -/
def Call.expected (cost : Nat → Nat → Int) (rules : CachingConnector) : Call → List Int
  | .connector rid lid => [cost rid lid]
  | .reset _ => []
  | .caching rid lid => [rules.reducedCost (cost rid lid) rid lid]

theorem Connectors.answers_eq {size : Nat} {cost : Nat → Nat → Nat} {want : Nat → Nat → Int}
    {rules : CachingConnector} (hsize : size ≤ 2 ^ 16)
    (hwant : ∀ rid lid, rid < size → lid < size → (cost rid lid : Int) = want rid lid) :
    ∀ {calls : List Call} {s : Connectors} {latest : Option Nat},
      s.connector.Serves size cost → rules.Serves s.caching size cost latest →
      Legal size latest calls →
        s.answers calls = some (calls.flatMap (Call.expected want rules))
  | [], _, _, _, _, _ => rfl
  | .connector rid lid :: calls, s, latest, hc, hcc, ⟨hrid, hlid, hlegal⟩ => by
    obtain ⟨c', hget, hc'⟩ := Connector.getTransitionCost_eq hc hsize hrid hlid
    have ih := answers_eq (s := ⟨c', s.caching⟩) hsize hwant hc' hcc hlegal
    simp [answers, call, hget, ih, Call.expected, hwant rid lid hrid hlid]
  | .reset lid :: calls, s, latest, hc, hcc, hlegal => by
    have ih := answers_eq (s := ⟨s.connector, s.caching.resetCacheIfNecessary lid⟩) hsize hwant hc
      (hcc.reset lid) hlegal
    simp [answers, call, ih, Call.expected]
  | .caching rid lid :: calls, s, latest, hc, hcc, ⟨hrid, hlid, hlatest, hlegal⟩ => by
    rw [hlatest] at hcc hlegal
    obtain ⟨cc', c', hget, hcc', hc'⟩ :=
      CachingConnector.getTransitionCost_eq hcc hc hsize hrid hlid
    have ih := answers_eq (s := ⟨c', cc'⟩) hsize hwant hc' hcc' hlegal
    simp [answers, call, hget, ih, Call.expected, hwant rid lid hrid hlid]

/-- The cost in the matrix, as far as it is written. -/
def matrixCost (use1byteCost : Bool) (matrix : List (List Int)) (modeValueList : List Int)
    (rid lid : Nat) : Int :=
  readCost use1byteCost (modeValueList.getD rid 0) ((matrix.getD rid []).getD lid 0)

theorem readCost_zero (u : Bool) (modeValue : Int) : readCost u modeValue 0 = 0 := by
  cases u <;> simp [readCost]

/-- **Transition costs read back are the ones compiled in, whatever was asked before.** -/
theorem answers_compiled {u : Bool} {matrix : List (List Int)} {modes : List Int} {bytes : Bytes}
    (h : compile matrix modes u = some bytes)
    (hsquare : ∀ row ∈ matrix, row.length = matrix.length)
    (hzero : ∃ row, matrix[0]? = some row ∧ row[0]? = some 0)
    {address : Nat} (haligned : address % 4 = 0) :
    ∃ c, Connector.create address bytes = .ok c ∧
      ∀ (hasBonus : Bool) (bonus : Int) (posMatcher : PosMatcher) (calls : List Call),
        Legal matrix.length none calls →
          Connectors.answers ⟨c, .create hasBonus bonus posMatcher⟩ calls
            = some (calls.flatMap (Call.expected (matrixCost u matrix modes)
                (.create hasBonus bonus posMatcher))) := by
  obtain ⟨c, hcreate, hcache, hsize, hmodes, hlookup⟩ := lookupCost_compiled h hsquare haligned
  -- The costs as the rows hold them.
  let cost rid lid := (c.lookupCost rid lid).getD 0
  have hcost : ∀ rid lid, rid < matrix.length → lid < matrix.length →
      c.lookupCost rid lid = some (cost rid lid) ∧
        (cost rid lid : Int) = matrixCost u matrix modes rid lid := by
    intro rid lid hrid hlid
    have hlen : matrix[rid].length = matrix.length := hsquare _ (List.getElem_mem hrid)
    obtain ⟨n, hn, hread⟩ := hlookup rid lid matrix[rid] (matrix[rid][lid]) modes[rid]
      (List.getElem?_eq_getElem hrid) (List.getElem?_eq_getElem (by omega))
      (List.getElem?_eq_getElem (by omega))
    have hn' : cost rid lid = n := by
      show (c.lookupCost rid lid).getD 0 = n
      simp [hn]
    refine ⟨hn'.symm ▸ hn, ?_⟩
    rw [hn', hread, matrixCost, List.getD_eq_getElem _ _ (by omega), List.getD_eq_getElem _ _ hrid,
      List.getD_eq_getElem _ _ (by omega)]
  obtain ⟨row, hrow, hcell⟩ := hzero
  have hpos : 0 < matrix.length := (List.getElem?_eq_some_iff.mp hrow).1
  have hzero' : cost 0 0 = 0 := by
    have hrow' : matrix.getD 0 [] = row := by rw [List.getD_eq_getElem?_getD, hrow]; rfl
    have hcell' : row.getD 0 0 = 0 := by rw [List.getD_eq_getElem?_getD, hcell]; rfl
    have h00 := (hcost 0 0 hpos hpos).2
    rw [matrixCost, hrow', hcell', readCost_zero] at h00
    exact Int.ofNat.inj h00
  have hserves : c.Serves matrix.length cost :=
    .init (fun rid lid hrid hlid => (hcost rid lid hrid hlid).1) hzero' hcache hsize.le
  refine ⟨c, hcreate, fun hasBonus bonus posMatcher calls hlegal => ?_⟩
  exact Connectors.answers_eq hsize.le (fun rid lid hrid hlid => (hcost rid lid hrid hlid).2)
    hserves (CachingConnector.serves_create hasBonus bonus posMatcher hsize) hlegal

/-- A matrix with a mode value of its own for each row, in one byte. -/
def smallMatrix : List (List Int) := [[0, 30000], [650, 200]]

def smallData : Bytes :=
  [0xAB, 0xCD, 0x40, 0x00, 0x02, 0x00, 0x02, 0x00, 0x64, 0x00, 0xC8, 0x00,
    0x04, 0x00, 0x04, 0x00, 0x01, 0x00, 0x00, 0x00, 0x03, 0x00, 0x00, 0x00, 0x00, 0xFF, 0x00, 0x00,
    0x04, 0x00, 0x04, 0x00, 0x01, 0x00, 0x00, 0x00, 0x01, 0x00, 0x00, 0x00, 0x0A, 0x00, 0x00, 0x00]

/-- A noun, and a verb behind it. -/
def nounAndVerb : PosMatcher where
  isContentNoun id := id = 1
  isContentWordWithConjugation id := id = 1

theorem answers_compiled_smallMatrix :
    ∃ c, Connector.create 0 smallData = .ok c ∧
      Connectors.answers ⟨c, .create true 150 nounAndVerb⟩
          [.connector 1 0, .connector 0 1, .reset 1, .caching 1 1, .caching 1 1, .connector 0 0]
        = some [640, 30000, 50, 50, 0] := by
  have hdata : compile smallMatrix [100, 200] true = some smallData := by decide +kernel
  obtain ⟨c, hc, h⟩ := answers_compiled hdata (by decide) ⟨_, rfl, rfl⟩ (show 0 % 4 = 0 from rfl)
  exact ⟨c, hc, h true 150 nounAndVerb _ (by simp [Legal, smallMatrix])⟩

end Mozkey.Converter
