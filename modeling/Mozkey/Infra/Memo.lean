import Mathlib.Logic.Function.Basic

/-!
# Caches that answer for a function

A cache has slots, and each slot holds one entry at all times, also before the first store. What
an entry answers depends on the key. A cache is coherent when no answer is wrong, and storing
the value of a key keeps it so, as long as an entry answers for the key it was made for only.
-/

namespace Infra

/-- Where a key is kept, what an entry answers, and the entry of a key and its value. -/
structure Memo (K S E V : Type) where
  slot : K → S
  answer : E → K → Option V
  entry : K → V → E

namespace Memo

variable {K S E V : Type} {m : Memo K S E V} {keys : K → Prop} {f : K → V} {cache : S → E}

/-- An entry answers for its own key only, of the keys that are asked. -/
def Exact (m : Memo K S E V) (keys : K → Prop) : Prop :=
  ∀ k k' v v', keys k → keys k' → m.slot k' = m.slot k → m.answer (m.entry k v) k' = some v' →
    k' = k ∧ v' = v

/-- No answer is wrong. -/
def Coherent (m : Memo K S E V) (keys : K → Prop) (f : K → V) (cache : S → E) : Prop :=
  ∀ k v, keys k → m.answer (cache (m.slot k)) k = some v → v = f k

/-- **Storing a value keeps the cache coherent.** -/
theorem Coherent.update [DecidableEq S] (hm : m.Exact keys) (h : m.Coherent keys f cache) {k : K}
    (hk : keys k) : m.Coherent keys f (Function.update cache (m.slot k) (m.entry k (f k))) := by
  intro k' v hk' hv
  by_cases hslot : m.slot k' = m.slot k
  · rw [hslot, Function.update_self] at hv
    obtain ⟨rfl, rfl⟩ := hm k k' (f k) v hk hk' hslot hv
    rfl
  · rw [Function.update_of_ne hslot] at hv
    exact h k' v hk' hv

end Memo

end Infra
