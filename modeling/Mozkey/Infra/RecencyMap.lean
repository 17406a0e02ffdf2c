import Mathlib.Data.List.Nodup
import Mathlib.Data.List.Perm.Subperm

/-!
# Bounded recency maps

A recency list with its capacity. A map is never over its capacity and has every key once.

* `Infra.RecencyMap.get?_insert` — what a map says after an insertion that there is room for
* `Infra.RecencyMap.get?_adjust` — after a value was changed in its place
* `Infra.RecencyMap.Within` — all keys are from a list that there is room for
-/

/-!
## Recency lists

A map is kept as a list of its pairs, the one that was used last in front. A key that is used
moves to the front, and a key that is put into a full map pushes the last pair out.

* `Infra.Recency.value?` — the value of a key
* `Infra.Recency.touch` — a key is used
* `Infra.Recency.put` — a key gets a value
* `Infra.Recency.remove` — a key is taken out
-/

namespace Infra.Recency

variable {κ υ : Type} [DecidableEq κ] {k : κ} {v : υ} {entries : List (κ × υ)}

def keys (entries : List (κ × υ)) : List κ := entries.map Prod.fst

def value? (k : κ) (entries : List (κ × υ)) : Option υ := entries.lookup k

def remove (k : κ) (entries : List (κ × υ)) : List (κ × υ) := entries.filter (fun e => e.1 ≠ k)

/-- The pair of `k` comes to the front. -/
def touch (k : κ) (entries : List (κ × υ)) : List (κ × υ) :=
  match value? k entries with
  | some v => (k, v) :: remove k entries
  | none => entries

/-- `k` gets the value `v` in front of the others. If `k` is new and there is no room, the
last pair makes room. -/
def put (room : Bool) (k : κ) (v : υ) (entries : List (κ × υ)) : List (κ × υ) :=
  if k ∈ keys entries then (k, v) :: remove k entries
  else if room then (k, v) :: entries
  else (k, v) :: entries.dropLast

/-- The value of `k` is changed in place. -/
def modify (k : κ) (f : υ → υ) (entries : List (κ × υ)) : List (κ × υ) :=
  entries.map (fun e => if e.1 = k then (e.1, f e.2) else e)

variable {l₁ l₂ : List (κ × υ)}

/-! ## A key in the list -/

theorem not_mem_keys_of_nodup (h : (keys (l₁ ++ (k, v) :: l₂)).Nodup) :
    k ∉ keys l₁ ∧ k ∉ keys l₂ := by
  simp only [keys, List.map_append, List.map_cons] at h ⊢
  exact ⟨fun hk => (List.nodup_append.mp h).2.2 k hk k (by simp) rfl,
    (List.nodup_cons.mp (List.nodup_append.mp h).2.1).1⟩

theorem remove_of_not_mem (h : k ∉ keys entries) : remove k entries = entries := by
  refine List.filter_eq_self.mpr fun e he => ?_
  have : e.1 ≠ k := fun hk => h (hk ▸ List.mem_map_of_mem he)
  simpa using this

theorem remove_middle (h : (keys (l₁ ++ (k, v) :: l₂)).Nodup) :
    remove k (l₁ ++ (k, v) :: l₂) = l₁ ++ l₂ := by
  obtain ⟨h₁, h₂⟩ := not_mem_keys_of_nodup h
  have hself : remove k ((k, v) :: l₂) = remove k l₂ := List.filter_cons_of_neg (by simp)
  calc remove k (l₁ ++ (k, v) :: l₂) = remove k l₁ ++ remove k ((k, v) :: l₂) :=
        List.filter_append ..
    _ = l₁ ++ l₂ := by rw [hself, remove_of_not_mem h₁, remove_of_not_mem h₂]

theorem value?_middle (h : k ∉ keys l₁) : value? k (l₁ ++ (k, v) :: l₂) = some v := by
  induction l₁ with
  | nil => simp [value?]
  | cons e l ih =>
    obtain ⟨hne, hl⟩ : k ≠ e.1 ∧ k ∉ keys l := by simpa [keys] using h
    have hbeq : (k == e.1) = false := by simpa using hne
    show List.lookup k (e :: (l ++ (k, v) :: l₂)) = some v
    rw [List.lookup_cons, hbeq]
    exact ih hl

theorem value?_of_not_mem (h : k ∉ keys entries) : value? k entries = none := by
  induction entries with
  | nil => rfl
  | cons e l ih =>
    obtain ⟨hne, hl⟩ : k ≠ e.1 ∧ k ∉ keys l := by simpa [keys] using h
    have hbeq : (k == e.1) = false := by simpa using hne
    rw [value?, List.lookup_cons, hbeq]
    exact ih hl

theorem touch_middle (h : (keys (l₁ ++ (k, v) :: l₂)).Nodup) :
    touch k (l₁ ++ (k, v) :: l₂) = (k, v) :: (l₁ ++ l₂) := by
  rw [touch, value?_middle (not_mem_keys_of_nodup h).1, remove_middle h]

theorem touch_of_not_mem (h : k ∉ keys entries) : touch k entries = entries := by
  rw [touch, value?_of_not_mem h]

theorem modify_of_not_mem (f : υ → υ) (h : k ∉ keys entries) :
    modify k f entries = entries := by
  refine (List.map_congr_left fun e he => ?_).trans (List.map_id entries)
  exact if_neg fun hk : e.1 = k => h (hk ▸ List.mem_map_of_mem he)

theorem modify_cons (f : υ → υ) (h : k ∉ keys entries) :
    modify k f ((k, v) :: entries) = (k, f v) :: entries := by
  rw [modify, List.map_cons, if_pos rfl]
  exact congrArg _ (modify_of_not_mem f h)

theorem put_middle (room : Bool) (w : υ) (h : (keys (l₁ ++ (k, v) :: l₂)).Nodup) :
    put room k w (l₁ ++ (k, v) :: l₂) = (k, w) :: (l₁ ++ l₂) := by
  rw [put, if_pos (by simp [keys]), remove_middle h]

theorem put_of_not_mem (room : Bool) (w : υ) (h : k ∉ keys entries) :
    put room k w entries =
      if room then (k, w) :: entries else (k, w) :: entries.dropLast := by
  rw [put, if_neg h]

end Infra.Recency

namespace Infra

structure RecencyMap (κ υ : Type) where
  capacity : Nat
  entries : List (κ × υ) := []
  positive : 0 < capacity
  bounded : entries.length ≤ capacity := by simp
  nodup : (Recency.keys entries).Nodup := by simp [Recency.keys]

namespace RecencyMap

open Recency

variable {κ υ : Type} [DecidableEq κ] {k k' : κ} {v : υ} {m m' : RecencyMap κ υ}

theorem nodup_remove {entries : List (κ × υ)} (h : (keys entries).Nodup) :
    (keys (remove k entries)).Nodup :=
  h.sublist (List.filter_sublist.map _)

theorem not_mem_keys_remove (entries : List (κ × υ)) : k ∉ keys (remove k entries) := by
  intro h
  obtain ⟨e, he, hk⟩ := List.mem_map.mp h
  have hne : e.1 ≠ k := by simpa using (List.mem_filter.mp he).2
  exact hne hk

theorem length_remove_lt {entries : List (κ × υ)} (h : k ∈ keys entries) :
    (remove k entries).length < entries.length := by
  obtain ⟨e, he, hk⟩ := List.mem_map.mp h
  exact List.length_filter_lt_length_iff_exists.mpr ⟨e, he, by simp [hk]⟩

/-! ## The operations -/

def get? (m : RecencyMap κ υ) (k : κ) : Option υ := value? k m.entries

/-- `k` can be put into the map without pushing anything out. -/
def RoomFor (m : RecencyMap κ υ) (k : κ) : Prop := m.get? k ≠ none ∨ m.entries.length < m.capacity

def insert (m : RecencyMap κ υ) (k : κ) (v : υ) : RecencyMap κ υ where
  capacity := m.capacity
  entries := put (m.entries.length < m.capacity) k v m.entries
  positive := m.positive
  bounded := by
    have hb := m.bounded
    have hp := m.positive
    unfold put
    split
    · next h => exact Nat.le_trans (length_remove_lt h) hb
    · split
      · next h => exact Nat.succ_le_of_lt (of_decide_eq_true h)
      · simp
        omega
  nodup := by
    unfold put
    split
    · exact List.nodup_cons.mpr ⟨not_mem_keys_remove _, nodup_remove m.nodup⟩
    · next hk =>
      split
      · exact List.nodup_cons.mpr ⟨hk, m.nodup⟩
      · have hs : (keys m.entries.dropLast).Sublist (keys m.entries) :=
          (List.dropLast_sublist _).map _
        exact List.nodup_cons.mpr ⟨fun h => hk (hs.subset h), m.nodup.sublist hs⟩

def erase (m : RecencyMap κ υ) (k : κ) : RecencyMap κ υ where
  capacity := m.capacity
  entries := remove k m.entries
  positive := m.positive
  bounded := Nat.le_trans (List.length_filter_le _ _) m.bounded
  nodup := nodup_remove m.nodup

/-! ## What a map says afterwards -/

theorem value?_cons (k' : κ) (e : κ × υ) (entries : List (κ × υ)) :
    value? k' (e :: entries) = if k' = e.1 then some e.2 else value? k' entries := by
  by_cases h : k' = e.1
  · have hbeq : (k' == e.1) = true := by simpa using h
    rw [value?, List.lookup_cons, hbeq, if_pos h]
  · have hbeq : (k' == e.1) = false := by simpa using h
    rw [value?, List.lookup_cons, hbeq, if_neg h]
    rfl

theorem value?_remove (k k' : κ) : ∀ entries : List (κ × υ),
    value? k' (remove k entries) = if k' = k then none else value? k' entries
  | [] => by simp [remove, value?]
  | e :: entries => by
    unfold remove
    rw [List.filter_cons]
    have ih := value?_remove k k' entries
    unfold remove at ih
    by_cases he : e.1 = k
    · rw [if_neg (by simp [he]), ih, value?_cons]
      by_cases hk : k' = k
      · simp [hk]
      · rw [if_neg hk, if_neg hk, if_neg (by rw [he]; exact hk)]
    · rw [if_pos (by simp [he]), value?_cons, value?_cons, ih]
      by_cases hk : k' = e.1
      · rw [if_pos hk, if_pos hk, if_neg (by rw [hk]; exact he)]
      · simp [hk]

theorem value?_eq_none_iff {entries : List (κ × υ)} :
    value? k entries = none ↔ k ∉ keys entries := by
  induction entries with
  | nil => simp [value?, keys]
  | cons e entries ih =>
    rw [value?_cons]
    unfold keys at ih ⊢
    rw [List.map_cons, List.mem_cons]
    by_cases h : k = e.1
    · simp [h]
    · simp [h, ih]

theorem get?_eq_none_iff : m.get? k = none ↔ k ∉ keys m.entries := value?_eq_none_iff

@[simp] theorem capacity_insert : (m.insert k v).capacity = m.capacity := rfl

theorem get?_insert_self : (m.insert k v).get? k = some v := by
  show value? k (put _ k v m.entries) = some v
  unfold put
  split
  · simp [value?_cons]
  · split <;> rw [value?_cons, if_pos rfl]

/-- When there is room, nothing but the value of `k` changes. -/
theorem get?_insert (h : m.RoomFor k) :
    (m.insert k v).get? k' = if k' = k then some v else m.get? k' := by
  show value? k' (put _ k v m.entries) = _
  unfold put
  by_cases hk : k ∈ keys m.entries
  · rw [if_pos hk, value?_cons, value?_remove]
    by_cases he : k' = k
    · simp [he]
    · rw [if_neg he, if_neg he, if_neg he]
      rfl
  · have hroom : m.entries.length < m.capacity := by
      rcases h with h | h
      · exact absurd (get?_eq_none_iff.mpr hk) h
      · exact h
    rw [if_neg hk, if_pos (by simpa using hroom), value?_cons]
    rfl

theorem value?_of_dropLast : ∀ {entries : List (κ × υ)},
    value? k entries.dropLast = some v → value? k entries = some v
  | [], h => h
  | [_], h => by simp [value?] at h
  | e :: e' :: entries, h => by
    rw [List.dropLast_cons_cons, value?_cons] at h
    rw [value?_cons]
    split at h
    · next hk => rw [if_pos hk, h]
    · next hk => rw [if_neg hk, value?_of_dropLast h]

/-- Whatever makes room, the other keys have no other value. -/
theorem get?_of_insert {w : υ} (hk : k' ≠ k) (h : (m.insert k v).get? k' = some w) :
    m.get? k' = some w := by
  have hput : value? k' (put (m.entries.length < m.capacity) k v m.entries) = some w := h
  unfold put at hput
  split at hput
  · rwa [value?_cons, if_neg hk, value?_remove, if_neg hk] at hput
  · split at hput
    · rwa [value?_cons, if_neg hk] at hput
    · rw [value?_cons, if_neg hk] at hput
      exact value?_of_dropLast hput

/-! ## A value that changes in its place -/

variable {f : υ → υ}

theorem keys_map_adjust (entries : List (κ × υ)) :
    keys (entries.map fun e => if e.1 = k then (e.1, f e.2) else e) = keys entries := by
  unfold keys
  rw [List.map_map]
  refine List.map_congr_left fun e _ => ?_
  show Prod.fst (if e.1 = k then (e.1, f e.2) else e) = e.1
  split <;> rfl

/-- The value of `k` is changed. It is not used thereby. -/
def adjust (m : RecencyMap κ υ) (k : κ) (f : υ → υ) : RecencyMap κ υ where
  capacity := m.capacity
  entries := m.entries.map fun e => if e.1 = k then (e.1, f e.2) else e
  positive := m.positive
  bounded := by
    simpa using m.bounded
  nodup := by
    rw [keys_map_adjust]
    exact m.nodup

theorem value?_map_adjust (k' : κ) : ∀ entries : List (κ × υ),
    value? k' (entries.map fun e => if e.1 = k then (e.1, f e.2) else e) =
      if k' = k then (value? k' entries).map f else value? k' entries
  | [] => by simp [value?]
  | e :: entries => by
    rw [List.map_cons, value?_cons, value?_cons, value?_map_adjust k' entries]
    by_cases he : e.1 = k
    · rw [if_pos he]
      by_cases hk : k' = e.1
      · rw [if_pos hk, if_pos (hk.trans he), if_pos hk]
        rfl
      · simp [hk]
    · rw [if_neg he]
      by_cases hk : k' = e.1
      · rw [if_pos hk, if_pos hk, if_neg (by rw [hk]; exact he)]
      · simp [hk]

theorem get?_adjust : (m.adjust k f).get? k' =
    if k' = k then (m.get? k').map f else m.get? k' :=
  value?_map_adjust k' m.entries

/-! ## What is in it -/

theorem mem_of_mem_insert {e : κ × υ} (h : e ∈ (m.insert k v).entries) :
    e = (k, v) ∨ e ∈ m.entries := by
  have hput : e ∈ put (m.entries.length < m.capacity) k v m.entries := h
  unfold put at hput
  split at hput
  · exact (List.mem_cons.mp hput).imp_right List.mem_of_mem_filter
  · split at hput
    · exact List.mem_cons.mp hput
    · exact (List.mem_cons.mp hput).imp_right fun he => (List.dropLast_sublist m.entries).subset he

theorem mem_of_mem_erase {e : κ × υ} (h : e ∈ (m.erase k).entries) : e ∈ m.entries :=
  List.mem_of_mem_filter h

theorem mem_of_mem_adjust {e : κ × υ} (h : e ∈ (m.adjust k f).entries) :
    e ∈ m.entries ∨ ∃ w, (k, w) ∈ m.entries ∧ e = (k, f w) := by
  obtain ⟨old, hold, rfl⟩ := List.mem_map.mp h
  split
  · next hk => exact .inr ⟨old.2, hk ▸ hold, by rw [hk]⟩
  · exact .inl hold

/-! ## How much is in it -/

theorem length_remove {entries : List (κ × υ)} (h : k ∈ keys entries)
    (hnodup : (keys entries).Nodup) : (remove k entries).length + 1 = entries.length := by
  obtain ⟨⟨_, v⟩, he, rfl⟩ := List.mem_map.mp h
  obtain ⟨l₁, l₂, rfl⟩ := List.append_of_mem he
  rw [remove_middle hnodup, List.length_append, List.length_append, List.length_cons]
  rfl

theorem length_insert_le : (m.insert k v).entries.length ≤ m.entries.length + 1 := by
  show (put _ k v m.entries).length ≤ _
  unfold put
  split
  · next h =>
    have := length_remove_lt h
    simp
    omega
  · split <;> simp only [List.length_cons, List.length_dropLast] <;> omega

theorem length_insert_of_mem (h : m.get? k ≠ none) :
    (m.insert k v).entries.length = m.entries.length := by
  have hk : k ∈ keys m.entries := by
    by_contra hk
    exact h (get?_eq_none_iff.mpr hk)
  show (put _ k v m.entries).length = _
  rw [put, if_pos hk]
  exact length_remove hk m.nodup

theorem length_insert_of_new (h : m.get? k = none) (hroom : m.entries.length < m.capacity) :
    (m.insert k v).entries.length = m.entries.length + 1 := by
  show (put _ k v m.entries).length = _
  rw [put, if_neg (get?_eq_none_iff.mp h), if_pos (by simpa using hroom)]
  rfl

/-- A new key goes in front of all others. -/
theorem entries_insert_of_new (h : k ∉ keys m.entries) (hroom : m.entries.length < m.capacity) :
    (m.insert k v).entries = (k, v) :: m.entries := by
  show put _ k v m.entries = _
  rw [put, if_neg h, if_pos (by simpa using hroom)]

/-! ## Keys from a list -/

/-- All keys are in `keys`, and there is room for all of these. -/
structure Within (m : RecencyMap κ υ) (keys : List κ) : Prop where
  fits : keys.length ≤ m.capacity
  mem : ∀ k, m.get? k ≠ none → k ∈ keys

variable {ks : List κ}

theorem Within.roomFor (h : m.Within ks) (hk : k ∈ ks) : m.RoomFor k := by
  by_cases hnone : m.get? k = none
  · right
    have hnodup : (k :: keys m.entries).Nodup :=
      List.nodup_cons.mpr ⟨get?_eq_none_iff.mp hnone, m.nodup⟩
    have hsub : k :: keys m.entries ⊆ ks := by
      intro k' hk'
      rcases List.mem_cons.mp hk' with rfl | hk'
      · exact hk
      · exact h.mem k' fun hn => get?_eq_none_iff.mp hn hk'
    have hle := (List.subperm_of_subset hnodup hsub).length_le
    have hfits := h.fits
    simp [keys] at hle
    omega
  · exact .inl hnone

theorem Within.insert (h : m.Within ks) (hk : k ∈ ks) : (m.insert k v).Within ks := by
  refine ⟨h.fits, fun k' hk' => ?_⟩
  rw [get?_insert (h.roomFor hk)] at hk'
  split at hk'
  · next heq => rwa [heq]
  · exact h.mem k' hk'

/-- The same value is put under several keys. -/
theorem Within.foldl_insert : ∀ {l : List κ} {m : RecencyMap κ υ}, m.Within ks → l ⊆ ks →
    (l.foldl (fun m k => m.insert k v) m).Within ks ∧
      ∀ k', (l.foldl (fun m k => m.insert k v) m).get? k' =
        if k' ∈ l then some v else m.get? k'
  | [], m, h, _ => ⟨h, fun _ => by simp⟩
  | k :: l, m, h, hl => by
    obtain ⟨hk, hl⟩ := List.cons_subset.mp hl
    obtain ⟨hwithin, hget⟩ := Within.foldl_insert (h.insert hk) hl
    refine ⟨hwithin, fun k' => ?_⟩
    rw [List.foldl_cons, hget, get?_insert (h.roomFor hk)]
    by_cases hmem : k' ∈ l
    · simp [hmem]
    · by_cases heq : k' = k <;> simp [hmem, heq]

end RecencyMap

end Infra
