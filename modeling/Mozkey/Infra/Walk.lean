import Mathlib.Data.List.Basic

/-!
# Walking through a list token by token

`next` looks at the rest of the list and says which token begins there and how long it is. The
walk reads tokens from the front until the list ends or `next` has none. What was read of a
token is skipped one element at a time, so the walk is structural.

A token is `Local` when it does not depend on what comes after it. Then the walk through a
concatenation is the walk through its parts (`walk_append`). When it does not even depend on it
being there, a list that is read to its end is a concatenation of tokens (`exists_tokens`).
-/

namespace Infra

variable {α β : Type}

def walkFrom (next : List α → Option (β × Nat)) : Nat → List α → List β × List α
  | _, [] => ([], [])
  | skip + 1, _ :: rest => walkFrom next skip rest
  | 0, c :: rest =>
    match next (c :: rest) with
    | none => ([], c :: rest)
    | some (b, len) =>
      let (bs, unread) := walkFrom next (len - 1) rest
      (b :: bs, unread)

/-- The tokens, and what could not be read. -/
def walk (next : List α → Option (β × Nat)) (l : List α) : List β × List α := walkFrom next 0 l

/-- Every token is nonempty, and no different when more follows. -/
def Local (next : List α → Option (β × Nat)) : Prop :=
  ∀ l b len, next l = some (b, len) →
    0 < len ∧ len ≤ l.length ∧ ∀ rest, next (l ++ rest) = some (b, len)

variable {next : List α → Option (β × Nat)}

theorem walkFrom_eq : ∀ (skip : Nat) (l : List α), walkFrom next skip l = walk next (l.drop skip)
  | 0, _ => rfl
  | _ + 1, [] => rfl
  | skip + 1, _ :: rest => walkFrom_eq skip rest

theorem walk_of_none {l : List α} (hl : l ≠ []) (h : next l = none) : walk next l = ([], l) := by
  cases l with
  | nil => exact absurd rfl hl
  | cons c rest => rw [walk, walkFrom, h]

theorem walk_of_some {l : List α} {b : β} {len : Nat} (h : next l = some (b, len))
    (hl : l ≠ []) (hlen : 0 < len) :
    walk next l = (b :: (walk next (l.drop len)).1, (walk next (l.drop len)).2) := by
  cases l with
  | nil => exact absurd rfl hl
  | cons c rest =>
    obtain ⟨n, rfl⟩ : ∃ n, len = n + 1 := ⟨len - 1, by omega⟩
    rw [walk, walkFrom, h]
    simp [walkFrom_eq]

/-- One token, then the rest. -/
theorem walk_token {token : List α} {b : β} (ht : token ≠ []) (rest : List α)
    (h : next (token ++ rest) = some (b, token.length)) :
    walk next (token ++ rest) = (b :: (walk next rest).1, (walk next rest).2) := by
  have hpos : 0 < token.length := List.length_pos_of_ne_nil ht
  simp [walk_of_some h (by simp [ht]) hpos]

/-- Some tokens, then the rest. -/
theorem walk_tokens {γ : Type} {encode : γ → List α} {decode : γ → β} (rest : List α) :
    ∀ xs : List γ, (∀ x ∈ xs, encode x ≠ [] ∧
      ∀ r, next (encode x ++ r) = some (decode x, (encode x).length)) →
    walk next (xs.flatMap encode ++ rest) =
      (xs.map decode ++ (walk next rest).1, (walk next rest).2)
  | [], _ => rfl
  | x :: xs, h => by
    obtain ⟨hne, hx⟩ := h x List.mem_cons_self
    simp [walk_token hne _ (hx _), walk_tokens rest xs (List.forall_mem_cons.mp h).2]

/-- **Tokens that read as what they encode form a prefix code.** -/
theorem flatMap_prefix_iff {encode : β → List α} {xs ys : List β}
    (h : ∀ x, x ∈ xs ∨ x ∈ ys → encode x ≠ [] ∧
      ∀ r, next (encode x ++ r) = some (x, (encode x).length)) :
    xs.flatMap encode <+: ys.flatMap encode ↔ xs <+: ys := by
  constructor
  · rintro ⟨rest, heq⟩
    have hread : ∀ (zs : List β) (rest : List α), (∀ z ∈ zs, encode z ≠ [] ∧
        ∀ r, next (encode z ++ r) = some (z, (encode z).length)) →
        (walk next (zs.flatMap encode ++ rest)).1 = zs ++ (walk next rest).1 := by
      intro zs rest hzs
      simp [walk_tokens rest zs hzs]
    have hys := hread ys [] fun y hy => h y (Or.inr hy)
    rw [List.append_nil, ← heq, hread xs rest fun x hx => h x (Or.inl hx)] at hys
    exact ⟨(walk next rest).1, hys.trans (List.append_nil _)⟩
  · rintro ⟨rest, rfl⟩
    simp

/-- **A text that is read to its end is read in the same way in front of another.** -/
theorem walk_append (hnext : Local next) (b : List α) : ∀ (n : Nat) (a : List α), a.length ≤ n →
    (walk next a).2 = [] →
    walk next (a ++ b) = ((walk next a).1 ++ (walk next b).1, (walk next b).2)
  | _, [], _, _ => rfl
  | 0, _ :: _, hn, _ => absurd hn (by simp)
  | n + 1, c :: a, hn, h => by
    cases hc : next (c :: a) with
    | none =>
      rw [walk_of_none (by simp) hc] at h
      simp at h
    | some token =>
      obtain ⟨t, len⟩ := token
      obtain ⟨hpos, hle, hmore⟩ := hnext _ _ _ hc
      rw [walk_of_some hc (by simp) hpos] at h ⊢
      have hshort : ((c :: a).drop len).length ≤ n := by
        rw [List.length_drop, List.length_cons]
        simp at hn
        omega
      rw [walk_of_some (hmore b) (by simp) hpos, List.drop_append_of_le_length hle,
        walk_append hnext b n _ hshort h]
      rfl

/-- Every token is nonempty, and is read from its own elements. -/
def SelfRead (next : List α → Option (β × Nat)) : Prop :=
  ∀ l b len, next l = some (b, len) →
    0 < len ∧ len ≤ l.length ∧ ∀ rest, next (l.take len ++ rest) = some (b, len)

/-- **A list that is read to its end consists of tokens.** -/
theorem exists_tokens (hnext : SelfRead next) : ∀ (n : Nat) (l : List α), l.length ≤ n →
    (walk next l).2 = [] →
    ∃ tokens : List (β × List α), l = tokens.flatMap Prod.snd ∧
      (walk next l).1 = tokens.map Prod.fst ∧
      ∀ token ∈ tokens, token.2 ≠ [] ∧ ∀ rest, next (token.2 ++ rest) =
        some (token.1, token.2.length)
  | _, [], _, _ => ⟨[], rfl, rfl, by simp⟩
  | 0, _ :: _, hn, _ => absurd hn (by simp)
  | n + 1, c :: l, hn, h => by
    cases hc : next (c :: l) with
    | none =>
      rw [walk_of_none (by simp) hc] at h
      simp at h
    | some token =>
      obtain ⟨b, len⟩ := token
      obtain ⟨hpos, hle, hmore⟩ := hnext _ _ _ hc
      have hwalk := walk_of_some hc (by simp) hpos
      rw [hwalk] at h
      have hshort : ((c :: l).drop len).length ≤ n := by
        rw [List.length_drop, List.length_cons]
        simp at hn
        omega
      obtain ⟨tokens, hflat, hread, htokens⟩ := exists_tokens hnext n _ hshort h
      have hlen : ((c :: l).take len).length = len := by
        rw [List.length_take, Nat.min_eq_left hle]
      refine ⟨(b, (c :: l).take len) :: tokens, ?_, ?_, ?_⟩
      · simp [← hflat]
      · simp [hwalk, hread]
      · intro token htoken
        rcases List.mem_cons.mp htoken with rfl | htoken
        · refine ⟨fun hnil => ?_, fun rest => by rw [hlen]; exact hmore rest⟩
          have hzero := congrArg List.length hnil
          simp [hlen] at hzero
          omega
        · exact htokens token htoken

end Infra
