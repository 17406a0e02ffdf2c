import Mozkey.Infra.Provenance

/-!
# Texts with marks

A text in which some stretches were replaced by marks. A mark is one token here; in memory it is
spelled out (`spell`), and a search on the spelling may find its needle where no token begins, or
across tokens. `Aligned` says that it does not.

1. If a needle is aligned, replacing on the spelling is replacing tokens (`replaceBy_spell`).
2. If a replacement took out nothing but letters, its needle was aligned
   (`aligned_of_removed_letters`).
-/

namespace Infra

inductive Token (α ι : Type) where
  | lit (a : α)
  | mark (i : ι)
deriving DecidableEq

variable {α β ι : Type}

def Token.isMark : Token α ι → Bool
  | .lit _ => false
  | .mark _ => true

def Token.text (letter : α → β) (place : ι → List β) : Token α ι → List β
  | .lit a => [letter a]
  | .mark i => place i

def spell (letter : α → β) (place : ι → List β) (tokens : List (Token α ι)) : List β :=
  tokens.flatMap (Token.text letter place)

/-- The number of marks. -/
def marks (tokens : List (Token α ι)) : Nat := tokens.countP Token.isMark

/-- The number of letters that are no mark. -/
def letters (tokens : List (Token α ι)) : Nat := tokens.countP fun t => !t.isMark

@[simp] theorem marks_cons_lit (a : α) (tokens : List (Token α ι)) :
    marks (.lit a :: tokens) = marks tokens := List.countP_cons_of_neg Bool.false_ne_true

@[simp] theorem marks_cons_mark (i : ι) (tokens : List (Token α ι)) :
    marks (.mark i :: tokens) = marks tokens + 1 := List.countP_cons_of_pos rfl

@[simp] theorem letters_cons_lit (a : α) (tokens : List (Token α ι)) :
    letters (.lit a :: tokens) = letters tokens + 1 := List.countP_cons_of_pos rfl

@[simp] theorem letters_cons_mark (i : ι) (tokens : List (Token α ι)) :
    letters (.mark i :: tokens) = letters tokens := List.countP_cons_of_neg Bool.false_ne_true

theorem marks_append (x y : List (Token α ι)) : marks (x ++ y) = marks x + marks y :=
  List.countP_append

theorem marks_lits (k : List α) : marks (k.map Token.lit : List (Token α ι)) = 0 := by
  rw [marks, List.countP_map]
  exact List.countP_eq_zero.mpr fun a _ => Bool.false_ne_true

section Spell

variable (letter : α → β) (place : ι → List β)

@[simp] theorem spell_nil : spell letter place [] = [] := rfl

@[simp] theorem spell_cons (t : Token α ι) (tokens : List (Token α ι)) :
    spell letter place (t :: tokens) = t.text letter place ++ spell letter place tokens :=
  List.flatMap_cons

@[simp] theorem spell_append (x y : List (Token α ι)) :
    spell letter place (x ++ y) = spell letter place x ++ spell letter place y :=
  List.flatMap_append

@[simp] theorem spell_lits (k : List α) :
    spell letter place (k.map Token.lit) = k.map letter := by
  induction k with
  | nil => rfl
  | cons a k ih =>
    rw [List.map_cons, spell_cons, ih]
    rfl

@[simp] theorem spell_mark (i : ι) : spell letter place [.mark i] = place i := by
  rw [spell_cons, spell_nil, List.append_nil]
  rfl

theorem spell_congr {place' : ι → List β} {tokens : List (Token α ι)}
    (h : ∀ i, Token.mark i ∈ tokens → place i = place' i) :
    spell letter place tokens = spell letter place' tokens := by
  refine List.flatMap_congr fun t ht => ?_
  cases t with
  | lit a => rfl
  | mark i => exact h i ht

theorem map_spell {γ : Type} (look : β → γ) (tokens : List (Token α ι)) :
    (spell letter place tokens).map look
      = spell (fun a => look (letter a)) (fun i => (place i).map look) tokens := by
  induction tokens with
  | nil => rfl
  | cons t tokens ih =>
    rw [spell_cons, List.map_append, ih, spell_cons]
    cases t <;> rfl

theorem text_ne_nil {tokens : List (Token α ι)}
    (hplace : ∀ i, Token.mark i ∈ tokens → place i ≠ []) {t : Token α ι} (ht : t ∈ tokens) :
    t.text letter place ≠ [] := by
  cases t with
  | lit a => exact List.cons_ne_nil _ _
  | mark i => exact hplace i ht

theorem spell_ne_nil {tokens : List (Token α ι)}
    (hplace : ∀ i, Token.mark i ∈ tokens → place i ≠ []) (hne : tokens ≠ []) :
    spell letter place tokens ≠ [] := by
  obtain ⟨t, rest, rfl⟩ := List.exists_cons_of_ne_nil hne
  rw [spell_cons]
  exact List.append_ne_nil_of_left_ne_nil (text_ne_nil letter place hplace List.mem_cons_self) _

/-- The token at a position of the spelling. -/
theorem exists_token_at : ∀ {tokens : List (Token α ι)} {pos : Nat},
    pos < (spell letter place tokens).length →
    ∃ x t y, tokens = x ++ t :: y ∧ (spell letter place x).length ≤ pos ∧
      pos < (spell letter place x).length + (t.text letter place).length
  | [], pos, h => by simp at h
  | t :: tokens, pos, h => by
    rw [spell_cons, List.length_append] at h
    by_cases hpos : pos < (t.text letter place).length
    · exact ⟨[], t, tokens, rfl, Nat.zero_le _, by simpa using hpos⟩
    · have hrest : pos - (t.text letter place).length < (spell letter place tokens).length := by
        omega
      obtain ⟨x, u, y, rfl, hle, hlt⟩ := exists_token_at hrest
      refine ⟨t :: x, u, y, rfl, ?_, ?_⟩
      · simp [spell_cons]
        omega
      · simp [spell_cons]
        omega

/-- A spelling can be read back when its letters tell whose they are. -/
theorem spell_injective {look : β → α} (hletter : ∀ a, look (letter a) = a)
    (hlit : ∀ i a, letter a ∉ place i) (hmark : ∀ i j x, x ∈ place i → x ∈ place j → i = j) :
    ∀ {tokens tokens' : List (Token α ι)}, (∀ i, Token.mark i ∈ tokens → place i ≠ []) →
      (∀ i, Token.mark i ∈ tokens' → place i ≠ []) →
      spell letter place tokens = spell letter place tokens' → tokens = tokens'
  | [], [], _, _, _ => rfl
  | [], t :: tokens', _, h', he => by
    rw [spell_nil, spell_cons, eq_comm, List.append_eq_nil_iff] at he
    exact absurd he.1 (text_ne_nil letter place h' List.mem_cons_self)
  | t :: tokens, [], h, _, he => by
    rw [spell_nil, spell_cons, List.append_eq_nil_iff] at he
    exact absurd he.1 (text_ne_nil letter place h List.mem_cons_self)
  | t :: tokens, t' :: tokens', h, h', he => by
    have ht : t = t' := by
      rw [spell_cons, spell_cons] at he
      cases t with
      | lit a =>
        cases t' with
        | lit b =>
          have hab := congrArg look (List.cons.inj he).1
          rw [hletter, hletter] at hab
          rw [hab]
        | mark j =>
          obtain ⟨c, rest, hc⟩ := List.exists_cons_of_ne_nil (h' j List.mem_cons_self)
          simp only [Token.text, hc, List.cons_append, List.nil_append, List.cons.injEq] at he
          exact absurd (by rw [hc, he.1]; exact List.mem_cons_self) (hlit j a)
      | mark i =>
        obtain ⟨c, rest, hc⟩ := List.exists_cons_of_ne_nil (h i List.mem_cons_self)
        cases t' with
        | lit b =>
          simp only [Token.text, hc, List.cons_append, List.nil_append, List.cons.injEq] at he
          exact absurd (by rw [hc, ← he.1]; exact List.mem_cons_self) (hlit i b)
        | mark j =>
          obtain ⟨d, rest', hd⟩ := List.exists_cons_of_ne_nil (h' j List.mem_cons_self)
          simp only [Token.text, hc, hd, List.cons_append, List.cons.injEq] at he
          have hij : i = j := hmark i j c (by rw [hc]; exact List.mem_cons_self)
            (by rw [hd, he.1]; exact List.mem_cons_self)
          rw [hij]
    subst ht
    rw [spell_cons, spell_cons, List.append_cancel_left_eq] at he
    rw [spell_injective hletter hlit hmark (fun i hi => h i (List.mem_cons_of_mem _ hi))
      (fun i hi => h' i (List.mem_cons_of_mem _ hi)) he]

/-- The weight of a spelling when every letter weighs `l` and every mark `m`. -/
theorem sum_spell {M : Type} [AddCommMonoid M] {weight : β → M} {l m : M}
    {tokens : List (Token α ι)} (hlit : ∀ a, weight (letter a) = l)
    (hmark : ∀ i, Token.mark i ∈ tokens → ((place i).map weight).sum = m) :
    ((spell letter place tokens).map weight).sum = letters tokens • l + marks tokens • m := by
  induction tokens with
  | nil => simp [letters, marks]
  | cons t tokens ih =>
    have ih := ih fun i hi => hmark i (List.mem_cons_of_mem _ hi)
    rw [spell_cons, List.map_append, List.sum_append, ih]
    cases t with
    | lit a =>
      have hw : ((Token.text letter place (.lit a)).map weight).sum = l := by
        simp [Token.text, hlit]
      rw [hw, letters_cons_lit, marks_cons_lit, succ_nsmul]
      abel
    | mark i =>
      have hw : ((Token.text letter place (.mark i)).map weight).sum = m :=
        hmark i List.mem_cons_self
      rw [hw, letters_cons_mark, marks_cons_mark, succ_nsmul]
      abel

end Spell

/-! ## Alignment -/

variable [DecidableEq α] {place : ι → List α} {needle tokens : List (Token α ι)}

/-- Where the spelling of the needle is found in the spelling of the tokens, the needle is. -/
def Aligned (place : ι → List α) (needle tokens : List (Token α ι)) : Prop :=
  ∀ pos ∈ occurrences (spell id place needle) (spell id place tokens),
    ∃ n ≤ tokens.length, (spell id place (tokens.take n)).length = pos ∧ needle <+: tokens.drop n

theorem aligned_congr {place' : ι → List α}
    (hneedle : ∀ i, Token.mark i ∈ needle → place i = place' i)
    (htokens : ∀ i, Token.mark i ∈ tokens → place i = place' i)
    (ha : Aligned place needle tokens) : Aligned place' needle tokens := by
  intro pos hpos
  rw [← spell_congr id place hneedle, ← spell_congr id place htokens] at hpos
  obtain ⟨n, hn, hlen, hprefix⟩ := ha pos hpos
  refine ⟨n, hn, ?_, hprefix⟩
  rw [← spell_congr id place fun i hi => htokens i (List.mem_of_mem_take hi)]
  exact hlen

theorem Aligned.of_hit {rest : List (Token α ι)}
    (hplace : ∀ i, Token.mark i ∈ needle → place i ≠ []) (hne : needle ≠ [])
    (ha : Aligned place needle (needle ++ rest)) : Aligned place needle rest := by
  have hspell : spell id place needle ≠ [] := spell_ne_nil id place hplace hne
  intro pos hpos
  have hmem : pos + (spell id place needle).length
      ∈ occurrences (spell id place needle) (spell id place (needle ++ rest)) := by
    rw [spell_append, occurrences_hit hspell]
    exact List.mem_cons_of_mem _ (List.mem_map.mpr ⟨pos, hpos, rfl⟩)
  obtain ⟨n, hn, hlen, hprefix⟩ := ha _ hmem
  -- so far only the whole needle reaches
  have hle : needle.length ≤ n := by
    by_contra hlt
    have hsplit := congrArg List.length
      (congrArg (spell id place) (List.take_append_drop n needle))
    rw [spell_append, List.length_append] at hsplit
    rw [List.take_append_of_le_length (by omega)] at hlen
    have hdrop : needle.drop n ≠ [] := by
      simp [ne_eq]
      omega
    have hpos : 0 < (spell id place (needle.drop n)).length :=
      List.length_pos_of_ne_nil (spell_ne_nil id place
        (fun i hi => hplace i (List.mem_of_mem_drop hi)) hdrop)
    omega
  obtain ⟨m, rfl⟩ := Nat.exists_eq_add_of_le hle
  rw [List.take_length_add_append, spell_append, List.length_append] at hlen
  rw [List.drop_length_add_append] at hprefix
  rw [List.length_append] at hn
  exact ⟨m, by omega, by omega, hprefix⟩

theorem Aligned.of_miss {t : Token α ι} {rest : List (Token α ι)}
    (hm : ¬needle <+: t :: rest) (ha : Aligned place needle (t :: rest)) :
    (∀ pos < (t.text id place).length,
        pos ∉ occurrences (spell id place needle) (t.text id place ++ spell id place rest)) ∧
      Aligned place needle rest := by
  have hbeyond : ∀ pos ∈ occurrences (spell id place needle) (spell id place (t :: rest)),
      ∃ n ≤ rest.length, (t.text id place).length + (spell id place (rest.take n)).length = pos ∧
        needle <+: rest.drop n := by
    intro pos hpos
    obtain ⟨n, hn, hlen, hprefix⟩ := ha pos hpos
    cases n with
    | zero => exact absurd hprefix hm
    | succ n =>
      rw [List.take_succ_cons, spell_cons, List.length_append] at hlen
      exact ⟨n, Nat.le_of_succ_le_succ hn, hlen, hprefix⟩
  have hnot : ∀ pos < (t.text id place).length,
      pos ∉ occurrences (spell id place needle) (t.text id place ++ spell id place rest) := by
    intro pos hlt hpos
    obtain ⟨n, -, hlen, -⟩ := hbeyond pos hpos
    omega
  refine ⟨hnot, fun pos hpos => ?_⟩
  have hmem : pos + (t.text id place).length
      ∈ occurrences (spell id place needle) (spell id place (t :: rest)) := by
    rw [spell_cons, occurrences_append_of_notMem hnot]
    exact List.mem_map.mpr ⟨pos, hpos, rfl⟩
  obtain ⟨n, hn, hlen, hprefix⟩ := hbeyond _ hmem
  exact ⟨n, hn, by omega, hprefix⟩

/-- The search on the spelling follows the search on the tokens. -/
theorem alignedInduction {motive : ∀ tokens, Aligned place needle tokens → Prop}
    (hne : needle ≠ []) (hneedle : ∀ i, Token.mark i ∈ needle → place i ≠ [])
    (nil : ∀ ha, motive [] ha)
    (hit : ∀ rest ha ha', motive rest ha → motive (needle ++ rest) ha')
    (miss : ∀ t rest ha ha', ¬needle <+: t :: rest →
      (∀ pos < (t.text id place).length,
        pos ∉ occurrences (spell id place needle) (t.text id place ++ spell id place rest)) →
      motive rest ha → motive (t :: rest) ha')
    (tokens : List (Token α ι)) (ha : Aligned place needle tokens) : motive tokens ha := by
  induction tokens using searchInduction hne with
  | nil => exact nil ha
  | hit rest ih => exact hit rest (ha.of_hit hneedle hne) ha (ih _)
  | miss t rest hm ih =>
    obtain ⟨hnot, hrest⟩ := ha.of_miss hm
    exact miss t rest hrest ha hm hnot (ih hrest)

/-! ## Replacing -/

section Replace

variable [DecidableEq ι] {look : β → α} {letter : α → β} {spot : ι → List β}

instance : Decidable (Aligned place needle tokens) := by
  unfold Aligned
  infer_instance

theorem countOccurrences_spell (hne : needle ≠ [])
    (hneedle : ∀ i, Token.mark i ∈ needle → place i ≠ []) (ha : Aligned place needle tokens) :
    countOccurrences (spell id place tokens) (spell id place needle)
      = countOccurrences tokens needle := by
  induction tokens, ha using alignedInduction hne hneedle with
  | nil => simp
  | hit rest _ _ ih =>
    rw [spell_append, countOccurrences_hit (spell_ne_nil id place hneedle hne),
      countOccurrences_hit hne, ih]
  | miss t rest _ _ hm hnot ih =>
    rw [spell_cons, countOccurrences, occurrences_append_of_notMem hnot, List.length_map,
      ← countOccurrences, countOccurrences_miss hm, ih]

omit [DecidableEq ι] in
/-- Replacing an aligned needle follows the tokens, whatever is put in. -/
theorem replaceBy_spell_of (new : List β) (result : List (Token α ι) → List β)
    (hletter : ∀ a, look (letter a) = a)
    (hspot : ∀ i, (spot i).map look = place i) (hne : needle ≠ [])
    (hneedle : ∀ i, Token.mark i ∈ needle → place i ≠ [])
    (nil : result [] = []) (hit : ∀ rest, result (needle ++ rest) = new ++ result rest)
    (miss : ∀ t rest, ¬needle <+: t :: rest →
      result (t :: rest) = t.text letter spot ++ result rest)
    (ha : Aligned place needle tokens) :
    replaceBy look (spell id place needle) new (spell letter spot tokens) = result tokens ∧
      removedBy look (spell id place needle) (spell letter spot tokens)
        ⊆ spell letter spot needle := by
  have hseen : ∀ x : List (Token α ι), (spell letter spot x).map look = spell id place x := by
    intro x
    rw [map_spell]
    simp only [hletter, hspot]
    rfl
  have hspell := spell_ne_nil id place hneedle hne
  induction tokens, ha using alignedInduction hne hneedle with
  | nil =>
    rw [nil, spell_nil, replaceBy_nil, removedBy_nil]
    exact ⟨rfl, List.nil_subset _⟩
  | hit rest _ _ ih =>
    rw [spell_append, replaceBy_hit look hspell (hseen needle),
      removedBy_hit look hspell (hseen needle), hit, ih.1]
    exact ⟨rfl, List.append_subset.mpr ⟨List.Subset.refl _, ih.2⟩⟩
  | miss t rest _ _ hm hnot ih =>
    have htext : (t.text letter spot).map look = t.text id place := by
      have h := hseen [t]
      rwa [spell_cons, spell_nil, List.append_nil, spell_cons, spell_nil, List.append_nil] at h
    have hsilent : ∀ pos < (t.text letter spot).length, pos ∉ occurrences (spell id place needle)
        ((t.text letter spot ++ spell letter spot rest).map look) := by
      rw [List.map_append, htext, hseen]
      rw [← htext, List.length_map, htext] at hnot
      exact hnot
    have hcopy := @replaceBy_append_of_notMem _ _ _ look _ new _ _ hsilent
    rw [spell_cons, hcopy.1, hcopy.2, miss t rest hm, ih.1]
    exact ⟨rfl, ih.2⟩

/-- **An aligned needle is replaced token by token.** -/
theorem replaceBy_spell {new : List (Token α ι)} (hletter : ∀ a, look (letter a) = a)
    (hspot : ∀ i, (spot i).map look = place i) (hne : needle ≠ [])
    (hneedle : ∀ i, Token.mark i ∈ needle → place i ≠ []) (ha : Aligned place needle tokens) :
    replaceBy look (spell id place needle) (spell letter spot new) (spell letter spot tokens)
      = spell letter spot (replaceAll needle new tokens) := by
  refine (replaceBy_spell_of (spell letter spot new)
    (fun tokens => spell letter spot (replaceAll needle new tokens)) hletter hspot hne hneedle
    ?_ ?_ ?_ ha).1
  · rw [replaceAll_nil, spell_nil]
  · intro rest
    rw [replaceAll_hit hne, spell_append]
  · intro t rest hm
    rw [replaceAll_miss hm, spell_cons]

omit [DecidableEq α] in
theorem text_update {new : List β} {i : ι} {t : Token α ι} {rest : List (Token α ι)}
    (hm : ¬[Token.mark i] <+: t :: rest) :
    t.text letter (Function.update spot i new) = t.text letter spot := by
  cases t with
  | lit a => rfl
  | mark j =>
    have hji : j ≠ i := fun he => hm (he ▸ List.prefix_append [Token.mark j] rest)
    simp [Token.text, Function.update_of_ne hji]

/-- **An aligned mark gets another spelling**, and only its own one is taken out. -/
theorem replaceBy_spell_mark {new : List β} {i : ι} (hletter : ∀ a, look (letter a) = a)
    (hspot : ∀ j, (spot j).map look = place j) (hi : place i ≠ [])
    (ha : Aligned place [.mark i] tokens) :
    replaceBy look (place i) new (spell letter spot tokens)
        = spell letter (Function.update spot i new) tokens ∧
      removedBy look (place i) (spell letter spot tokens) ⊆ spot i := by
  have hneedle : ∀ j, Token.mark j ∈ [Token.mark (α := α) i] → place j ≠ [] := by
    intro j hj
    rw [List.mem_singleton, Token.mark.injEq] at hj
    exact hj ▸ hi
  have h := replaceBy_spell_of new (spell letter (Function.update spot i new)) hletter hspot
    (List.cons_ne_nil _ _) hneedle rfl
    (fun rest => by rw [spell_append, spell_mark, Function.update_self])
    (fun t rest hm => by rw [spell_cons, text_update hm]) ha
  rwa [spell_mark, spell_mark] at h
/-- Every occurrence becomes a mark. -/
theorem marks_replaceAll {k : List α} (hk : k ≠ []) (i : ι) (tokens : List (Token α ι)) :
    marks (replaceAll (k.map .lit) [.mark i] tokens)
      = marks tokens + countOccurrences tokens (k.map .lit) := by
  have hne : (k.map Token.lit : List (Token α ι)) ≠ [] := by simpa using hk
  induction tokens using searchInduction hne with
  | nil => simp [replaceAll_nil, marks]
  | hit rest ih =>
    rw [replaceAll_hit hne, marks_append, marks_append, marks_lits, countOccurrences_hit hne, ih]
    show 1 + _ = _
    omega
  | miss t rest hm ih =>
    rw [replaceAll_miss hm, countOccurrences_miss hm]
    cases t with
    | lit a => rw [marks_cons_lit, marks_cons_lit, ih]
    | mark j =>
      simp [marks_cons_mark, ih]
      omega

/-- A mark that stands for the needle keeps the text. -/
theorem spell_replaceAll {k : List α} {i : ι} {reading : ι → List α} (hi : reading i = k)
    (tokens : List (Token α ι)) :
    spell id reading (replaceAll (k.map .lit) [.mark i] tokens) = spell id reading tokens := by
  by_cases hk : k = []
  · rw [hk]
    rfl
  have hne : (k.map Token.lit : List (Token α ι)) ≠ [] := by simpa using hk
  induction tokens using searchInduction hne with
  | nil => rw [replaceAll_nil]
  | hit rest ih =>
    rw [replaceAll_hit hne, spell_append, spell_append, ih, spell_mark, hi, spell_lits, List.map_id]
  | miss t rest hm ih => rw [replaceAll_miss hm, spell_cons, spell_cons, ih]

theorem mark_mem_replaceAll {k : List α} {i j : ι} {tokens : List (Token α ι)}
    (h : Token.mark j ∈ replaceAll (k.map .lit) [.mark i] tokens) :
    j = i ∨ Token.mark j ∈ tokens := by
  by_cases hk : k = []
  · rw [hk] at h
    exact Or.inr h
  have hne : (k.map Token.lit : List (Token α ι)) ≠ [] := by simpa using hk
  induction tokens using searchInduction hne with
  | nil =>
    rw [replaceAll_nil] at h
    exact Or.inr h
  | hit rest ih =>
    rw [replaceAll_hit hne, List.mem_append] at h
    rcases h with h | h
    · rw [List.mem_singleton, Token.mark.injEq] at h
      exact Or.inl h
    · exact (ih h).imp id (List.mem_append_right _)
  | miss t rest hm ih =>
    rw [replaceAll_miss hm, List.mem_cons] at h
    rcases h with h | h
    · exact Or.inr (h ▸ List.mem_cons_self)
    · exact (ih h).imp id (List.mem_cons_of_mem _)

end Replace

/-! ## From what was taken out -/

section Removed

variable {look : β → α} {letter : α → β} {spot : ι → List β} {P : β → Prop}

omit [DecidableEq α] in
/-- A run of letters in the spelling is a run of letters in the tokens. -/
theorem lits_prefix_of_prefix (hletter : ∀ a, look (letter a) = a) :
    ∀ {w : List β} {tokens : List (Token α ι)},
      (∀ i, Token.mark i ∈ tokens → spot i ≠ [] ∧ ∀ x ∈ spot i, ¬P x) →
      w <+: spell letter spot tokens → (∀ x ∈ w, P x) → (w.map look).map .lit <+: tokens
  | [], _, _, _, _ => List.nil_prefix
  | c :: w, [], _, h, _ => by simp at h
  | c :: w, .lit a :: tokens, hspot, h, hP => by
    rw [spell_cons] at h
    obtain ⟨hc, hw⟩ := List.cons_prefix_cons.mp h
    rw [hc, List.map_cons, hletter, List.map_cons]
    exact List.cons_prefix_cons.mpr ⟨rfl, lits_prefix_of_prefix hletter
      (fun i hi => hspot i (List.mem_cons_of_mem _ hi)) hw
      (List.forall_mem_cons.mp hP).2⟩
  | c :: w, .mark i :: tokens, hspot, h, hP => by
    obtain ⟨hne, hmark⟩ := hspot i List.mem_cons_self
    obtain ⟨d, rest, hd⟩ := List.exists_cons_of_ne_nil hne
    rw [spell_cons, Token.text, hd, List.cons_append] at h
    have hc := (List.cons_prefix_cons.mp h).1
    exact absurd (hP c List.mem_cons_self) (hmark c (by rw [hd, hc]; exact List.mem_cons_self))

/-- **If nothing but letters was taken out, the needle was aligned.** -/
theorem aligned_of_removed_letters {k : List α} (hletter : ∀ a, look (letter a) = a)
    (hspot : ∀ i, Token.mark i ∈ tokens → spot i ≠ [] ∧ ∀ x ∈ spot i, ¬P x)
    (hremoved : ∀ x ∈ removedBy look k (spell letter spot tokens), P x) :
    Aligned (fun i => (spot i).map look) (k.map .lit) tokens := by
  intro pos hpos
  have hseen : (spell letter spot tokens).map look
      = spell id (fun i => (spot i).map look) tokens := by
    rw [map_spell]
    simp only [hletter]
    rfl
  rw [spell_lits, List.map_id, ← hseen] at hpos
  have hrun : ∀ x ∈ ((spell letter spot tokens).drop pos).take k.length, P x :=
    fun x hx => hremoved x (mem_removedBy look hpos hx)
  have hprefix := prefix_of_mem_occurrences hpos
  have hne : k ≠ [] := by
    rintro rfl
    simp [occurrences] at hpos
  have hk : 0 < k.length := List.length_pos_of_ne_nil hne
  have hlen := hprefix.length_le
  rw [List.length_drop, List.length_map] at hlen
  obtain ⟨x, t, y, rfl, hle, hlt⟩ := exists_token_at letter spot
    (show pos < (spell letter spot tokens).length by omega)
  obtain ⟨offset, rfl⟩ := Nat.exists_eq_add_of_le hle
  have hdrop : (spell letter spot (x ++ t :: y)).drop ((spell letter spot x).length + offset)
      = (t.text letter spot).drop offset ++ spell letter spot y := by
    rw [spell_append, spell_cons, List.drop_length_add_append,
      List.drop_append_of_le_length (by omega)]
  rw [hdrop] at hrun
  cases t with
  | mark i =>
    obtain ⟨c, rest, hc⟩ := List.exists_cons_of_ne_nil
      (show (spot i).drop offset ≠ [] by
        rw [ne_eq, List.drop_eq_nil_iff]
        exact Nat.not_le.mpr (Nat.lt_of_add_lt_add_left hlt))
    have hmem : c ∈ (((Token.mark i).text letter spot).drop offset
        ++ spell letter spot y).take k.length := by
      rw [Token.text, hc, List.cons_append, ← Nat.succ_pred_eq_of_pos hk, List.take_succ_cons]
      exact List.mem_cons_self
    have hci : c ∈ spot i := List.mem_of_mem_drop (hc ▸ List.mem_cons_self)
    exact absurd (hrun c hmem)
      ((hspot i (List.mem_append_right _ List.mem_cons_self)).2 c hci)
  | lit a =>
    have hoffset : offset = 0 := by
      have : (Token.text letter spot (.lit a)).length = 1 := rfl
      omega
    subst hoffset
    have hlength : (spell id (fun i => (spot i).map look) x).length
        = (spell letter spot x).length := by
      rw [← List.length_map look, map_spell]
      simp only [hletter]
      rfl
    refine ⟨x.length, by rw [List.length_append]; omega, by rw [List.take_left]; exact hlength, ?_⟩
    rw [← List.map_drop, hdrop, List.prefix_iff_eq_take, ← List.map_take] at hprefix
    rw [List.drop_left, hprefix]
    exact lits_prefix_of_prefix hletter
      (fun i hi => hspot i (List.mem_append_right _ hi)) (List.take_prefix _ _) hrun

end Removed

end Infra
