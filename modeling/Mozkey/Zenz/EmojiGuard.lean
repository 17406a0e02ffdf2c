import Mozkey.Zenz.EmojiOccurrences

/-!
# The emoji guard

`PreservesEmojiSequences` compares the emoji clusters of two texts. They say which occurrences
the texts have as long as every occurrence is in one of them, and the only one that can be left
out is a keycap: without U+FE0F its base and its U+20E3 come as two graphemes, and the rule that
puts them together again expects the second one to be U+20E3 alone.

## Main results

* `occurrences_of_extract` — the clusters say what the occurrences are
* `emoji_guard_sound_iff` — the guard can be relied on for the texts that pass over no keycap
-/

namespace Mozkey.Zenz.OutputValidator

open Infra Base

/-! ## Clusters of characters -/

def codepoints (g : List Bytes) : List Nat := g.map utf8ToCodepoint

def combiningKeycap : Bytes := [0xE2, 0x83, 0xA3]

theorem isChar_combiningKeycap : IsChar combiningKeycap :=
  ⟨0x20E3, by decide, by decide⟩

/-- The cluster a grapheme is shown as, if it is one. -/
def shown (g : List Bytes) (next : Option (List Bytes)) : Option (List Bytes) :=
  if (codepoints g).getLast?.any isKeycapBase ∧ next = some [combiningKeycap] then
    some (g ++ [combiningKeycap])
  else if hasEmojiScalar (codepoints g) then some g
  else none

def emitted : List (List Bytes) → List (List Bytes)
  | [] => []
  | g :: rest => (shown g rest.head?).toList ++ emitted rest

variable {g : List Bytes}

theorem shown_congr {next next' : Option (List Bytes)}
    (h : next = some [combiningKeycap] ↔ next' = some [combiningKeycap]) :
    shown g next = shown g next' := by
  simp only [shown, h]

/-- U+20E3 alone is not shown again. -/
theorem shown_combiningKeycap (next : Option (List Bytes)) :
    shown [combiningKeycap] next = none := by
  have hcode : codepoints [combiningKeycap] = [0x20E3] := by decide
  rw [shown, hcode, if_neg (by simp [show isKeycapBase 0x20E3 = false by decide]),
    if_neg (by decide)]

theorem flatten_eq_combiningKeycap (h : ∀ u ∈ g, IsChar u) :
    g.flatten = combiningKeycap ↔ g = [combiningKeycap] := by
  constructor
  · intro hg
    have hsplit := splitStringToUtf8Chars_flatten h
    rw [hg] at hsplit
    exact hsplit.symm.trans (by decide)
  · rintro rfl
    rfl

theorem emojiClusters_eq : ∀ {gs : List (List Bytes)}, (∀ g ∈ gs, ∀ u ∈ g, IsChar u) →
    emojiClusters (gs.map List.flatten) = (emitted gs).map List.flatten
  | [], _ => rfl
  | [g], h => by
    have hg := h g List.mem_cons_self
    have hno : ¬((codepoints g).getLast?.any isKeycapBase = true ∧
        ([] : List (List Bytes)).head? = some [combiningKeycap]) := by simp
    rw [List.map_singleton, emojiClusters, isEmojiCluster, utf8ToUtf32_chars hg, emitted, emitted,
      shown, if_neg hno]
    change (if hasEmojiScalar (codepoints g) = true then _ else _) = _
    split <;> rfl
  | g :: next :: rest, h => by
    have hg := h g List.mem_cons_self
    have hnext := h next (List.mem_cons_of_mem _ List.mem_cons_self)
    have ih := @emojiClusters_eq (next :: rest) (List.forall_mem_cons.mp h).2
    have ihrest := @emojiClusters_eq rest fun g' hg' =>
      h g' (List.mem_cons_of_mem _ (List.mem_cons_of_mem _ hg'))
    rw [List.map_cons, List.map_cons, emojiClusters, isEmojiCluster, utf8ToUtf32_chars hg]
    change (if ((codepoints g).getLast?.any isKeycapBase && next.flatten == combiningKeycap) = true
      then _ else if hasEmojiScalar (codepoints g) = true then _ else _) = _
    rw [List.map_cons] at ih
    rw [emitted, List.head?_cons, List.map_append, ← ih]
    by_cases hcap : (codepoints g).getLast?.any isKeycapBase = true ∧
        some next = some [combiningKeycap]
    · have hboth := hcap
      obtain ⟨hbase, heq⟩ := hcap
      rw [Option.some.injEq] at heq
      have hflat : next.flatten = combiningKeycap := (flatten_eq_combiningKeycap hnext).mpr heq
      rw [if_pos (by rw [hbase, hflat]; decide), shown, if_pos hboth, ih, emitted, heq,
        shown_combiningKeycap, ihrest]
      simp
    · have hno : ¬((codepoints g).getLast?.any isKeycapBase &&
          next.flatten == combiningKeycap) = true := by
        rw [Bool.and_eq_true, beq_iff_eq, flatten_eq_combiningKeycap hnext]
        rintro ⟨hbase, heq⟩
        exact hcap ⟨hbase, congrArg some heq⟩
      rw [if_neg hno, shown, if_neg hcap]
      split <;> rfl

theorem extractEmojiClusters_flatten {chars : List Bytes} (h : ∀ u ∈ chars, IsChar u) :
    extractEmojiClusters chars.flatten = (emitted (clustersOf chars)).map List.flatten := by
  rw [extractEmojiClusters, splitStringToUtf8Graphemes_flatten h]
  exact emojiClusters_eq fun g hg u hu => h u (mem_clustersOf hg hu)

theorem mem_emitted : ∀ {gs : List (List Bytes)} {g : List Bytes}, g ∈ emitted gs →
    ∃ g₀ next, g₀ ∈ gs ∧ shown g₀ next = some g
  | [], _, h => by cases h
  | g₀ :: gs, g, h => by
    rw [emitted] at h
    rcases List.mem_append.mp h with h | h
    · exact ⟨g₀, _, List.mem_cons_self, Option.mem_toList.mp h⟩
    · obtain ⟨g₁, next, hmem, hshown⟩ := mem_emitted h
      exact ⟨g₁, next, List.mem_cons_of_mem _ hmem, hshown⟩

theorem isChar_of_shown {g₀ : List Bytes} {next : Option (List Bytes)} (h : shown g₀ next = some g)
    (hchars : ∀ u ∈ g₀, IsChar u) : ∀ u ∈ g, IsChar u := by
  unfold shown at h
  split at h
  · cases h
    intro u hu
    rcases List.mem_append.mp hu with hu | hu
    · exact hchars u hu
    · rw [List.mem_singleton.mp hu]
      exact isChar_combiningKeycap
  split at h
  · cases h
    exact hchars
  · cases h

/-! ## What the clusters say -/

theorem occurrences_keycap (g : List Bytes) :
    emojiOccurrences (codepoints (g ++ [combiningKeycap])) =
      emojiOccurrences (codepoints g) ++ keycapAcross (codepoints g) [0x20E3] ∨
    (codepoints g).getLast? = some 0xFE0F := by
  by_cases hlast : (codepoints g).getLast? = some 0xFE0F
  · exact Or.inr hlast
  · have hcode : codepoints (g ++ [combiningKeycap]) = codepoints g ++ [0x20E3] := by
      rw [codepoints, List.map_append]
      rfl
    have hnone : emojiOccurrences [0x20E3] = [] := by decide
    refine Or.inl ?_
    rw [hcode, emojiOccurrences_append _ _ (by simp) (by simp) fun _ => hlast, hnone,
      List.append_nil]

theorem occurrences_shown_keycap (h : (codepoints g).getLast?.any isKeycapBase = true) :
    emojiOccurrences (codepoints (g ++ [combiningKeycap])) =
      emojiOccurrences (codepoints g) ++ keycapAcross (codepoints g) [0x20E3] := by
  rcases occurrences_keycap g with heq | hlast
  · exact heq
  · rw [hlast] at h
    exact absurd h (by decide)

/-- The occurrences of a grapheme that is not shown: it has none. -/
theorem occurrences_shown_none :
    (if hasEmojiScalar (codepoints g) then some g else none).toList.flatMap
        (fun g => emojiOccurrences (codepoints g)) = emojiOccurrences (codepoints g) := by
  rw [hasEmojiScalar_eq]
  split
  · simp
  · next h =>
    simp only [Bool.not_eq_true', Bool.not_eq_false, List.isEmpty_iff] at h
    rw [h]
    rfl

/-- What is shown at the end of a grapheme is what its code points say. -/
theorem occurrences_shown {last : List Bytes} {x : Nat} {u : Bytes} {rest : List Bytes}
    (hlast : (codepoints last).getLast? = some x) (hu : IsChar u)
    (hpassed : passesOverKeycap (x :: utf8ToCodepoint u :: codepoints rest) = false) :
    (shown last (clusters (utf8ToCodepoint u) [u] rest).head?).toList.flatMap
        (fun g => emojiOccurrences (codepoints g)) =
      emojiOccurrences (codepoints last) ++
        keycapAcross (codepoints last) (utf8ToCodepoint u :: codepoints rest) := by
  obtain ⟨more, hhead, hmore⟩ := head?_clusters (utf8ToCodepoint u) [u] rest
  rw [hhead, shown, hlast]
  by_cases hcap : isKeycapBase x = true ∧ utf8ToCodepoint u = 0x20E3
  · obtain ⟨hbase, hcode⟩ := hcap
    have hkeycap : u = combiningKeycap := by
      rw [← hu.eq_codepointToUtf8 (by omega), hcode]
      decide
    have hnone : more = [] := by
      refine hmore.mpr fun d hd => ?_
      rw [hcode]
      refine ⟨by rw [show isRegionalIndicator 0x20E3 = false by decide, Bool.false_and], ?_⟩
      cases rest with
      | nil => cases hd
      | cons d' rest =>
        cases hd
        rw [codepoints, List.map_cons, passesOverKeycap, Bool.or_eq_false_iff, hbase,
          hcode] at hpassed
        simpa using hpassed.1
    rw [hnone, List.append_nil, hkeycap, if_pos ⟨by simpa using hbase, rfl⟩]
    have hacross : keycapAcross (codepoints last) (utf8ToCodepoint u :: codepoints rest) =
        keycapAcross (codepoints last) [0x20E3] := by
      simp [keycapAcross, hcode]
    rw [← hkeycap, hacross, Option.toList_some, List.flatMap_singleton, hkeycap]
    exact occurrences_shown_keycap (by rw [hlast]; simpa using hbase)
  · have hno :
        ¬((some x).any isKeycapBase = true ∧ some ([u] ++ more) = some [combiningKeycap]) := by
      rintro ⟨hbase, heq⟩
      rw [Option.some.injEq] at heq
      obtain ⟨rfl, -⟩ := List.cons.inj heq
      exact hcap ⟨by simpa using hbase, by decide⟩
    have hacross : keycapAcross (codepoints last) (utf8ToCodepoint u :: codepoints rest) = [] := by
      rw [keycapAcross]
      split
      · next hhead =>
        rw [List.head?_cons, Option.some.injEq] at hhead
        rw [hlast, Option.filter_some, if_neg fun hbase => hcap ⟨hbase, hhead⟩]
        rfl
      · rfl
    rw [if_neg hno, hacross, List.append_nil]
    exact occurrences_shown_none

theorem occurrences_clusters : ∀ {rest : List Bytes} {prev : Nat} {last : List Bytes} {x : Nat},
    AtCluster prev last x → (∀ u ∈ rest, IsChar u) →
    passesOverKeycap (x :: codepoints rest) = false →
    emojiOccurrences (codepoints last ++ codepoints rest) =
      (emitted (clusters prev last rest)).flatMap fun g => emojiOccurrences (codepoints g)
  | [], prev, last, x, _, _, _ => by
    rw [clusters, emitted, emitted, List.append_nil, shown, if_neg (by simp),
      occurrences_shown_none]
    simp [codepoints]
  | u :: rest, prev, last, x, hat, hchars, hpassed => by
    have hu := hchars u List.mem_cons_self
    have hrest := (List.forall_mem_cons.mp hchars).2
    have htail : passesOverKeycap (utf8ToCodepoint u :: codepoints rest) = false :=
      passesOverKeycap_tail hpassed
    have hmove : codepoints last ++ codepoints (u :: rest) =
        codepoints (last ++ [u]) ++ codepoints rest := by simp [codepoints]
    rw [clusters]
    split
    · next hflag =>
      rw [Bool.and_eq_true] at hflag
      rw [hmove]
      exact occurrences_clusters (AtCluster.flag last hflag.2) hrest htail
    split
    · rw [hmove]
      exact occurrences_clusters (AtCluster.append last u) hrest htail
    · next hjoin =>
      obtain ⟨htext, hemoji, hkeycap⟩ := hat.breaks (Bool.eq_false_iff.mpr hjoin)
      have hlast : (codepoints last).getLast? = some x := hat.getLast?
      have ih := occurrences_clusters (AtCluster.single u) hrest htail
      have happ := emojiOccurrences_append (codepoints last) (codepoints (u :: rest))
        (fun h => htext (Option.some.inj h)) (fun h => hemoji (Option.some.inj h)) fun h => by
          rw [hlast]
          exact fun hx => hkeycap (Option.some.inj h) (Option.some.inj hx)
      rw [happ, emitted, List.flatMap_append, ← ih, occurrences_shown hlast hu hpassed]
      rfl

/-- **The clusters say what the occurrences are**, in a text that passes over no keycap. -/
theorem occurrences_of_extract {s : Bytes} (hs : IsUnicode s)
    (hpassed : passesOverKeycap (utf8ToUtf32 s) = false) :
    emojiOccurrences (utf8ToUtf32 s) =
      (extractEmojiClusters s).flatMap fun c => emojiOccurrences (utf8ToUtf32 c) := by
  obtain ⟨chars, hchars, rfl⟩ := (isUnicode_iff s).mp hs
  rw [utf8ToUtf32_chars hchars] at hpassed ⊢
  have hmembers : ∀ g ∈ emitted (clustersOf chars), ∀ u ∈ g, IsChar u := by
    intro g hg
    obtain ⟨g₀, next, hmem, hshown⟩ := mem_emitted hg
    exact isChar_of_shown hshown fun u hu => hchars u (mem_clustersOf hmem hu)
  have hread : (emitted (clustersOf chars)).flatMap (fun g => emojiOccurrences (codepoints g)) =
      (emitted (clustersOf chars)).flatMap fun g => emojiOccurrences (utf8ToUtf32 g.flatten) :=
    List.flatMap_congr fun g hg => by rw [utf8ToUtf32_chars (hmembers g hg)]; rfl
  rw [extractEmojiClusters_flatten hchars, List.flatMap_map, ← hread]
  cases chars with
  | nil => rfl
  | cons u rest =>
    exact occurrences_clusters (AtCluster.single u)
      (List.forall_mem_cons.mp hchars).2
      hpassed

/-- A cluster is shown for an occurrence. -/
theorem occurrences_ne_nil_of_shown {g₀ : List Bytes} {next : Option (List Bytes)}
    (h : shown g₀ next = some g) : emojiOccurrences (codepoints g) ≠ [] := by
  unfold shown at h
  split at h
  · next hcap =>
    cases h
    rw [occurrences_shown_keycap hcap.1]
    obtain ⟨hbase, -⟩ := hcap
    cases hlast : (codepoints g₀).getLast? with
    | none => rw [hlast] at hbase; cases hbase
    | some x =>
      rw [hlast] at hbase
      have hbase : isKeycapBase x = true := by simpa using hbase
      simp [keycapAcross, hlast, hbase, Option.filter]
  split at h
  · next hemoji =>
    cases h
    simpa [hasEmojiScalar_eq, ← Bool.not_eq_true] using hemoji
  · cases h

theorem extractEmojiClusters_eq_nil {s : Bytes} (hs : IsUnicode s)
    (h : emojiOccurrences (utf8ToUtf32 s) = []) : extractEmojiClusters s = [] := by
  have hpassed : passesOverKeycap (utf8ToUtf32 s) = false := by
    cases hp : passesOverKeycap (utf8ToUtf32 s) with
    | false => rfl
    | true => exact absurd h (emojiOccurrences_ne_nil_of_passesOver hp)
  have hall := occurrences_of_extract hs hpassed
  rw [h] at hall
  obtain ⟨chars, hchars, rfl⟩ := (isUnicode_iff s).mp hs
  rw [extractEmojiClusters_flatten hchars] at hall ⊢
  cases hemitted : emitted (clustersOf chars) with
  | nil => rfl
  | cons g rest =>
    have hg : g ∈ emitted (clustersOf chars) := by rw [hemitted]; exact List.mem_cons_self
    obtain ⟨g₀, next, hmem, hshown⟩ := mem_emitted hg
    have hcode : utf8ToUtf32 g.flatten = codepoints g :=
      utf8ToUtf32_chars (isChar_of_shown hshown fun u hu => hchars u (mem_clustersOf hmem hu))
    rw [hemitted, List.map_cons, List.flatMap_cons, hcode] at hall
    exact absurd (List.append_eq_nil_iff.mp hall.symm).1 (occurrences_ne_nil_of_shown hshown)

/-! ## Texts that are kept apart -/

/-- `separate` on characters. -/
def separateChars : Nat → List Bytes → List Bytes
  | prev, keycap :: next :: rest =>
    if isKeycapBase prev && utf8ToCodepoint keycap == 0x20E3 &&
        joinsGrapheme 0x20E3 (utf8ToCodepoint next) then
      utf8 "x" :: keycap :: separateChars (utf8ToCodepoint keycap) (next :: rest)
    else keycap :: separateChars (utf8ToCodepoint keycap) (next :: rest)
  | _, rest => rest

theorem codepoints_separateChars : ∀ (prev : Nat) (rest : List Bytes),
    codepoints (separateChars prev rest) = separate prev (codepoints rest)
  | _, [] => rfl
  | _, [_] => rfl
  | prev, keycap :: next :: rest => by
    have ih := codepoints_separateChars (utf8ToCodepoint keycap) (next :: rest)
    have hx : utf8ToCodepoint (utf8 "x") = 0x78 := by decide
    simp only [codepoints, List.map_cons] at ih ⊢
    rw [separateChars, separate]
    split
    · simp [ih, hx]
    · simp [ih]

theorem isChar_separateChars : ∀ {prev : Nat} {rest : List Bytes}, (∀ u ∈ rest, IsChar u) →
    ∀ u ∈ separateChars prev rest, IsChar u
  | _, [], h => h
  | _, [_], h => h
  | prev, keycap :: next :: rest, h => by
    have ih := @isChar_separateChars (utf8ToCodepoint keycap) (next :: rest)
      (List.forall_mem_cons.mp h).2
    have hkeycap := h keycap List.mem_cons_self
    intro u hu
    rw [separateChars] at hu
    split at hu
    · rcases List.mem_cons.mp hu with rfl | hu
      · exact ⟨0x78, by decide, by decide⟩
      rcases List.mem_cons.mp hu with rfl | hu
      · exact hkeycap
      · exact ih u hu
    · rcases List.mem_cons.mp hu with rfl | hu
      · exact hkeycap
      · exact ih u hu

theorem head?_separateChars {prev : Nat} (h : isKeycapBase prev = false) (rest : List Bytes) :
    (separateChars prev rest).head? = rest.head? := by
  cases rest with
  | nil => rfl
  | cons k rest =>
    cases rest with
    | nil => rfl
    | cons next rest => simp [separateChars, h]

/-- Whether U+20E3 alone comes next does not change. -/
theorem head?_clusters_separate (u : Bytes) (rest : List Bytes) :
    (clusters (utf8ToCodepoint u) [u] (separateChars (utf8ToCodepoint u) rest)).head? =
        some [combiningKeycap] ↔
      (clusters (utf8ToCodepoint u) [u] rest).head? = some [combiningKeycap] := by
  obtain ⟨more, hhead, hmore⟩ := head?_clusters (utf8ToCodepoint u) [u] rest
  obtain ⟨more', hhead', hmore'⟩ :=
    head?_clusters (utf8ToCodepoint u) [u] (separateChars (utf8ToCodepoint u) rest)
  rw [hhead, hhead']
  by_cases hu : u = combiningKeycap
  · subst hu
    have hno : isKeycapBase (utf8ToCodepoint combiningKeycap) = false := by decide
    rw [head?_separateChars hno, ← hmore] at hmore'
    simp [hmore']
  · simp [hu]

theorem emitted_separateChars : ∀ {rest : List Bytes} {prev : Nat} {last : List Bytes} {x : Nat},
    AtCluster prev last x →
    emitted (clusters prev last (separateChars x rest)) = emitted (clusters prev last rest)
  | [], _, _, _, _ => rfl
  | [_], _, _, _, _ => rfl
  | k :: next :: rest, prev, last, x, hat => by
    rw [separateChars]
    split
    · next hpassed =>
      rw [Bool.and_eq_true, Bool.and_eq_true, beq_iff_eq] at hpassed
      obtain ⟨⟨hbase, hcode⟩, hjoin⟩ := hpassed
      have hprev : prev = x := by
        rcases hat.prev with hprev | ⟨-, hflag⟩
        · exact hprev
        · rcases (isKeycapBase_iff x).mp hbase with ⟨hlo, hhi⟩ | rfl | rfl
          · simp [isRegionalIndicator] at hflag
            omega
          · exact absurd hflag (by decide)
          · exact absurd hflag (by decide)
      -- nothing plain is joined to a keycap base
      have hplain : ∀ c, c = 0x78 ∨ c = 0x20E3 → joinsGrapheme prev c = false := by
        intro c hc
        rw [hprev]
        rcases (isKeycapBase_iff x).mp hbase with hx | hx | hx <;> rcases hc with rfl | rfl <;>
          simp [joinsGrapheme] <;> omega
      have hflagx : isRegionalIndicator 0x78 = false := by decide
      have hflagk : isRegionalIndicator 0x20E3 = false := by decide
      have hx : utf8ToCodepoint (utf8 "x") = 0x78 := by decide
      have ih := @emitted_separateChars (next :: rest) _ _ _ (AtCluster.single k)
      obtain ⟨more, hhead, hmore⟩ := head?_clusters (utf8ToCodepoint k) [k] (next :: rest)
      have hlong : more ≠ [] := by
        intro hnil
        have := (hmore.mp hnil next rfl).2
        simp [hcode, hjoin] at this
      have hsame : shown last (some [utf8 "x"]) = shown last (some ([k] ++ more)) := by
        refine shown_congr ?_
        simp [hlong, show utf8 "x" ≠ combiningKeycap by decide]
      have hnone : ∀ next, shown [utf8 "x"] next = none := by
        intro next
        have hcodes : codepoints [utf8 "x"] = [0x78] := by decide
        rw [shown, hcodes, if_neg (by simp [show isKeycapBase 0x78 = false by decide]),
          if_neg (by decide)]
      rw [clusters, hx, hflagx, Bool.and_false, if_neg Bool.false_ne_true,
        if_neg (by rw [hplain _ (Or.inl rfl)]; exact Bool.false_ne_true), clusters, hcode, hflagk,
        Bool.and_false, if_neg Bool.false_ne_true, if_neg (by decide), clusters, hcode, hflagk,
        Bool.and_false, if_neg Bool.false_ne_true,
        if_neg (by rw [hplain _ (Or.inr rfl)]; exact Bool.false_ne_true)]
      rw [hcode] at ih hhead
      simp [emitted, List.head?_cons, hsame, hnone, ih, hhead]
    · rw [clusters, clusters]
      split
      · next hflag =>
        rw [Bool.and_eq_true] at hflag
        exact emitted_separateChars (AtCluster.flag last hflag.2)
      split
      · exact emitted_separateChars (AtCluster.append last k)
      · rw [emitted, emitted, emitted_separateChars (AtCluster.single k),
          shown_congr (head?_clusters_separate k (next :: rest))]

/-- A text with a keycap that is passed over has the clusters of one without. -/
theorem exists_separated {s : Bytes} (hs : IsUnicode s)
    (hpassed : passesOverKeycap (utf8ToUtf32 s) = true) :
    ∃ m, IsUnicode m ∧ passesOverKeycap (utf8ToUtf32 m) = false ∧
      extractEmojiClusters m = extractEmojiClusters s ∧
      emojiOccurrences (utf8ToUtf32 m) ≠ emojiOccurrences (utf8ToUtf32 s) := by
  obtain ⟨chars, hchars, rfl⟩ := (isUnicode_iff s).mp hs
  rw [utf8ToUtf32_chars hchars] at hpassed ⊢
  cases chars with
  | nil => cases hpassed
  | cons u rest =>
    have hall : ∀ v ∈ u :: separateChars (utf8ToCodepoint u) rest, IsChar v := by
      intro v hv
      rcases List.mem_cons.mp hv with rfl | hv
      · exact hchars _ List.mem_cons_self
      · exact isChar_separateChars (List.forall_mem_cons.mp hchars).2 v hv
    have hcodes := codepoints_separateChars (utf8ToCodepoint u) rest
    rw [codepoints, codepoints] at hcodes
    refine ⟨(u :: separateChars (utf8ToCodepoint u) rest).flatten, isUnicode_flatten hall, ?_, ?_,
      ?_⟩
    · rw [utf8ToUtf32_chars hall, List.map_cons, hcodes]
      exact passesOverKeycap_separate _ _
    · rw [extractEmojiClusters_flatten hall, extractEmojiClusters_flatten hchars, clustersOf,
        clustersOf, emitted_separateChars (AtCluster.single u)]
    · rw [utf8ToUtf32_chars hall, List.map_cons, hcodes]
      intro heq
      have hlt := (length_emojiOccurrences_separate (utf8ToCodepoint u)
        (rest.map utf8ToCodepoint)).2 hpassed
      rw [heq, List.map_cons] at hlt
      exact Nat.lt_irrefl _ hlt

/-! ## The guard -/

theorem preservesEmojiSequences_iff {m z : Bytes} (hm : IsUnicode m) (hz : IsUnicode z) :
    preservesEmojiSequences m z = true ↔ extractEmojiClusters m = extractEmojiClusters z := by
  rw [preservesEmojiSequences, hm.1, hz.1]
  exact beq_iff_eq

/-- What the guard promises for two texts. -/
structure GuardSound (m z : Bytes) : Prop where
  sameOccurrences : preservesEmojiSequences m z = true →
    emojiOccurrences (utf8ToUtf32 m) = emojiOccurrences (utf8ToUtf32 z)
  accepted : emojiOccurrences (utf8ToUtf32 m) = [] → emojiOccurrences (utf8ToUtf32 z) = [] →
    preservesEmojiSequences m z = true

theorem guardSound_of_shown {m z : Bytes} (hm : IsUnicode m) (hz : IsUnicode z)
    (hpm : passesOverKeycap (utf8ToUtf32 m) = false)
    (hpz : passesOverKeycap (utf8ToUtf32 z) = false) : GuardSound m z := by
  refine ⟨fun h => ?_, fun hnm hnz => ?_⟩
  · rw [occurrences_of_extract hm hpm, occurrences_of_extract hz hpz,
      (preservesEmojiSequences_iff hm hz).mp h]
  · rw [preservesEmojiSequences_iff hm hz, extractEmojiClusters_eq_nil hm hnm,
      extractEmojiClusters_eq_nil hz hnz]

/-- **The guard can be relied on for a text, against every text that passes over no keycap, iff
it passes over none itself.** -/
theorem emoji_guard_sound_iff {z : Bytes} (hz : IsUnicode z) :
    (∀ m, IsUnicode m → passesOverKeycap (utf8ToUtf32 m) = false →
        GuardSound m z ∧ GuardSound z m) ↔
      passesOverKeycap (utf8ToUtf32 z) = false := by
  constructor
  · intro h
    by_contra hpassed
    obtain ⟨m, hm, hpm, hsame, hne⟩ := exists_separated hz (by simpa using hpassed)
    exact hne ((h m hm hpm).1.sameOccurrences ((preservesEmojiSequences_iff hm hz).mpr hsame))
  · intro hpz m hm hpm
    exact ⟨guardSound_of_shown hm hz hpm hpz, guardSound_of_shown hz hm hpz hpm⟩

theorem emoji_guard_sound_iff_face :
    (∀ m, IsUnicode m → passesOverKeycap (utf8ToUtf32 m) = false →
        GuardSound m (utf8 "笑😀1️⃣") ∧ GuardSound (utf8 "笑😀1️⃣") m) ↔
      passesOverKeycap (utf8ToUtf32 (utf8 "笑😀1️⃣")) = false :=
  emoji_guard_sound_iff (by decide +kernel)

/-- The keycaps 1 and 2, each with U+FE0F after it. -/
theorem keycap_is_passed_over :
    IsUnicode [0x31, 0xE2, 0x83, 0xA3, 0xEF, 0xB8, 0x8F] ∧
      IsUnicode [0x32, 0xE2, 0x83, 0xA3, 0xEF, 0xB8, 0x8F] ∧
      preservesEmojiSequences [0x31, 0xE2, 0x83, 0xA3, 0xEF, 0xB8, 0x8F]
        [0x32, 0xE2, 0x83, 0xA3, 0xEF, 0xB8, 0x8F] = true ∧
      emojiOccurrences (utf8ToUtf32 [0x31, 0xE2, 0x83, 0xA3, 0xEF, 0xB8, 0x8F]) ≠
        emojiOccurrences (utf8ToUtf32 [0x32, 0xE2, 0x83, 0xA3, 0xEF, 0xB8, 0x8F]) := by
  decide +kernel

end Mozkey.Zenz.OutputValidator
