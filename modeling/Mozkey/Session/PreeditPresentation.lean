import Mozkey.Session.Preedit

/-!
# What the presentation of a preedit keeps

Cutting the unresolved romaji off and restoring the style of the symbols change no value and no
length, as long as keys and values are UTF-8. Of text that is not, the two ways of counting
characters disagree, and a cut can lose bytes.

## Main results

* `presentation_preserves_text` — no text is lost by the cuts, and only symbols change their style
-/

namespace Mozkey.Session

open Infra Base Zenz

namespace Preedit

/-! ## Cutting the romaji off -/

theorem keys_append (a b : Preedit) : keys (a ++ b) = keys a ++ keys b := List.flatMap_append

theorem values_append (a b : Preedit) : values (a ++ b) = values a ++ values b :=
  List.flatMap_append

/-- What is said of the segments that a cut puts in the place of one. -/
structure Replaces (pendingLength : Nat) (key value : Bytes) (segments : List PreeditSegment) :
    Prop where
  keys : keys segments = key
  values : values segments = value
  counted : Counted segments
  marked : ∀ segment ∈ segments, segment.isPendingRoman = true →
    (utf8ToUtf32 segment.value).length = pendingLength

/-- A text is cut before its last characters. -/
theorem cut_spec {s : Bytes} (h : IsUnicode s) {n : Nat} (hn : n ≤ charsLen s) :
    utf8SubString s 0 (charsLen s - n) ++ utf8SubString s (charsLen s - n) n = s ∧
      IsUnicode (utf8SubString s 0 (charsLen s - n)) ∧
      IsUnicode (utf8SubString s (charsLen s - n) n) ∧
      charsLen (utf8SubString s 0 (charsLen s - n)) = charsLen s - n ∧
      charsLen (utf8SubString s (charsLen s - n) n) = n := by
  have hfront := h.utf8SubString 0 (charsLen s - n)
  have hback := h.utf8SubString (charsLen s - n) n
  have hjoin := utf8SubString_append s 0 (charsLen s - n) n
  rw [Nat.zero_add] at hjoin
  refine ⟨?_, hfront.1, hback.1, ?_, ?_⟩
  · rw [hjoin, h.utf8SubString_all (by omega)]
  · rw [hfront.2]
    omega
  · rw [hback.2]
    omega

theorem newSegment_replaces (n : Nat) {key value : Bytes} (hvalue : IsUnicode value)
    ( annotation : Annotation) : Replaces n key value [newSegment key value annotation] where
  keys := List.append_nil _
  values := List.append_nil _
  counted := by
    intro segment hsegment
    rw [List.mem_singleton.mp hsegment]
    exact (length_utf8ToUtf32 hvalue).symm
  marked := by
    intro segment hsegment hmarked
    rw [List.mem_singleton.mp hsegment] at hmarked
    cases hmarked

/-- The segments that are added are those of the text that is passed. -/
theorem addPending_replaces (n : Nat) {key value : Bytes} (hkey : IsUnicode key)
    (hvalue : IsUnicode value) (preedit : Preedit) :
    ∃ added, addPreeditSegmentWithPendingRomanTail key value n preedit = preedit ++ added ∧
      Replaces n key value added := by
  unfold addPreeditSegmentWithPendingRomanTail
  dsimp only
  split
  · exact ⟨_, rfl, newSegment_replaces n hvalue _⟩
  · next hlength =>
    simp only [Bool.or_eq_true, decide_eq_true_eq, not_or, Nat.not_lt] at hlength
    split
    · next hwhole =>
      refine ⟨_, rfl, List.append_nil _, List.append_nil _, ?_, ?_⟩
      · intro segment hsegment
        rw [List.mem_singleton.mp hsegment]
        exact (length_utf8ToUtf32 hvalue).symm
      · intro segment hsegment _
        rw [List.mem_singleton.mp hsegment]
        exact (length_utf8ToUtf32 hvalue).trans (by omega)
    · split
      · exact ⟨_, rfl, newSegment_replaces n hvalue _⟩
      · next hkeyLength =>
        obtain ⟨hkeyJoin, -⟩ := cut_spec hkey (n := n) (by omega)
        obtain ⟨hvalueJoin, hstable, hpending, -, hcount⟩ := cut_spec hvalue hlength.2
        refine ⟨_, List.append_assoc _ _ _, ?_, ?_, ?_, ?_⟩
        · simpa [keys, PreeditSegment.keyText, newSegment] using hkeyJoin
        · simpa [values, newSegment] using hvalueJoin
        · intro segment hsegment
          rw [List.singleton_append, List.mem_cons, List.mem_singleton] at hsegment
          rcases hsegment with rfl | rfl
          · exact (length_utf8ToUtf32 hstable).symm
          · exact (length_utf8ToUtf32 hpending).symm
        · intro segment hsegment hmarked
          rw [List.singleton_append, List.mem_cons, List.mem_singleton] at hsegment
          rcases hsegment with rfl | rfl
          · cases hmarked
          · exact (length_utf8ToUtf32 hpending).trans hcount

/-- The last segment is replaced by one or two of the same text. -/
theorem markedTail_replaces {composer : ComposerTexts} {last : PreeditSegment}
    {tail : List PreeditSegment} (hkey : IsUnicode last.keyText) (hvalue : IsUnicode last.value)
    (hlength : last.valueLength = (utf8ToUtf32 last.value).length)
    (h : markedTail composer last = some tail) :
    Replaces composer.pendingRomanDisplayLength last.keyText last.value tail := by
  unfold markedTail at h
  dsimp only at h
  split_ifs at h with h1 h2 h3 h4 h5 h6 h7
  · cases h
    refine ⟨List.append_nil _, List.append_nil _, ?_, ?_⟩
    · intro segment hsegment
      rw [List.mem_singleton.mp hsegment]
      exact hlength
    · intro segment hsegment _
      rw [List.mem_singleton.mp hsegment]
      exact (length_utf8ToUtf32 hvalue).trans h6
  · cases h
    obtain ⟨hkeyJoin, -⟩ := cut_spec hkey (Nat.not_lt.mp h7)
    obtain ⟨hvalueJoin, hstable, hpending, hstableCount, hcount⟩ :=
      cut_spec hvalue (Nat.not_lt.mp h4)
    refine ⟨?_, ?_, ?_, ?_⟩
    · simpa [keys, PreeditSegment.keyText] using hkeyJoin
    · simpa [values] using hvalueJoin
    · intro segment hsegment
      rw [List.mem_cons, List.mem_singleton] at hsegment
      rcases hsegment with rfl | rfl
      · exact hstableCount.symm.trans (length_utf8ToUtf32 hstable).symm
      · exact hcount.symm.trans (length_utf8ToUtf32 hpending).symm
    · intro segment hsegment hmarked
      rw [List.mem_cons, List.mem_singleton] at hsegment
      rcases hsegment with rfl | rfl
      · cases hmarked
      · exact (length_utf8ToUtf32 hpending).trans hcount

/-! ## Restoring the style of the symbols -/

/-- The same code point, or two variants of one style group. -/
def SameStyle (a b : Nat) : Prop :=
  a = b ∨ ∃ group ∈ OutputValidator.kSymbolStyleGroups,
    (∃ v ∈ group.1, v.toNat = a) ∧ ∃ v ∈ group.1, v.toNat = b

/-- A folded symbol is the first variant of its group. -/
theorem foldSymbol_cases (a : Nat) : OutputValidator.foldSymbol a = a ∨
    ∃ group ∈ OutputValidator.kSymbolStyleGroups, (∃ v ∈ group.1, v.toNat = a) ∧
      ∃ v ∈ group.1, v.toNat = OutputValidator.foldSymbol a := by
  rw [OutputValidator.foldSymbol]
  split
  · exact Or.inl rfl
  · next group hgroup =>
    have hany := List.find?_some hgroup
    obtain ⟨v, hv, hcode⟩ := List.any_eq_true.mp hany
    refine Or.inr ⟨group, List.mem_of_find?_eq_some hgroup, ⟨v, hv, beq_iff_eq.mp hcode⟩, ?_⟩
    cases hfirst : group.1 with
    | nil =>
      simp [hfirst] at hv
    | cons first rest => exact ⟨first, List.mem_cons_self, rfl⟩

theorem foldSymbol_group {group : List Char × Bool}
    (h : group ∈ OutputValidator.kSymbolStyleGroups) {v : Char} (hv : v ∈ group.1) {a : Nat}
    (ha : OutputValidator.foldSymbol v.toNat = a) :
    ∃ w ∈ group.1, w.toNat = a := by
  have hall : OutputValidator.kSymbolStyleGroups.all (fun group => group.1.all fun v =>
      group.1.any fun w => w.toNat == OutputValidator.foldSymbol v.toNat) = true := by
    decide +kernel
  have hany := List.all_eq_true.mp (List.all_eq_true.mp hall group h) v hv
  obtain ⟨w, hw, hcode⟩ := List.any_eq_true.mp hany
  exact ⟨w, hw, (beq_iff_eq.mp hcode).trans ha⟩

/-- What folds to the same symbol is of one style group. -/
theorem sameStyle_of_foldSymbol {a b : Nat}
    (h : OutputValidator.foldSymbol a = OutputValidator.foldSymbol b) : SameStyle a b := by
  rcases foldSymbol_cases a with ha | ⟨group, hgroup, ⟨v, hv, rfl⟩, -⟩
  · rcases foldSymbol_cases b with hb | ⟨group, hgroup, ⟨w, hw, rfl⟩, -⟩
    · exact Or.inl (ha.symm.trans (h.trans hb))
    · exact Or.inr ⟨group, hgroup, foldSymbol_group hgroup hw (h.symm.trans ha), w, hw, rfl⟩
  · rcases foldSymbol_cases b with hb | ⟨other, hother, ⟨w, hw, rfl⟩, -⟩
    · exact Or.inr ⟨group, hgroup, ⟨v, hv, rfl⟩, foldSymbol_group hgroup hv (h.trans hb)⟩
    · -- the groups have different first variants
      have hgroups : OutputValidator.kSymbolStyleGroups.all (fun group =>
          OutputValidator.kSymbolStyleGroups.all fun other => group.1.all fun v =>
            other.1.all fun w => OutputValidator.foldSymbol v.toNat !=
              OutputValidator.foldSymbol w.toNat || group == other) = true := by
        decide +kernel
      have hone := List.all_eq_true.mp (List.all_eq_true.mp (List.all_eq_true.mp
        (List.all_eq_true.mp hgroups group hgroup) other hother) v hv) w hw
      rw [h, bne_self_eq_false, Bool.false_or, beq_iff_eq] at hone
      exact Or.inr ⟨group, hgroup, ⟨v, hv, rfl⟩, w, hone ▸ hw, rfl⟩

theorem sameStyle_of_folded : ∀ {a b : List Nat},
    a.map OutputValidator.foldSymbol = b.map OutputValidator.foldSymbol →
    List.Forall₂ SameStyle a b
  | [], [], _ => .nil
  | [], _ :: _, h => by cases h
  | _ :: _, [], h => by cases h
  | x :: a, y :: b, h => by
    rw [List.map_cons, List.map_cons, List.cons.injEq] at h
    exact .cons (sameStyle_of_foldSymbol h.1) (sameStyle_of_folded h.2)

/-- Only the key may be another one, and of a key that is not empty only the style of symbols. -/
structure KeyRestored (old new : PreeditSegment) : Prop where
  value : new.value = old.value
  valueLength : new.valueLength = old.valueLength
  isPendingRoman : new.isPendingRoman = old.isPendingRoman
  length : old.keyText ≠ [] → (utf8ToUtf32 new.keyText).length = (utf8ToUtf32 old.keyText).length
  style : old.keyText ≠ [] → List.Forall₂ SameStyle (utf8ToUtf32 old.keyText)
    (utf8ToUtf32 new.keyText)

theorem keyRestored_refl (preedit : Preedit) : List.Forall₂ KeyRestored preedit preedit :=
  List.forall₂_same.mpr fun _ _ =>
    ⟨rfl, rfl, rfl, fun _ => rfl, fun _ => List.forall₂_same.mpr fun _ _ => Or.inl rfl⟩

theorem segmentKey_of_ne_nil {segment : PreeditSegment} (h : segment.keyText ≠ []) :
    segmentKey segment = segment.keyText := by
  have hsome : segment.key.isSome = true := by
    cases hkey : segment.key with
    | none =>
      simp [PreeditSegment.keyText, hkey] at h
    | some key => rfl
  rw [segmentKey, if_pos]
  simpa [hsome] using h

/-- A segment gets as many characters as its key has. -/
theorem distributeKey_restored {restored : List Bytes} (hrestored : ∀ u ∈ restored, IsChar u) :
    ∀ (preedit : Preedit) (offset : Nat),
    (∀ segment ∈ preedit, IsUnicode (segmentKey segment)) →
    OutputValidator.folded (restored.drop offset) =
      (preedit.flatMap fun segment => utf8ToUtf32 (segmentKey segment)).map
        OutputValidator.foldSymbol →
    List.Forall₂ KeyRestored preedit (distributeKey restored.flatten offset preedit)
  | [], _, _, _ => .nil
  | segment :: preedit, offset, htext, hfolded => by
    have hsegment := htext segment List.mem_cons_self
    rw [List.flatMap_cons, List.map_append] at hfolded
    rw [distributeKey, ← length_utf8ToUtf32 hsegment]
    have hkey : utf8SubString restored.flatten offset (utf8ToUtf32 (segmentKey segment)).length
        = ((restored.drop offset).take (utf8ToUtf32 (segmentKey segment)).length).flatten := by
      rw [utf8SubString, splitStringToUtf8Chars_flatten hrestored]
    have hchars : ∀ u ∈ (restored.drop offset).take (utf8ToUtf32 (segmentKey segment)).length,
        IsChar u := fun u hu => hrestored u (List.mem_of_mem_drop (List.mem_of_mem_take hu))
    have hpoints : (utf8ToUtf32 (utf8SubString restored.flatten offset
        (utf8ToUtf32 (segmentKey segment)).length)).map OutputValidator.foldSymbol
        = (utf8ToUtf32 (segmentKey segment)).map OutputValidator.foldSymbol := by
      have htake := congrArg (List.take (utf8ToUtf32 (segmentKey segment)).length) hfolded
      rw [List.take_left' (List.length_map _)] at htake
      rw [hkey, utf8ToUtf32_chars hchars, ← htake, OutputValidator.folded, ← List.map_take,
        List.map_map]
      rfl
    refine .cons ⟨rfl, rfl, rfl, fun hne => ?_, fun hne => ?_⟩
      (distributeKey_restored hrestored preedit _
        (List.forall_mem_cons.mp htext).2 ?_)
    · rw [← segmentKey_of_ne_nil hne]
      have hlength := congrArg List.length hpoints
      rw [List.length_map, List.length_map] at hlength
      exact hlength
    · rw [← segmentKey_of_ne_nil hne]
      exact sameStyle_of_folded hpoints.symm
    · have hdrop := congrArg (List.drop (utf8ToUtf32 (segmentKey segment)).length) hfolded
      rw [List.drop_left' (List.length_map _)] at hdrop
      simp [← hdrop, OutputValidator.folded, ← List.map_drop]

variable {preedit : Preedit}

theorem segmentKey_text (h : IsText preedit) {segment : PreeditSegment}
    (hsegment : segment ∈ preedit) : IsUnicode (segmentKey segment) := by
  rw [segmentKey]
  split
  · exact (h segment hsegment).1
  · exact (h segment hsegment).2

theorem utf8ToUtf32_flatMap {α : Type} {f : α → Bytes} : ∀ {l : List α},
    (∀ a ∈ l, IsUnicode (f a)) →
      utf8ToUtf32 (l.flatMap f) = l.flatMap fun a => utf8ToUtf32 (f a)
  | [], _ => rfl
  | a :: l, h => by
    have hpoints := utf8ToUtf32_flatMap (List.forall_mem_cons.mp h).2
    have ha := h a List.mem_cons_self
    rw [List.flatMap_cons, List.flatMap_cons, ← hpoints]
    have hwalk := walk_append splitFirstChar32_local (l.flatMap f) (f a).length (f a)
      (Nat.le_refl _) (List.isEmpty_iff.mp ha.1)
    rw [utf8ToUtf32, hwalk]
    rfl

theorem restoreKeys_restored {source : Bytes} (hsource : IsUnicode source) (h : IsText preedit) :
    List.Forall₂ KeyRestored preedit
      (restorePreeditSegmentKeysForSymbolStyle source preedit) := by
  unfold restorePreeditSegmentKeysForSymbolStyle
  split
  · exact keyRestored_refl preedit
  · dsimp only
    split
    · exact keyRestored_refl preedit
    · have hkeys := isUnicode_flatMap fun segment hsegment => segmentKey_text h hsegment
      have hvalues := isUnicode_flatMap fun segment hsegment => (h segment hsegment).2
      obtain ⟨sourceChars, hsourceChars, rfl, -⟩ := hsource.exists_characters
      obtain ⟨keyChars, hkeyChars, hkeyText, hkeyPoints⟩ := hkeys.exists_characters
      obtain ⟨valueChars, hvalueChars, hvalueText, -⟩ := hvalues.exists_characters
      obtain ⟨restored, hrestored, hchars, hfolded⟩ :=
        OutputValidator.restoreUserVisibleSymbolStyle_chars hsourceChars hvalueChars hkeyChars
      rw [hkeyText, hvalueText, hrestored]
      refine distributeKey_restored hchars preedit 0 (fun segment hsegment =>
        segmentKey_text h hsegment) ?_
      rw [List.drop_zero, hfolded, ← utf8ToUtf32_flatMap fun segment hsegment =>
        segmentKey_text h hsegment, hkeyPoints, OutputValidator.folded, List.map_map]
      rfl

/-! ## Any preedit -/

theorem markPending_kept (composer : ComposerTexts) (h : IsText preedit)
    (hcounted : Counted preedit) :
    keys (markPendingRomanTailOnPreedit composer preedit) = keys preedit ∧
      values (markPendingRomanTailOnPreedit composer preedit) = values preedit ∧
      Counted (markPendingRomanTailOnPreedit composer preedit) ∧
      ∀ segment ∈ markPendingRomanTailOnPreedit composer preedit, segment.isPendingRoman = true →
        segment ∈ preedit ∨
          (utf8ToUtf32 segment.value).length = composer.pendingRomanDisplayLength := by
  have hsame : keys preedit = keys preedit ∧ values preedit = values preedit ∧ Counted preedit ∧
      ∀ segment ∈ preedit, segment.isPendingRoman = true → segment ∈ preedit ∨
        (utf8ToUtf32 segment.value).length = composer.pendingRomanDisplayLength :=
    ⟨rfl, rfl, hcounted, fun segment hsegment _ => Or.inl hsegment⟩
  unfold markPendingRomanTailOnPreedit
  split
  · exact hsame
  · next last hlast =>
    split
    · exact hsame
    · next tail htail =>
      have hmem := List.mem_of_getLast? hlast
      have hreplaces :=
        markedTail_replaces (h last hmem).1 (h last hmem).2 (hcounted last hmem) htail
      have hsplit : preedit = preedit.dropLast ++ [last] := by
        rw [List.dropLast_append_getLast?]
        exact hlast
      refine ⟨?_, ?_, ?_, ?_⟩
      · conv_rhs => rw [hsplit]
        rw [keys_append, keys_append, hreplaces.keys]
        exact congrArg _ (List.append_nil _).symm
      · conv_rhs => rw [hsplit]
        rw [values_append, values_append, hreplaces.values]
        exact congrArg _ (List.append_nil _).symm
      · intro segment hsegment
        rcases List.mem_append.mp hsegment with hsegment | hsegment
        · exact hcounted segment (List.dropLast_subset _ hsegment)
        · exact hreplaces.counted segment hsegment
      · intro segment hsegment hmarked
        rcases List.mem_append.mp hsegment with hsegment | hsegment
        · exact Or.inl (List.dropLast_subset _ hsegment)
        · exact Or.inr (hreplaces.marked segment hsegment hmarked)

theorem restored_values {out : Preedit} (h : List.Forall₂ KeyRestored preedit out) :
    values out = values preedit ∧ (Counted preedit → Counted out) := by
  induction h with
  | nil => exact ⟨rfl, id⟩
  | @cons segment new preedit out hsegment _ ih =>
    refine ⟨?_, fun hcounted => ?_⟩
    · rw [values, List.flatMap_cons, hsegment.value]
      exact congrArg _ ih.1
    · intro other hother
      rcases List.mem_cons.mp hother with rfl | hother
      · rw [hsegment.value, hsegment.valueLength]
        exact hcounted segment List.mem_cons_self
      · exact ih.2 (List.forall_mem_cons.mp hcounted).2 other hother

/-- **The presentation keeps the text of a preedit in UTF-8.** A segment that is marked as romaji
has the length of the romaji. The style of the symbols is all that a key can lose. -/
theorem presentation_preserves_text :
    (∀ (key value : Bytes) (n : Nat) (preedit : Preedit), IsUnicode key → IsUnicode value →
      keys (addPreeditSegmentWithPendingRomanTail key value n preedit) = keys preedit ++ key ∧
      values (addPreeditSegmentWithPendingRomanTail key value n preedit) =
        values preedit ++ value ∧
      (Counted preedit → Counted (addPreeditSegmentWithPendingRomanTail key value n preedit)) ∧
      ∀ segment ∈ addPreeditSegmentWithPendingRomanTail key value n preedit,
        segment.isPendingRoman = true →
          segment ∈ preedit ∨ (utf8ToUtf32 segment.value).length = n) ∧
    (∀ (composer : ComposerTexts) (preedit : Preedit), IsText preedit → Counted preedit →
      keys (markPendingRomanTailOnPreedit composer preedit) = keys preedit ∧
      values (markPendingRomanTailOnPreedit composer preedit) = values preedit ∧
      Counted (markPendingRomanTailOnPreedit composer preedit) ∧
      ∀ segment ∈ markPendingRomanTailOnPreedit composer preedit, segment.isPendingRoman = true →
        segment ∈ preedit ∨
          (utf8ToUtf32 segment.value).length = composer.pendingRomanDisplayLength) ∧
    ∀ (source : Bytes) (preedit : Preedit), IsUnicode source → IsText preedit →
      values (restorePreeditSegmentKeysForSymbolStyle source preedit) = values preedit ∧
      (Counted preedit → Counted (restorePreeditSegmentKeysForSymbolStyle source preedit)) ∧
      List.Forall₂ KeyRestored preedit
        (restorePreeditSegmentKeysForSymbolStyle source preedit) := by
  refine ⟨fun key value n preedit hkey hvalue => ?_, fun composer preedit => markPending_kept
    composer, fun source preedit hsource hpreedit => ?_⟩
  · obtain ⟨added, heq, hadded⟩ := addPending_replaces n hkey hvalue preedit
    rw [heq]
    refine ⟨by rw [keys_append, hadded.keys], by rw [values_append, hadded.values], ?_, ?_⟩
    · intro hcounted segment hsegment
      exact (List.mem_append.mp hsegment).elim (hcounted segment) (hadded.counted segment)
    · intro segment hsegment hmarked
      exact (List.mem_append.mp hsegment).imp id fun h => hadded.marked segment h hmarked
  · have hrestored := restoreKeys_restored hsource hpreedit
    exact ⟨(restored_values hrestored).1, (restored_values hrestored).2, hrestored⟩

/-- A kana with an unresolved consonant, and a wave dash that was typed as a tilde. -/
theorem presentation_preserves_text_kat :
    values (addPreeditSegmentWithPendingRomanTail (utf8 "かt") (utf8 "かｔ") 1 []) = utf8 "かｔ" ∧
      values (restorePreeditSegmentKeysForSymbolStyle (utf8 "あ~")
        [newSegment (utf8 "あ〜") (utf8 "あ〜") .underline]) = utf8 "あ〜" := by
  have hsegment : IsText [newSegment (utf8 "あ〜") (utf8 "あ〜") .underline] := by
    intro segment h
    rw [List.mem_singleton.mp h]
    exact ⟨by decide +kernel, by decide +kernel⟩
  exact ⟨(presentation_preserves_text.1 (utf8 "かt") (utf8 "かｔ") 1 [] (by decide +kernel)
    (by decide +kernel)).2.1, (presentation_preserves_text.2.2 (utf8 "あ~") _ (by decide +kernel)
    hsegment).1⟩

/-- Of a value that is not UTF-8 a cut loses bytes. -/
theorem malformed_value_is_torn :
    values (addPreeditSegmentWithPendingRomanTail (utf8 "かt") [0x61, 0x80, 0x74] 1 []) ≠
      [0x61, 0x80, 0x74] := by
  decide +kernel

end Preedit

end Mozkey.Session
