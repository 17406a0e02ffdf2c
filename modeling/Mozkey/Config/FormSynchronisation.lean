import Mozkey.Config.CharacterFormManager

/-!
# Learned character forms stay synchronised

A form that is set for one character is stored for its whole group. Where '0' is written, a stored
number style is brought to the same width. When another character of the group of '0' is set, '0' is
written with it and the number style is not (`forms_synchronised_iff`).
-/

namespace Mozkey.Config

open Infra Base Std

/-! ## Calls -/

inductive FormCall where
  | setCharacterForm (str : Bytes) (form : CharacterForm)
  | guessAndSetCharacterForm (str : Bytes)
  | setLastNumberStyle (formStyle : NumberFormStyle)

def CharacterForm.IsWidth (form : CharacterForm) : Prop := form = .halfWidth ∨ form = .fullWidth

instance (form : CharacterForm) : Decidable form.IsWidth := inferInstanceAs (Decidable (_ ∨ _))

/-- The width that a style has of its own. -/
def NumberStyle.width : NumberStyle → Option CharacterForm
  | .numberSeparatedArabicHalfwidth | .numberArabicAndKanjiHalfwidth => some .halfWidth
  | .numberSeparatedArabicFullwidth | .numberArabicAndKanjiFullwidth => some .fullWidth
  | _ => none

def NumberFormStyle.Agrees (formStyle : NumberFormStyle) : Prop :=
  ∀ w, formStyle.style.width = some w → w = formStyle.form

variable (japanese : Japanese) (m : CharacterFormManager)

/-- The keys under which a form is written when it is set for a string. -/
def formKeys (f : Bytes × CharacterForm) : List Nat :=
  let ucs2 := getNormalizedCharacter japanese f.1
  if ucs2 ≠ 0 ∧ m.conversionTable[ucs2]? = some .lastForm ∧ f.2.IsWidth then groupOf m ucs2 else []

namespace FormCall

/-- The forms that a call sets, in order. -/
def forms : FormCall → List (Bytes × CharacterForm)
  | .setCharacterForm str form => [(str, form)]
  | .guessAndSetCharacterForm str => guessedForms str
  | .setLastNumberStyle formStyle =>
    if formStyle.form.IsWidth then [(utf8 "0", formStyle.form)] else []

def run (storage : FormStorage) : FormCall → FormStorage
  | .setCharacterForm str form => Config.setCharacterForm japanese m storage str form
  | .guessAndSetCharacterForm str => Config.guessAndSetCharacterForm japanese m storage str
  | .setLastNumberStyle formStyle => Config.setLastNumberStyle japanese m storage formStyle

/-- The style of a number style agrees with its form. -/
def Agrees : FormCall → Prop
  | .setLastNumberStyle formStyle => formStyle.Agrees
  | _ => True

/-- The keys that a call may write. -/
def keys (call : FormCall) : List Nat :=
  call.forms.flatMap (formKeys japanese m) ++
    match call with
    | .setLastNumberStyle _ => [kKey]
    | _ => []

end FormCall

def runCalls (storage : FormStorage) (calls : List FormCall) : FormStorage :=
  calls.foldl (FormCall.run japanese m) storage

/-- The storage has room for all keys that are written. -/
def EnoughRoom (calls : List FormCall) : Prop :=
  ((calls.flatMap (FormCall.keys japanese m)).dedup).length ≤ kLruSize

/-! ## What was set last -/

/-- The form that is set for the group, if one is. -/
def setFor (group : List Nat) (f : Bytes × CharacterForm) : Option CharacterForm :=
  if getNormalizedCharacter japanese f.1 ∈ group ∧ f.2.IsWidth then some f.2 else none

def lastSet (group : List Nat) (forms : List (Bytes × CharacterForm)) : Option CharacterForm :=
  (forms.filterMap (setFor japanese group)).getLast?

variable {japanese m} {group ks : List Nat} {forms : List (Bytes × CharacterForm)}
  {f : Bytes × CharacterForm} {storage : FormStorage} {rules : List CharacterFormRule} {ucs2 : Nat}
  {form : CharacterForm}

theorem lastSet_append_some (h : setFor japanese group f = some form) :
    lastSet japanese group (forms ++ [f]) = some form := by
  unfold lastSet
  simp [h]

theorem lastSet_append_none (h : setFor japanese group f = none) :
    lastSet japanese group (forms ++ [f]) = lastSet japanese group forms := by
  unfold lastSet
  simp [h]

/-! ## The number style -/

theorem agrees_adapt {style : NumberStyle} (h : form.IsWidth) :
    NumberFormStyle.Agrees ⟨form, adaptNumberStyleToForm style form⟩ := by
  intro w hw
  rcases h with rfl | rfl <;> cases style <;> simp_all [adaptNumberStyleToForm, NumberStyle.width]

theorem getNumberStyle_congr {storage' : FormStorage}
    (h : storage'.get? kKey = storage.get? kKey) :
    getNumberStyle storage' = getNumberStyle storage := by
  unfold getNumberStyle
  rw [h]

variable {formStyle : NumberFormStyle} {rule : CharacterFormRule}

theorem mem_of_getNumberStyle (hwithin : storage.Within ks)
    (h : getNumberStyle storage = some formStyle) : kKey ∈ ks := by
  refine hwithin.mem kKey fun hnone => ?_
  unfold getNumberStyle at h
  rw [hnone] at h
  simp at h

/-- What the storage says after a change: the records of the characters, and the number style. -/
structure Change (ks : List Nat) (storage' : FormStorage) (records : Nat → Option Record)
    (style : Option NumberFormStyle) : Prop where
  within : storage'.Within ks
  get : ∀ c, c ≠ kKey → storage'.get? c = records c
  style : getNumberStyle storage' = style

theorem change_setNumberStyle (hwithin : storage.Within ks) (hk : kKey ∈ ks)
    (formStyle : NumberFormStyle) :
    Change ks (setNumberStyle storage formStyle) storage.get? (some formStyle) := by
  have hget : ∀ c, (setNumberStyle storage formStyle).get? c =
      if c = kKey then some (.numberStyle formStyle) else storage.get? c := fun c =>
    RecencyMap.get?_insert (hwithin.roomFor hk)
  refine ⟨hwithin.insert hk, fun c hc => by rw [hget, if_neg hc], ?_⟩
  unfold getNumberStyle
  simp [hget]

theorem change_synchronizeNumberForm (hwithin : storage.Within ks) (form : CharacterForm) :
    Change ks (synchronizeNumberForm storage form) storage.get?
      ((getNumberStyle storage).map fun current =>
        ⟨form, adaptNumberStyleToForm current.style form⟩) := by
  unfold synchronizeNumberForm
  cases hstyle : getNumberStyle storage with
  | none => exact ⟨hwithin, fun _ _ => rfl, hstyle⟩
  | some current =>
    dsimp only
    split
    · exact change_setNumberStyle hwithin (mem_of_getNumberStyle hwithin hstyle) _
    · next hsame =>
      -- the stored style has the width already
      rw [not_or, not_not, not_not] at hsame
      refine ⟨hwithin, fun _ _ => rfl, ?_⟩
      rw [hstyle, Option.map_some, ← hsame.2, ← hsame.1]

/-! ## Saving a form -/

/-- The records of the characters after a form was saved. -/
def savedRecords (group : List Nat) (storage : FormStorage) (ucs2 : Nat) (form : CharacterForm)
    (c : Nat) : Option Record :=
  if storage.get? ucs2 ≠ some (.form form) ∧ c ∈ group then some (.form form) else storage.get? c

/-- The number style after a form was saved. -/
def savedStyle (storage : FormStorage) (ucs2 : Nat) (form : CharacterForm) :
    Option NumberFormStyle :=
  if ucs2 = zero then
    (getNumberStyle storage).map fun current => ⟨form, adaptNumberStyleToForm current.style form⟩
  else getNumberStyle storage

theorem change_synchronize (hwithin : storage.Within ks) (ucs2 : Nat) (form : CharacterForm) :
    Change ks (if ucs2 = zero then synchronizeNumberForm storage form else storage) storage.get?
      (savedStyle storage ucs2 form) := by
  unfold savedStyle
  split
  · exact change_synchronizeNumberForm hwithin form
  · exact ⟨hwithin, fun _ _ => rfl, rfl⟩

theorem change_saveCharacterFormToStorage (hwithin : storage.Within ks) (hwidth : form.IsWidth)
    (hgroup : groupOf m ucs2 ⊆ ks) (hkey : kKey ∉ groupOf m ucs2) :
    Change ks (saveCharacterFormToStorage m storage ucs2 form)
      (savedRecords (groupOf m ucs2) storage ucs2 form) (savedStyle storage ucs2 form) := by
  unfold saveCharacterFormToStorage savedRecords
  rw [if_neg (by rcases hwidth with rfl | rfl <;> simp)]
  dsimp only
  split
  · next hfound =>
    have hchange := change_synchronize hwithin ucs2 form
    exact ⟨hchange.within, fun c hc => by rw [hchange.get c hc, if_neg fun h => h.1 hfound],
      hchange.style⟩
  · next hfound =>
    obtain ⟨hwithin', hget⟩ := hwithin.foldl_insert (v := Record.form form) hgroup
    have hchange := change_synchronize hwithin' ucs2 form
    refine ⟨hchange.within, fun c hc => ?_, ?_⟩
    · simp [hchange.get c hc, hget, hfound]
    · rw [hchange.style, savedStyle, savedStyle, getNumberStyle_congr]
      rw [hget, if_neg hkey]

/-! ## The invariant -/

/-- After `forms` were set: every group has the form that was set last for it, and so has a number
style with a width. -/
structure Learned (japanese : Japanese) (rules : List CharacterFormRule) (ks : List Nat)
    (forms : List (Bytes × CharacterForm)) (storage : FormStorage) : Prop where
  within : storage.Within ks
  form : ∀ rule ∈ effectiveRules rules, rule.2 = .lastForm → ∀ c ∈ ruleGroup japanese rule.1,
    storage.get? c = (lastSet japanese (ruleGroup japanese rule.1) forms).map Record.form
  style : ∀ formStyle, getNumberStyle storage = some formStyle → formStyle.Agrees ∧
    ∀ rule ∈ effectiveRules rules, rule.2 = .lastForm → zero ∈ ruleGroup japanese rule.1 →
      formStyle.form.IsWidth →
        lastSet japanese (ruleGroup japanese rule.1) forms = some formStyle.form

/-- No character but '0' is written with '0' while there can be a number style. -/
def ZeroApart (japanese : Japanese) (rules : List CharacterFormRule) (ks : List Nat) : Prop :=
  ∀ rule ∈ effectiveRules rules, rule.2 = .lastForm → zero ∈ ruleGroup japanese rule.1 →
    ruleGroup japanese rule.1 = [zero] ∨ ¬(ruleGroup japanese rule.1 ⊆ ks ∧ kKey ∈ ks)

/-- The key of the number style is no character. -/
def NoKeyCharacter (japanese : Japanese) : Prop :=
  ∀ str, (decodeUtf8 (japanese.halfWidthToFullWidth str)).map Prod.fst ≠ some kKey

theorem getNormalizedCharacter_ne_kKey (h : NoKeyCharacter japanese) (str : Bytes) :
    getNormalizedCharacter japanese str ≠ kKey := by
  unfold getNormalizedCharacter
  split
  · decide
  · decide
  · decide
  · decide
  · decide
  · split
    · split
      · next codepoint _ hd =>
        split
        · intro heq
          exact h str (by rw [hd, Option.map_some, heq])
        · decide
      · decide
    · decide

theorem kKey_not_mem_ruleGroup (h : NoKeyCharacter japanese) (key : Bytes) :
    kKey ∉ ruleGroup japanese key := by
  intro hmem
  obtain ⟨ch, -, hch⟩ := List.mem_map.mp (List.mem_filter.mp (mem_ruleGroup.mp hmem)).1
  exact getNormalizedCharacter_ne_kKey h _ hch

theorem getNormalizedCharacter_zero : getNormalizedCharacter japanese (utf8 "0") = zero := by
  have htype : getScriptTypeOfString (utf8 "0") = .number := by decide
  unfold getNormalizedCharacter
  rw [htype]
  rfl

theorem setFor_eq_none (h : ¬(getNormalizedCharacter japanese f.1 ∈ group ∧ f.2.IsWidth)) :
    setFor japanese group f = none := if_neg h

theorem setCharacterForm_of_not_last
    (h : m.conversionTable[getNormalizedCharacter japanese f.1]? ≠ some .lastForm) :
    setCharacterForm japanese m storage f.1 f.2 = storage := by
  unfold setCharacterForm
  dsimp only
  split
  · rfl
  · split
    · rfl
    · next ruleForm hform => rw [if_neg fun heq => h (by rw [hform, heq])]

theorem setCharacterForm_of_not_width (h : ¬f.2.IsWidth) :
    setCharacterForm japanese m storage f.1 f.2 = storage := by
  have hform : f.2 ≠ .fullWidth ∧ f.2 ≠ .halfWidth := by
    unfold CharacterForm.IsWidth at h
    rw [not_or] at h
    exact ⟨h.2, h.1⟩
  unfold setCharacterForm saveCharacterFormToStorage
  dsimp only
  split
  · rfl
  · split
    · rfl
    · simp

/-- A form is written for the group of a rule. -/
structure Writes (japanese : Japanese) (rules : List CharacterFormRule)
    (f : Bytes × CharacterForm) (rule : CharacterFormRule) : Prop where
  mem : rule ∈ effectiveRules rules
  last : rule.2 = .lastForm
  width : f.2.IsWidth
  char : getNormalizedCharacter japanese f.1 ∈ ruleGroup japanese rule.1
  group : groupOf (reloadConfig japanese rules) (getNormalizedCharacter japanese f.1) =
    ruleGroup japanese rule.1
  table : (reloadConfig japanese rules).conversionTable[getNormalizedCharacter japanese f.1]? =
    some .lastForm

theorem writes_of_mem (hload : LoadedAsWritten japanese rules) (hr : rule ∈ effectiveRules rules)
    (hl : rule.2 = .lastForm) (hwidth : f.2.IsWidth)
    (hc : getNormalizedCharacter japanese f.1 ∈ ruleGroup japanese rule.1) :
    Writes japanese rules f rule := by
  obtain ⟨htable, hgroup⟩ := (tablesSay_reloadConfig hload _).1 rule hr hc
  exact ⟨hr, hl, hwidth, hc, hgroup, by rw [htable, hl]⟩

theorem formKeys_of_writes (h : Writes japanese rules f rule) :
    formKeys japanese (reloadConfig japanese rules) f = ruleGroup japanese rule.1 := by
  unfold formKeys
  dsimp only
  rw [if_pos ⟨ne_zero_of_mem_ruleGroup h.char, h.table, h.width⟩, h.group]

theorem setCharacterForm_of_writes (h : Writes japanese rules f rule) :
    setCharacterForm japanese (reloadConfig japanese rules) storage f.1 f.2 =
      saveCharacterFormToStorage (reloadConfig japanese rules) storage
        (getNormalizedCharacter japanese f.1) f.2 := by
  unfold setCharacterForm
  dsimp only
  rw [if_neg (ne_zero_of_mem_ruleGroup h.char), h.table]
  rfl

/-- A form that is set for a string is written for one rule, or nothing happens. -/
theorem setCharacterForm_cases (hload : LoadedAsWritten japanese rules)
    (f : Bytes × CharacterForm) (storage : FormStorage) :
    (∃ rule, Writes japanese rules f rule) ∨
    ((∀ rule ∈ effectiveRules rules, rule.2 = .lastForm →
      setFor japanese (ruleGroup japanese rule.1) f = none) ∧
      setCharacterForm japanese (reloadConfig japanese rules) storage f.1 f.2 = storage) := by
  obtain ⟨hmem, hnone⟩ := tablesSay_reloadConfig hload (getNormalizedCharacter japanese f.1)
  by_cases hwidth : f.2.IsWidth
  · by_cases hlast : ∃ rule ∈ effectiveRules rules, rule.2 = .lastForm ∧
        getNormalizedCharacter japanese f.1 ∈ ruleGroup japanese rule.1
    · obtain ⟨rule, hr, hl, hc⟩ := hlast
      exact .inl ⟨rule, writes_of_mem hload hr hl hwidth hc⟩
    · have hno : ∀ rule ∈ effectiveRules rules, rule.2 = .lastForm →
          getNormalizedCharacter japanese f.1 ∉ ruleGroup japanese rule.1 :=
        fun rule hr hl hc => hlast ⟨rule, hr, hl, hc⟩
      refine .inr ⟨fun rule hr hl => setFor_eq_none fun h => hno rule hr hl h.1,
        setCharacterForm_of_not_last ?_⟩
      by_cases hex : ∃ rule ∈ effectiveRules rules,
          getNormalizedCharacter japanese f.1 ∈ ruleGroup japanese rule.1
      · obtain ⟨rule, hr, hc⟩ := hex
        rw [(hmem rule hr hc).1]
        exact fun heq => hno rule hr (Option.some.inj heq) hc
      · simp [(hnone fun rule hr hc => hex ⟨rule, hr, hc⟩).1]
  · exact .inr ⟨fun rule _ _ => setFor_eq_none fun h => hwidth h.2,
      setCharacterForm_of_not_width hwidth⟩

/-! ## One form -/

/-- Two rules that share a character have the same group. -/
theorem ruleGroup_eq_of_mem (hload : LoadedAsWritten japanese rules) {rule' : CharacterFormRule}
    (hr : rule ∈ effectiveRules rules) (hr' : rule' ∈ effectiveRules rules)
    (hc : ucs2 ∈ ruleGroup japanese rule.1) (hc' : ucs2 ∈ ruleGroup japanese rule'.1) :
    ruleGroup japanese rule.1 = ruleGroup japanese rule'.1 := by
  obtain ⟨hmem, -⟩ := tablesSay_reloadConfig hload ucs2
  rw [← (hmem rule hr hc).2, ← (hmem rule' hr' hc').2]

theorem learned_setCharacterForm (hload : LoadedAsWritten japanese rules)
    (hkey : NoKeyCharacter japanese) (hzero : ZeroApart japanese rules ks)
    (h : Learned japanese rules ks forms storage)
    (hks : formKeys japanese (reloadConfig japanese rules) f ⊆ ks) :
    Learned japanese rules ks (forms ++ [f])
      (setCharacterForm japanese (reloadConfig japanese rules) storage f.1 f.2) := by
  rcases setCharacterForm_cases hload f storage with ⟨rule, hwrites⟩ | ⟨hnone, hsame⟩
  · rw [formKeys_of_writes hwrites] at hks
    have hset : ∀ rule' : CharacterFormRule,
        getNormalizedCharacter japanese f.1 ∈ ruleGroup japanese rule'.1 →
        setFor japanese (ruleGroup japanese rule'.1) f = some f.2 := fun rule' hc =>
      if_pos ⟨hc, hwrites.width⟩
    have hchange := change_saveCharacterFormToStorage h.within hwrites.width
      (by rw [hwrites.group]; exact hks)
      (by rw [hwrites.group]; exact kKey_not_mem_ruleGroup hkey _)
    rw [hwrites.group] at hchange
    rw [setCharacterForm_of_writes hwrites]
    refine ⟨hchange.within, fun rule' hr' hl' c hc' => ?_, fun formStyle hstyle => ?_⟩
    · rw [hchange.get c fun heq => kKey_not_mem_ruleGroup hkey _ (heq ▸ hc')]
      by_cases hc : c ∈ ruleGroup japanese rule.1
      · have heq := ruleGroup_eq_of_mem hload hwrites.mem hr' hc hc'
        rw [lastSet_append_some (hset rule' (heq ▸ hwrites.char)), Option.map_some, savedRecords]
        split
        · rfl
        · next hfound =>
          -- the character has the form already, and so has its whole group
          have hfound : storage.get? (getNormalizedCharacter japanese f.1) = some (.form f.2) := by
            by_contra hne
            exact hfound ⟨hne, hc⟩
          rw [h.form rule hwrites.mem hwrites.last _ hwrites.char] at hfound
          rw [h.form rule hwrites.mem hwrites.last c hc]
          exact hfound
      · rw [savedRecords, if_neg fun hand => hc hand.2, h.form rule' hr' hl' c hc',
          lastSet_append_none]
        refine setFor_eq_none fun hand => hc ?_
        rw [ruleGroup_eq_of_mem hload hwrites.mem hr' hwrites.char hand.1]
        exact hc'
    · rw [hchange.style, savedStyle] at hstyle
      split at hstyle
      · next hz =>
        -- '0' itself was written, and the number style follows it
        obtain ⟨current, -, rfl⟩ := Option.map_eq_some_iff.mp hstyle
        exact ⟨agrees_adapt hwrites.width, fun rule' _ _ hc' _ =>
          lastSet_append_some (hset rule' (hz ▸ hc'))⟩
      · next hz =>
        obtain ⟨hagrees, hold⟩ := h.style formStyle hstyle
        refine ⟨hagrees, fun rule' hr' hl' hc' hwidth => ?_⟩
        rw [lastSet_append_none]
        · exact hold rule' hr' hl' hc' hwidth
        · refine setFor_eq_none fun hand => ?_
          have heq := ruleGroup_eq_of_mem hload hwrites.mem hr' hwrites.char hand.1
          rcases hzero rule' hr' hl' hc' with hsingle | hapart
          · rw [hsingle] at hand
            exact hz (List.mem_singleton.mp hand.1)
          · exact hapart ⟨heq ▸ hks, mem_of_getNumberStyle h.within hstyle⟩
  · rw [hsame]
    have hlast : ∀ rule ∈ effectiveRules rules, rule.2 = .lastForm →
        lastSet japanese (ruleGroup japanese rule.1) (forms ++ [f]) =
          lastSet japanese (ruleGroup japanese rule.1) forms := fun rule hr hl =>
      lastSet_append_none (hnone rule hr hl)
    refine ⟨h.within, fun rule hr hl c hc => ?_, fun formStyle hstyle => ?_⟩
    · rw [hlast rule hr hl]
      exact h.form rule hr hl c hc
    · obtain ⟨hagrees, hold⟩ := h.style formStyle hstyle
      refine ⟨hagrees, fun rule hr hl hc hwidth => ?_⟩
      rw [hlast rule hr hl]
      exact hold rule hr hl hc hwidth

theorem learned_setAll (hload : LoadedAsWritten japanese rules)
    (hkey : NoKeyCharacter japanese) (hzero : ZeroApart japanese rules ks) :
    ∀ {l forms : List (Bytes × CharacterForm)} {storage : FormStorage},
    Learned japanese rules ks forms storage →
    l.flatMap (formKeys japanese (reloadConfig japanese rules)) ⊆ ks →
    Learned japanese rules ks (forms ++ l)
      (setAll japanese (reloadConfig japanese rules) storage l)
  | [], forms, storage, h, _ => by rwa [List.append_nil]
  | f :: l, forms, storage, h, hks => by
    rw [List.flatMap_cons, List.append_subset] at hks
    have hnext := learned_setAll hload hkey hzero
      (learned_setCharacterForm hload hkey hzero h hks.1) hks.2
    rw [List.append_assoc] at hnext
    exact hnext

/-! ## One call -/

theorem learned_setNumberStyle (h : Learned japanese rules ks forms storage)
    (hkey : NoKeyCharacter japanese) (hk : kKey ∈ ks) (hagrees : formStyle.Agrees)
    (hlast : formStyle.form.IsWidth → ∀ rule ∈ effectiveRules rules, rule.2 = .lastForm →
      zero ∈ ruleGroup japanese rule.1 →
        lastSet japanese (ruleGroup japanese rule.1) forms = some formStyle.form) :
    Learned japanese rules ks forms (setNumberStyle storage formStyle) := by
  have hchange := change_setNumberStyle h.within hk formStyle
  refine ⟨hchange.within, fun rule hr hl c hc => ?_, fun stored hstored => ?_⟩
  · rw [hchange.get c fun heq => kKey_not_mem_ruleGroup hkey _ (heq ▸ hc)]
    exact h.form rule hr hl c hc
  · rw [hchange.style, Option.some.injEq] at hstored
    subst hstored
    exact ⟨hagrees, fun rule hr hl hc hwidth => hlast hwidth rule hr hl hc⟩

theorem FormCall.forms_subset {call : FormCall} (h : call.keys japanese m ⊆ ks) :
    call.forms.flatMap (formKeys japanese m) ⊆ ks := fun _ hk => h (List.mem_append_left _ hk)

theorem FormCall.kKey_mem (h : (FormCall.setLastNumberStyle formStyle).keys japanese m ⊆ ks) :
    kKey ∈ ks :=
  h (List.mem_append_right _ (List.mem_singleton_self _))

theorem learned_run (hload : LoadedAsWritten japanese rules) (hkey : NoKeyCharacter japanese)
    (hzero : ZeroApart japanese rules ks) (h : Learned japanese rules ks forms storage) :
    ∀ {call : FormCall}, call.Agrees → call.keys japanese (reloadConfig japanese rules) ⊆ ks →
    Learned japanese rules ks (forms ++ call.forms)
      (call.run japanese (reloadConfig japanese rules) storage)
  | .setCharacterForm str form, _, hks =>
    learned_setAll hload hkey hzero h (FormCall.forms_subset hks)
  | .guessAndSetCharacterForm str, _, hks =>
    learned_setAll hload hkey hzero h (FormCall.forms_subset hks)
  | .setLastNumberStyle formStyle, hagrees, hks => by
    have hforms := learned_setAll hload hkey hzero h (FormCall.forms_subset hks)
    have hrun : FormCall.run japanese (reloadConfig japanese rules) storage
        (.setLastNumberStyle formStyle) = setNumberStyle
          (setAll japanese (reloadConfig japanese rules) storage
            (FormCall.setLastNumberStyle formStyle).forms) formStyle := by
      show setNumberStyle (if formStyle.form.IsWidth then _ else _) formStyle = _
      rw [FormCall.forms]
      split <;> rfl
    rw [hrun]
    refine learned_setNumberStyle hforms hkey (FormCall.kKey_mem hks) hagrees ?_
    intro hwidth rule _ _ hc
    rw [FormCall.forms, if_pos hwidth]
    exact lastSet_append_some (if_pos ⟨by rwa [getNormalizedCharacter_zero], hwidth⟩)

/-! ## Runs -/

theorem within_empty (hks : ks.length ≤ kLruSize) : emptyStorage.Within ks :=
  ⟨hks, fun _ hk => absurd rfl hk⟩

theorem learned_empty (hks : ks.length ≤ kLruSize) :
    Learned japanese rules ks [] emptyStorage := by
  have hget : ∀ c, emptyStorage.get? c = none := fun _ => rfl
  refine ⟨within_empty hks, fun rule _ _ c _ => by rw [hget]; rfl, ?_⟩
  intro formStyle hstyle
  rw [getNumberStyle, hget] at hstyle
  simp at hstyle

theorem learned_runCalls (hload : LoadedAsWritten japanese rules)
    (hkey : NoKeyCharacter japanese) (hzero : ZeroApart japanese rules ks) :
    ∀ {calls : List FormCall} {forms : List (Bytes × CharacterForm)} {storage : FormStorage},
    Learned japanese rules ks forms storage → (∀ call ∈ calls, call.Agrees) →
    calls.flatMap (FormCall.keys japanese (reloadConfig japanese rules)) ⊆ ks →
    Learned japanese rules ks (forms ++ calls.flatMap FormCall.forms)
      (runCalls japanese (reloadConfig japanese rules) storage calls)
  | [], forms, storage, h, _, _ => by
    rw [List.flatMap_nil, List.append_nil]
    exact h
  | call :: calls, forms, storage, h, hagrees, hks => by
    rw [List.flatMap_cons, List.append_subset] at hks
    have hnext := learned_runCalls hload hkey hzero
      (learned_run hload hkey hzero h (hagrees call List.mem_cons_self) hks.1)
      (List.forall_mem_cons.mp hagrees).2 hks.2
    rw [List.append_assoc] at hnext
    exact hnext

/-! ## The property -/

/-- What is promised after `calls`. -/
structure Synchronised (japanese : Japanese) (rules : List CharacterFormRule)
    (calls : List FormCall) (storage : FormStorage) : Prop where
  forms : ∀ rule ∈ effectiveRules rules, rule.2 = .lastForm → ∀ str,
    getNormalizedCharacter japanese str ∈ ruleGroup japanese rule.1 →
    getCharacterForm japanese (reloadConfig japanese rules) storage str =
      (lastSet japanese (ruleGroup japanese rule.1) (calls.flatMap FormCall.forms)).getD .fullWidth
  number : ∀ rule ∈ effectiveRules rules, rule.2 = .lastForm →
    zero ∈ ruleGroup japanese rule.1 → ∀ formStyle, getNumberStyle storage = some formStyle →
      formStyle.form.IsWidth →
        formStyle.form = getCharacterFormFromStorage storage zero ∧
          ∀ w, formStyle.style.width = some w → w = getCharacterFormFromStorage storage zero

theorem getCharacterFormFromStorage_eq {last : Option CharacterForm}
    (h : storage.get? ucs2 = last.map Record.form) :
    getCharacterFormFromStorage storage ucs2 = last.getD .fullWidth := by
  unfold getCharacterFormFromStorage
  rw [h]
  cases last <;> rfl

theorem getCharacterForm_eq (hload : LoadedAsWritten japanese rules)
    (hr : rule ∈ effectiveRules rules) (hl : rule.2 = .lastForm) {str : Bytes}
    (hc : getNormalizedCharacter japanese str ∈ ruleGroup japanese rule.1) :
    getCharacterForm japanese (reloadConfig japanese rules) storage str =
      getCharacterFormFromStorage storage (getNormalizedCharacter japanese str) := by
  have htable := ((tablesSay_reloadConfig hload _).1 rule hr hc).1
  unfold getCharacterForm
  dsimp only
  rw [if_neg (ne_zero_of_mem_ruleGroup hc), htable, hl]
  rfl

theorem synchronised_of_learned {calls : List FormCall} (hload : LoadedAsWritten japanese rules)
    (h : Learned japanese rules ks (calls.flatMap FormCall.forms) storage) :
    Synchronised japanese rules calls storage := by
  refine ⟨fun rule hr hl str hc => ?_, fun rule hr hl hc formStyle hstyle hwidth => ?_⟩
  · rw [getCharacterForm_eq hload hr hl hc,
      getCharacterFormFromStorage_eq (h.form rule hr hl _ hc)]
  · obtain ⟨hagrees, hlast⟩ := h.style formStyle hstyle
    rw [getCharacterFormFromStorage_eq (h.form rule hr hl zero hc),
      hlast rule hr hl hc hwidth, Option.getD_some]
    exact ⟨rfl, hagrees⟩

/-- '0' has a group of its own, or one that leaves no room for the number style. -/
def ZeroAlone (japanese : Japanese) (rules : List CharacterFormRule) : Prop :=
  ∀ rule ∈ effectiveRules rules, rule.2 = .lastForm → zero ∈ ruleGroup japanese rule.1 →
    ruleGroup japanese rule.1 = [zero] ∨ kLruSize ≤ (ruleGroup japanese rule.1).length

theorem zeroApart_of_zeroAlone (hkey : NoKeyCharacter japanese) (h : ZeroAlone japanese rules)
    (hks : ks.length ≤ kLruSize) : ZeroApart japanese rules ks := by
  intro rule hr hl hc
  rcases h rule hr hl hc with hsingle | hlong
  · exact .inl hsingle
  · right
    rintro ⟨hgroup, hk⟩
    have hnodup : (kKey :: ruleGroup japanese rule.1).Nodup :=
      List.nodup_cons.mpr ⟨kKey_not_mem_ruleGroup hkey _, nodup_ruleGroup _⟩
    have hle := (List.subperm_of_subset hnodup (List.cons_subset.mpr ⟨hk, hgroup⟩)).length_le
    simp at hle
    omega

/-! ## '0' in a larger group -/

theorem exists_mem_ne {a : Nat} (hnodup : group.Nodup) (ha : a ∈ group) (h : group ≠ [a]) :
    ∃ b ∈ group, b ≠ a := by
  by_contra hall
  have hall : ∀ b ∈ group, b = a := by
    intro b hb
    by_contra hne
    exact hall ⟨b, hb, hne⟩
  have heq := List.eq_replicate_of_mem hall
  rw [heq, List.nodup_replicate] at hnodup
  have hpos := List.length_pos_of_mem ha
  have hone : group.length = 1 := by omega
  rw [hone] at heq
  exact h heq

/-- The style is set to half width, and then another character of the group to full width. -/
def halfThenFull (str : Bytes) : List FormCall :=
  [.setLastNumberStyle ⟨.halfWidth, .numberSeparatedArabicHalfwidth⟩,
    .setCharacterForm str .fullWidth]

theorem agrees_halfThenFull {str : Bytes} : ∀ call ∈ halfThenFull str, call.Agrees := by
  intro call hcall
  rcases List.mem_cons.mp hcall with rfl | hcall
  · rintro w ⟨⟩
    rfl
  · rw [List.mem_singleton.mp hcall]
    trivial

theorem change_of_writes (hkey : NoKeyCharacter japanese) (hwithin : storage.Within ks)
    (h : Writes japanese rules f rule) (hks : ruleGroup japanese rule.1 ⊆ ks) :
    Change ks (setCharacterForm japanese (reloadConfig japanese rules) storage f.1 f.2)
      (savedRecords (ruleGroup japanese rule.1) storage (getNormalizedCharacter japanese f.1) f.2)
      (savedStyle storage (getNormalizedCharacter japanese f.1) f.2) := by
  rw [setCharacterForm_of_writes h, ← h.group]
  refine change_saveCharacterFormToStorage hwithin h.width ?_ ?_
  · rwa [h.group]
  · rw [h.group]
    exact kKey_not_mem_ruleGroup hkey _

theorem enoughRoom_halfThenFull (hload : LoadedAsWritten japanese rules)
    (hr : rule ∈ effectiveRules rules) (hl : rule.2 = .lastForm)
    (hzero : zero ∈ ruleGroup japanese rule.1) {str : Bytes}
    (hc : getNormalizedCharacter japanese str ∈ ruleGroup japanese rule.1)
    (hlen : (ruleGroup japanese rule.1).length < kLruSize) :
    EnoughRoom japanese (reloadConfig japanese rules) (halfThenFull str) := by
  have hhalf : formKeys japanese (reloadConfig japanese rules) (utf8 "0", .halfWidth) =
      ruleGroup japanese rule.1 :=
    formKeys_of_writes (writes_of_mem hload hr hl (.inl rfl) (by
      rw [getNormalizedCharacter_zero]
      exact hzero))
  have hfull : formKeys japanese (reloadConfig japanese rules) (str, .fullWidth) =
      ruleGroup japanese rule.1 := formKeys_of_writes (writes_of_mem hload hr hl (.inr rfl) hc)
  have hkeys : (halfThenFull str).flatMap (FormCall.keys japanese (reloadConfig japanese rules)) ⊆
      kKey :: ruleGroup japanese rule.1 := by
    intro k hk
    simp [halfThenFull, FormCall.keys, FormCall.forms, CharacterForm.IsWidth, hhalf, hfull] at hk
    rw [List.mem_cons]
    tauto
  have hle := (List.subperm_of_subset (List.nodup_dedup _)
    (fun k hk => hkeys (List.mem_dedup.mp hk))).length_le
  unfold EnoughRoom
  simp at hle
  omega

theorem not_synchronised_halfThenFull (hload : LoadedAsWritten japanese rules)
    (hkey : NoKeyCharacter japanese) (hr : rule ∈ effectiveRules rules) (hl : rule.2 = .lastForm)
    (hzero : zero ∈ ruleGroup japanese rule.1) {str : Bytes}
    (hc : getNormalizedCharacter japanese str ∈ ruleGroup japanese rule.1)
    (hne : getNormalizedCharacter japanese str ≠ zero)
    (hlen : (ruleGroup japanese rule.1).length < kLruSize) :
    ¬Synchronised japanese rules (halfThenFull str)
      (runCalls japanese (reloadConfig japanese rules) emptyStorage (halfThenFull str)) := by
  intro h
  have hks : ruleGroup japanese rule.1 ⊆ kKey :: ruleGroup japanese rule.1 := by simp
  have hempty : emptyStorage.Within (kKey :: ruleGroup japanese rule.1) := within_empty hlen
  have hhalf := change_of_writes hkey hempty (f := (utf8 "0", .halfWidth))
    (writes_of_mem hload hr hl (.inl rfl) (by rw [getNormalizedCharacter_zero]; exact hzero)) hks
  have hstyle := change_setNumberStyle hhalf.within List.mem_cons_self
    ⟨.halfWidth, .numberSeparatedArabicHalfwidth⟩
  have hfull := change_of_writes hkey hstyle.within (f := (str, .fullWidth))
    (writes_of_mem hload hr hl (.inr rfl) hc) hks
  have hnumber := hfull.style
  rw [savedStyle, if_neg hne, hstyle.style] at hnumber
  -- the number style is still half-width, and '0' is not
  have hform := (h.number rule hr hl hzero _ hnumber (.inl rfl)).1
  have hlast := h.forms rule hr hl (utf8 "0") (by rw [getNormalizedCharacter_zero]; exact hzero)
  rw [getCharacterForm_eq hload hr hl (by rw [getNormalizedCharacter_zero]; exact hzero),
    getNormalizedCharacter_zero] at hlast
  have hset : lastSet japanese (ruleGroup japanese rule.1)
      ([(utf8 "0", .halfWidth)] ++ [(str, .fullWidth)]) = some .fullWidth :=
    lastSet_append_some (if_pos ⟨hc, .inr rfl⟩)
  have hlast : getCharacterFormFromStorage _ zero = .fullWidth :=
    hlast.trans (congrArg (fun last => last.getD .fullWidth) hset)
  exact absurd (hform.trans hlast) (by simp)

/--
**Learned forms stay synchronised exactly when '0' is written alone.**

For every list of disjoint rules, none of them skipped: after every run of calls that the storage
has room for, the promise is kept if and only if a `LAST_FORM` rule of '0' has no other character,
or so many that a number style has no room besides them.
-/
theorem forms_synchronised_iff (japanese : Japanese) (hkey : NoKeyCharacter japanese)
    (rules : List CharacterFormRule) (hload : LoadedAsWritten japanese rules) :
    (∀ calls : List FormCall, (∀ call ∈ calls, call.Agrees) →
      EnoughRoom japanese (reloadConfig japanese rules) calls →
        Synchronised japanese rules calls
          (runCalls japanese (reloadConfig japanese rules) emptyStorage calls)) ↔
      ZeroAlone japanese rules := by
  constructor
  · intro hall rule hr hl hzero
    by_contra hno
    rw [not_or, Nat.not_le] at hno
    obtain ⟨hsingle, hlen⟩ := hno
    obtain ⟨c, hc, hne⟩ := exists_mem_ne (nodup_ruleGroup _) hzero hsingle
    obtain ⟨ch, -, rfl⟩ := List.mem_map.mp (List.mem_filter.mp (mem_ruleGroup.mp hc)).1
    exact not_synchronised_halfThenFull hload hkey hr hl hzero hc hne hlen
      (hall _ agrees_halfThenFull (enoughRoom_halfThenFull hload hr hl hzero hc hlen))
  · intro hzero calls hagrees hroom
    have hks : ((calls.flatMap
        (FormCall.keys japanese (reloadConfig japanese rules))).dedup).length ≤ kLruSize := hroom
    have hlearned := learned_runCalls hload hkey (zeroApart_of_zeroAlone hkey hzero hks)
      (learned_empty hks) hagrees fun k hk => List.mem_dedup.mpr hk
    exact synchronised_of_learned hload hlearned

/-! ## Rules of the configuration -/

/-- `HalfWidthToFullWidth` of a question mark. -/
def questionMark : Japanese where
  halfWidthToFullWidth str := if str = utf8 "?" then utf8 "？" else []

theorem noKeyCharacter_questionMark : NoKeyCharacter questionMark := by
  intro str
  by_cases h : str = utf8 "?"
  · subst h
    decide +kernel
  · simp [questionMark, h, decodeUtf8]

def zeroRules : List CharacterFormRule := [(utf8 "0", .lastForm), (utf8 "?", .lastForm)]

theorem loadedAsWritten_zeroRules : LoadedAsWritten questionMark zeroRules where
  disjoint := by
    have hzero : ruleGroup questionMark (utf8 "0") = [zero] := by decide +kernel
    have hmark : ruleGroup questionMark (utf8 "?") = [0xFF1F] := by decide +kernel
    show List.Pairwise _ [_, _]
    simp [hzero, hmark, zero]
  notSkipped before rule after h := by
    rcases before with _ | ⟨first, _ | ⟨second, before⟩⟩
    · obtain ⟨rfl, -⟩ := List.cons.inj h
      decide +kernel
    · obtain ⟨hfirst, h⟩ := List.cons.inj h
      obtain ⟨rfl, -⟩ := List.cons.inj h
      rw [← hfirst]
      decide +kernel
    · obtain ⟨-, h⟩ := List.cons.inj h
      obtain ⟨-, h⟩ := List.cons.inj h
      simp at h

theorem forms_synchronised_zeroRules :
    (∀ calls : List FormCall, (∀ call ∈ calls, call.Agrees) →
      EnoughRoom questionMark (reloadConfig questionMark zeroRules) calls →
        Synchronised questionMark zeroRules calls
          (runCalls questionMark (reloadConfig questionMark zeroRules) emptyStorage calls)) ↔
      ZeroAlone questionMark zeroRules :=
  forms_synchronised_iff questionMark noKeyCharacter_questionMark zeroRules
    loadedAsWritten_zeroRules

/-- One rule for '0' and the letters. -/
def zeroLetterRules : List CharacterFormRule := [(utf8 "0A", .lastForm)]

theorem loadedAsWritten_zeroLetterRules : LoadedAsWritten questionMark zeroLetterRules where
  disjoint := List.pairwise_singleton _ _
  notSkipped before rule after h := by
    rcases before with _ | ⟨first, before⟩
    · obtain ⟨rfl, -⟩ := List.cons.inj h
      decide +kernel
    · obtain ⟨-, h⟩ := List.cons.inj h
      simp at h

theorem not_synchronised_zeroLetter :
    LoadedAsWritten questionMark zeroLetterRules ∧
      (∀ call ∈ halfThenFull (utf8 "A"), call.Agrees) ∧
      EnoughRoom questionMark (reloadConfig questionMark zeroLetterRules)
        (halfThenFull (utf8 "A")) ∧
      ¬Synchronised questionMark zeroLetterRules (halfThenFull (utf8 "A"))
        (runCalls questionMark (reloadConfig questionMark zeroLetterRules) emptyStorage
          (halfThenFull (utf8 "A"))) := by
  have hzero : zero ∈ ruleGroup questionMark (utf8 "0A") := by decide +kernel
  have hletter : getNormalizedCharacter questionMark (utf8 "A") ∈
      ruleGroup questionMark (utf8 "0A") := by decide +kernel
  have hlen : (ruleGroup questionMark (utf8 "0A")).length < kLruSize := by decide +kernel
  exact ⟨loadedAsWritten_zeroLetterRules, agrees_halfThenFull,
    enoughRoom_halfThenFull loadedAsWritten_zeroLetterRules List.mem_cons_self rfl hzero hletter
      hlen,
    not_synchronised_halfThenFull loadedAsWritten_zeroLetterRules noKeyCharacter_questionMark
      List.mem_cons_self rfl hzero hletter (by decide +kernel) hlen⟩

end Mozkey.Config
