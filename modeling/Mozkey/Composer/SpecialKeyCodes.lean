import Mozkey.Base.Utf8Encode
import Mozkey.Composer.Table
import Mozkey.Infra.Occurrences

/-!
# Codes of special keys

A registered input is the text of a sequence of bytes and special keys. Each special key has a code
of three bytes, and the first 2304 have codes of their own.

* `render_injective` — texts tell the sequences apart
-/

namespace Mozkey.Composer

open Infra Base

/-! ## Sequences of bytes and special keys -/

inductive InputSymbol where
  | byte (b : UInt8)
  | key (k : Bytes)
  deriving DecidableEq

/-- The loop of `ParseBlock` without its callback. -/
def symbolsFrom : Nat → Bytes → List InputSymbol
  | 0, _ => []
  | fuel + 1, input =>
    match findBlock input (utf8 "\x7b") (utf8 "\x7d") with
    | none => input.map .byte
    | some block =>
      let key := (input.drop (block.openPos + 1)).take (block.closePos - block.openPos - 1)
      (input.take block.openPos).map .byte ++
        (if key = utf8 "\x7b" then .byte 0x7B else .key key) ::
          symbolsFrom fuel (input.drop (block.closePos + 1))

def symbols (input : Bytes) : List InputSymbol := symbolsFrom input.length input

def render (map : SpecialKeyMap) : InputSymbol → Bytes
  | .byte b => [b]
  | .key k => (map.lookup k).getD []

theorem flatMap_render_byte (map : SpecialKeyMap) (s : Bytes) :
    (s.map InputSymbol.byte).flatMap (render map) = s := by
  induction s with
  | nil => rfl
  | cons b s ih =>
    rw [List.map_cons, List.flatMap_cons, ih]
    rfl

/-! ## Registering -/

/-- The keys are registered once, and the code of a key is counted from the first code point. -/
structure Registered (map : SpecialKeyMap) : Prop where
  nodup : (map.map (·.1)).Nodup
  code : ∀ i key code, map[i]? = some (key, code) →
    code = codepointToUtf8 (min (kSpecialKeyBegin + i) kSpecialKeyEnd)

variable {map : SpecialKeyMap}

theorem lookup_of_prefix {map' : SpecialKeyMap} {key code : Bytes} (hmap : map <+: map')
    (h : map.lookup key = some code) : map'.lookup key = some code := by
  obtain ⟨more, rfl⟩ := hmap
  rw [List.lookup_append, h, Option.some_or]

theorem lookup_eq_none_of_nodup {key : Bytes} (h : map.lookup key = none) :
    key ∉ map.map (·.1) := by
  intro hmem
  obtain ⟨entry, hentry, rfl⟩ := List.mem_map.mp hmem
  exact absurd (List.lookup_eq_none_iff.mp h entry hentry) (by simp)

theorem registerKey_spec (map : SpecialKeyMap) (key : Bytes) :
    map <+: (map.registerKey key).2 ∧
      (map.registerKey key).2.lookup key = some (map.registerKey key).1 ∧
      (Registered map → Registered (map.registerKey key).2) := by
  unfold SpecialKeyMap.registerKey
  cases hkey : map.lookup key with
  | some code => exact ⟨List.prefix_rfl, hkey, id⟩
  | none =>
    dsimp only
    refine ⟨List.prefix_append _ _, ?_, fun h => ⟨?_, ?_⟩⟩
    · rw [List.lookup_append, hkey, Option.none_or, List.lookup_cons, beq_self_eq_true]
    · rw [List.map_append, List.map_singleton, List.nodup_append]
      refine ⟨h.nodup, by simp, ?_⟩
      rintro a ha b hb rfl
      rw [List.mem_singleton.mp hb] at ha
      exact lookup_eq_none_of_nodup hkey ha
    · intro i key' code hi
      by_cases hlt : i < map.length
      · rw [List.getElem?_append_left hlt] at hi
        exact h.code i key' code hi
      · rw [List.getElem?_append_right (by omega)] at hi
        have hzero : i - map.length = 0 := by
          by_contra hne
          rw [List.getElem?_eq_none (by rw [List.length_singleton]; omega)] at hi
          cases hi
        rw [hzero, List.getElem?_cons_zero] at hi
        rw [← (Prod.mk.inj (Option.some.inj hi)).2, show i = map.length by omega]

/-- A registered text is read off the keys that are registered in the end. -/
theorem parseBlockFrom_spec : ∀ (fuel : Nat) (map : SpecialKeyMap) (input : Bytes),
    map <+: (parseBlockFrom SpecialKeyMap.registerKey fuel map input).2 ∧
      (Registered map →
        Registered (parseBlockFrom SpecialKeyMap.registerKey fuel map input).2) ∧
      ∀ map', (parseBlockFrom SpecialKeyMap.registerKey fuel map input).2 <+: map' →
        (parseBlockFrom SpecialKeyMap.registerKey fuel map input).1
            = (symbolsFrom fuel input).flatMap (render map') ∧
          ∀ k, .key k ∈ symbolsFrom fuel input → (map'.lookup k).isSome
  | 0, map, input => ⟨List.prefix_rfl, id, fun map' _ => ⟨rfl, by simp [symbolsFrom]⟩⟩
  | fuel + 1, map, input => by
    rw [parseBlockFrom, symbolsFrom]
    cases findBlock input (utf8 "\x7b") (utf8 "\x7d") with
    | none =>
      refine ⟨List.prefix_rfl, id, fun map' _ => ⟨(flatMap_render_byte map' input).symm, ?_⟩⟩
      intro k hk
      obtain ⟨b, -, hb⟩ := List.mem_map.mp hk
      cases hb
    | some block =>
      dsimp only
      generalize (input.drop (block.openPos + 1)).take (block.closePos - block.openPos - 1) = key
      generalize input.drop (block.closePos + 1) = rest
      split
      · -- an opening brace that stands for itself
        obtain ⟨hmap, hregistered, htext⟩ := parseBlockFrom_spec fuel map rest
        refine ⟨hmap, hregistered, fun map' hmap' => ?_⟩
        obtain ⟨heq, hkeys⟩ := htext map' hmap'
        constructor
        · rw [List.flatMap_append, flatMap_render_byte, List.flatMap_cons, ← heq,
            List.append_assoc]
          rfl
        · intro k hk
          rcases List.mem_append.mp hk with hk | hk
          · obtain ⟨b, -, hb⟩ := List.mem_map.mp hk
            cases hb
          · rcases List.mem_cons.mp hk with hk | hk
            · cases hk
            · exact hkeys k hk
      · obtain ⟨hfirst, hcode, hregistered₁⟩ := registerKey_spec map key
        obtain ⟨hmap, hregistered, htext⟩ :=
          parseBlockFrom_spec fuel (map.registerKey key).2 rest
        refine ⟨hfirst.trans hmap, fun h => hregistered (hregistered₁ h), fun map' hmap' => ?_⟩
        obtain ⟨heq, hkeys⟩ := htext map' hmap'
        have hlookup := lookup_of_prefix (hmap.trans hmap') hcode
        constructor
        · rw [List.flatMap_append, flatMap_render_byte, List.flatMap_cons, ← heq, render, hlookup,
            Option.getD_some, List.append_assoc]
        · intro k hk
          rcases List.mem_append.mp hk with hk | hk
          · obtain ⟨b, -, hb⟩ := List.mem_map.mp hk
            cases hb
          · rcases List.mem_cons.mp hk with hk | hk
            · simp [InputSymbol.key.inj hk, hlookup]
            · exact hkeys k hk

/-- What is registered for an input. -/
structure RegisteredAs (map : SpecialKeyMap) (escapedInput input : Bytes) : Prop where
  text : input = (symbols escapedInput).flatMap (render map)
  keys : ∀ k, .key k ∈ symbols escapedInput → (map.lookup k).isSome

theorem register_spec (map : SpecialKeyMap) (input : Bytes) :
    map <+: (map.register input).2 ∧ (Registered map → Registered (map.register input).2) ∧
      ∀ map', (map.register input).2 <+: map' →
        RegisteredAs map' input (map.register input).1 := by
  obtain ⟨hmap, hregistered, htext⟩ := parseBlockFrom_spec input.length map input
  exact ⟨hmap, hregistered, fun map' hmap' => ⟨(htext map' hmap').1, (htext map' hmap').2⟩⟩

theorem RegisteredAs.mono {map' : SpecialKeyMap} {escapedInput input : Bytes}
    (h : RegisteredAs map escapedInput input) (hmap : map <+: map') :
    RegisteredAs map' escapedInput input := by
  have hlookup : ∀ k, .key k ∈ symbols escapedInput → map'.lookup k = map.lookup k := by
    intro k hk
    obtain ⟨code, hcode⟩ := Option.isSome_iff_exists.mp (h.keys k hk)
    rw [hcode, lookup_of_prefix hmap hcode]
  refine ⟨?_, fun k hk => hlookup k hk ▸ h.keys k hk⟩
  rw [h.text]
  refine List.flatMap_congr fun symbol hsymbol => ?_
  cases symbol with
  | byte b => rfl
  | key k => rw [render, render, hlookup k hsymbol]

theorem registered_foldl : ∀ (keys : List Bytes) {map : SpecialKeyMap}, Registered map →
    Registered (keys.foldl (fun map key => (map.registerKey key).2) map)
  | [], _, h => h
  | key :: keys, map, h => registered_foldl keys ((registerKey_spec map key).2.2 h)

theorem registered_nil : Registered [] := ⟨List.nodup_nil, by simp⟩

/-! ## Telling texts apart -/

/-- The number of code points for special keys. -/
def kSpecialKeys : Nat := kSpecialKeyEnd + 1 - kSpecialKeyBegin

/-- A code point of the special keys is written out in an input. -/
def WrittenOut (symbols : List InputSymbol) : Prop :=
  ∃ b b' : UInt8, 0x80 ≤ b.toNat ∧ b.toNat ≤ 0xA3 ∧ 0x80 ≤ b'.toNat ∧ b'.toNat ≤ 0xBF ∧
    [.byte 0xEF, .byte b, .byte b'] <:+: symbols

theorem WrittenOut.cons {symbol : InputSymbol} {symbols : List InputSymbol}
    (h : WrittenOut symbols) : WrittenOut (symbol :: symbols) := by
  obtain ⟨b, b', hb, hb₁, hb', hb₁', hin⟩ := h
  exact ⟨b, b', hb, hb₁, hb', hb₁', hin.trans (List.suffix_cons _ _).isInfix⟩

theorem code_bytes {c : Nat} (hlow : kSpecialKeyBegin ≤ c) (hhigh : c ≤ kSpecialKeyEnd) :
    ∃ b b' : UInt8, codepointToUtf8 c = [0xEF, b, b'] ∧ 0x80 ≤ b.toNat ∧ b.toNat ≤ 0xA3 ∧
      0x80 ≤ b'.toNat ∧ b'.toNat ≤ 0xBF := by
  unfold kSpecialKeyBegin at hlow
  unfold kSpecialKeyEnd at hhigh
  have hlead : leading 0xE0 (c / 4096) = 0xEF := by
    rw [show c / 4096 = 15 by omega]
    rfl
  refine ⟨trailing (c / 64), trailing c, ?_, ?_⟩
  · unfold codepointToUtf8
    rw [if_neg (by omega), if_neg (by omega), if_neg (by omega), if_pos (by omega), hlead]
  · simp [trailing_toNat]
    omega

theorem codepointToUtf8_inj {c c' : Nat} (hc : 0 < c) (hc₁ : c < 0x200000) (hc' : 0 < c')
    (hc₁' : c' < 0x200000) (h : codepointToUtf8 c = codepointToUtf8 c') : c = c' := by
  have hsplit := splitFirstChar32_codepointToUtf8 hc hc₁
  rw [h, splitFirstChar32_codepointToUtf8 hc' hc₁'] at hsplit
  exact (Prod.mk.inj (Option.some.inj hsplit)).1.symm

theorem exists_index {key code : Bytes} (h : map.lookup key = some code) :
    ∃ i, i < map.length ∧ map[i]? = some (key, code) := by
  obtain ⟨front, rest, rfl, -⟩ := List.lookup_eq_some_iff.mp h
  exact ⟨front.length, by simp, by simp⟩

/-- **The first 2304 special keys have different codes.** -/
theorem Registered.code_inj (h : Registered map) (hlen : map.length ≤ kSpecialKeys)
    {key key' code : Bytes} (hkey : map.lookup key = some code)
    (hkey' : map.lookup key' = some code) : key = key' := by
  obtain ⟨i, hi, hentry⟩ := exists_index hkey
  obtain ⟨j, hj, hentry'⟩ := exists_index hkey'
  have hcode := h.code i key code hentry
  rw [h.code j key' code hentry'] at hcode
  unfold kSpecialKeys kSpecialKeyEnd kSpecialKeyBegin at hlen
  unfold kSpecialKeyEnd kSpecialKeyBegin at hcode
  have heq := codepointToUtf8_inj (by omega) (by omega) (by omega) (by omega) hcode
  obtain rfl : i = j := by omega
  rw [hentry] at hentry'
  exact (Prod.mk.inj (Option.some.inj hentry')).1

theorem Registered.bytes (h : Registered map) {k : Bytes} (hk : (map.lookup k).isSome) :
    ∃ b b' : UInt8, render map (.key k) = [0xEF, b, b'] ∧ 0x80 ≤ b.toNat ∧ b.toNat ≤ 0xA3 ∧
      0x80 ≤ b'.toNat ∧ b'.toNat ≤ 0xBF := by
  obtain ⟨code, hcode⟩ := Option.isSome_iff_exists.mp hk
  obtain ⟨i, -, hentry⟩ := exists_index hcode
  rw [render, hcode, Option.getD_some, h.code i k code hentry]
  unfold kSpecialKeyBegin kSpecialKeyEnd
  exact code_bytes (by unfold kSpecialKeyBegin; omega) (by unfold kSpecialKeyEnd; omega)

/-- Behind 0xEF, what is written out as a code is written out in the input. -/
theorem writtenOut_of_render (h : Registered map) {b b' : UInt8} {rest : Bytes}
    (hb : 0x80 ≤ b.toNat) (hb₁ : b.toNat ≤ 0xA3) (hb' : 0x80 ≤ b'.toNat) (hb₁' : b'.toNat ≤ 0xBF)
    {xs : List InputSymbol} (hkeys : ∀ k, .key k ∈ xs → (map.lookup k).isSome)
    (heq : xs.flatMap (render map) = b :: b' :: rest) : WrittenOut (.byte 0xEF :: xs) := by
  have hnot : ∀ {k tail} {c : UInt8} {more : Bytes}, c.toNat ≤ 0xBF →
      (∀ k', .key k' ∈ InputSymbol.key k :: tail → (map.lookup k').isSome) →
      (InputSymbol.key k :: tail).flatMap (render map) = c :: more → False := by
    intro k tail c more hc hsome hflat
    obtain ⟨d, d', hcode, -⟩ := h.bytes (hsome k List.mem_cons_self)
    rw [List.flatMap_cons, hcode] at hflat
    have hhead := (List.cons.inj hflat).1
    simp [← hhead] at hc
  cases xs with
  | nil => cases heq
  | cons x xs =>
    cases x with
    | key k => exact (hnot (by omega) hkeys heq).elim
    | byte c =>
      obtain ⟨rfl, hxs⟩ := List.cons.inj heq
      cases xs with
      | nil => cases hxs
      | cons y ys =>
        cases y with
        | key k =>
          exact (hnot hb₁' (fun k' hk' => hkeys k' (List.mem_cons_of_mem _ hk')) hxs).elim
        | byte c' =>
          obtain ⟨rfl, -⟩ := List.cons.inj hxs
          exact ⟨c, c', hb, hb₁, hb', hb₁', [], ys, rfl⟩

/-- **A text tells which bytes and special keys it was registered for.** -/
theorem render_injective (h : Registered map) (hlen : map.length ≤ kSpecialKeys) :
    ∀ {xs ys : List InputSymbol},
    (∀ k, .key k ∈ xs → (map.lookup k).isSome) → (∀ k, .key k ∈ ys → (map.lookup k).isSome) →
    ¬WrittenOut xs → ¬WrittenOut ys → xs.flatMap (render map) = ys.flatMap (render map) → xs = ys
  | [], [], _, _, _, _, _ => rfl
  | [], y :: ys, _, hys, _, _, heq => by
    exfalso
    cases y with
    | byte b => cases heq
    | key k =>
      obtain ⟨d, d', hcode, -⟩ := h.bytes (hys k List.mem_cons_self)
      simp [hcode] at heq
  | x :: xs, [], hxs, _, _, _, heq => by
    exfalso
    cases x with
    | byte b => cases heq
    | key k =>
      obtain ⟨d, d', hcode, -⟩ := h.bytes (hxs k List.mem_cons_self)
      simp [hcode] at heq
  | x :: xs, y :: ys, hxs, hys, hx, hy, heq => by
    have hxs' : ∀ k, .key k ∈ xs → (map.lookup k).isSome :=
      fun k hk => hxs k (List.mem_cons_of_mem _ hk)
    have hys' : ∀ k, .key k ∈ ys → (map.lookup k).isSome :=
      fun k hk => hys k (List.mem_cons_of_mem _ hk)
    have hrest : xs.flatMap (render map) = ys.flatMap (render map) → xs = ys :=
      render_injective h hlen hxs' hys' (fun hw => hx hw.cons) (fun hw => hy hw.cons)
    cases x with
    | byte b =>
      cases y with
      | byte b' =>
        rw [List.flatMap_cons, List.flatMap_cons, render, render, List.singleton_append,
          List.singleton_append] at heq
        obtain ⟨rfl, htail⟩ := List.cons.inj heq
        rw [hrest htail]
      | key k =>
        obtain ⟨d, d', hcode, hd, hd₁, hd', hd₁'⟩ := h.bytes (hys k List.mem_cons_self)
        rw [List.flatMap_cons, List.flatMap_cons, hcode, render, List.singleton_append] at heq
        obtain ⟨rfl, htail⟩ := List.cons.inj heq
        exact absurd (writtenOut_of_render h hd hd₁ hd' hd₁' hxs' htail) hx
    | key k =>
      obtain ⟨c, c', hcode, hc, hc₁, hc', hc₁'⟩ := h.bytes (hxs k List.mem_cons_self)
      cases y with
      | byte b =>
        rw [List.flatMap_cons, List.flatMap_cons, hcode, render, List.singleton_append] at heq
        obtain ⟨rfl, htail⟩ := List.cons.inj heq
        exact absurd (writtenOut_of_render h hc hc₁ hc' hc₁' hys' htail.symm) hy
      | key k' =>
        obtain ⟨d, d', hcode', -⟩ := h.bytes (hys k' List.mem_cons_self)
        obtain ⟨code, hlookup⟩ := Option.isSome_iff_exists.mp (hxs k List.mem_cons_self)
        obtain ⟨code', hlookup'⟩ := Option.isSome_iff_exists.mp (hys k' List.mem_cons_self)
        rw [List.flatMap_cons, List.flatMap_cons] at heq
        obtain ⟨hcodes, heq⟩ := List.append_inj heq (by rw [hcode, hcode']; rfl)
        rw [render, render, hlookup, hlookup', Option.getD_some, Option.getD_some] at hcodes
        rw [hrest heq, h.code_inj hlen hlookup (hcodes ▸ hlookup')]

/-! ## Inputs with the same symbols -/

/-- A symbol as it is written in an escaped input. -/
def InputSymbol.write : InputSymbol → Bytes
  | .byte b => [b]
  | .key k => utf8 "\x7b" ++ k ++ utf8 "\x7d"

/-- An opening brace is written as a key. -/
def EscapesBrace (escapedInput : Bytes) : Prop := utf8 "\x7b\x7b\x7d" <:+: escapedInput

theorem flatMap_write_byte (s : Bytes) :
    (s.map InputSymbol.byte).flatMap InputSymbol.write = s := by
  induction s with
  | nil => rfl
  | cons b s ih =>
    rw [List.map_cons, List.flatMap_cons, ih]
    rfl

/-- The text around a block, and its key. -/
theorem findBlock_split {input : Bytes} {block : Block}
    (h : findBlock input (utf8 "\x7b") (utf8 "\x7d") = some block) :
    input = input.take block.openPos ++
      (utf8 "\x7b" ++ (input.drop (block.openPos + 1)).take (block.closePos - block.openPos - 1) ++
        utf8 "\x7d" ++ input.drop (block.closePos + 1)) := by
  unfold findBlock at h
  split at h
  · cases h
  · next i hopen =>
    split at h
    · cases h
    · next j hclose =>
      rw [← Option.some.inj h]
      dsimp only
      obtain ⟨-, -, l, hi⟩ := find_some hopen
      obtain ⟨hij, -, r, hj⟩ := find_some hclose
      have hi : 0x7B :: l = input.drop i := hi
      have hj : 0x7D :: r = input.drop j := hj
      have hl : input.drop (i + 1) = l :=
        by rw [← List.drop_drop, ← hi, List.drop_succ_cons, List.drop_zero]
      have hr : input.drop (j + 1) = r :=
        by rw [← List.drop_drop, ← hj, List.drop_succ_cons, List.drop_zero]
      have hlt : i < j := by
        refine Nat.lt_of_le_of_ne hij ?_
        rintro rfl
        rw [← hi] at hj
        exact absurd (List.cons.inj hj).1 (by decide)
      have hkey : l.drop (j - i - 1) = 0x7D :: r := by
        rw [hj, ← hl, List.drop_drop]
        congr 1
        omega
      rw [hl, hr]
      show input = input.take i ++ (0x7B :: (l.take (j - i - 1) ++ [0x7D]) ++ r)
      simp [← hkey, hi]

theorem flatMap_write_symbolsFrom : ∀ {fuel : Nat} {input : Bytes}, input.length ≤ fuel →
    ¬EscapesBrace input → (symbolsFrom fuel input).flatMap InputSymbol.write = input
  | 0, input, hlen, _ => by
    rw [List.length_eq_zero_iff.mp (Nat.le_zero.mp hlen)]
    rfl
  | fuel + 1, input, hlen, h => by
    rw [symbolsFrom]
    cases hblock : findBlock input (utf8 "\x7b") (utf8 "\x7d") with
    | none => exact flatMap_write_byte input
    | some block =>
      have hsplit := findBlock_split hblock
      dsimp only
      generalize (input.drop (block.openPos + 1)).take (block.closePos - block.openPos - 1) = key
        at hsplit
      generalize input.drop (block.closePos + 1) = rest at hsplit
      rw [if_neg]
      · have hrest : rest <:+ input := by
          rw [hsplit]
          exact (List.suffix_append _ _).trans (List.suffix_append _ _)
        have hshort : rest.length ≤ fuel := by
          have hcount := congrArg List.length hsplit
          simp [show (utf8 "\x7b").length = 1 from rfl] at hcount
          omega
        rw [List.flatMap_append, flatMap_write_byte, List.flatMap_cons,
          flatMap_write_symbolsFrom hshort (fun hin => h (hin.trans hrest.isInfix))]
        exact hsplit.symm
      · rintro rfl
        refine h ⟨input.take block.openPos, rest, ?_⟩
        rw [List.append_assoc]
        exact hsplit.symm

/-- **The symbols tell which input was written, unless braces are escaped.** -/
theorem symbols_injective {input input' : Bytes} (h : ¬EscapesBrace input)
    (h' : ¬EscapesBrace input') (heq : symbols input = symbols input') : input = input' := by
  rw [← flatMap_write_symbolsFrom (Nat.le_refl _) h, ← symbols, heq]
  exact flatMap_write_symbolsFrom (Nat.le_refl _) h'

end Mozkey.Composer
