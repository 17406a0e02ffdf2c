import Mozkey.Base.Utf8Encode
import Mozkey.Composer.Table
import Mozkey.Infra.Occurrences

/-!
# Texts without special keys

What `DeleteSpecialKeys` leaves has no special keys, and neither has any part of it.
-/

namespace Mozkey.Composer

open Infra Base

/-- The bytes around the key of an unregistered special key. -/
def blockBytes : Bytes := [0x0F, 0x0E]

/-- The bytes of a code point of the private use area begin here. -/
structure SpecialAt (s : Bytes) : Prop where
  exists_bytes : ∃ b b' rest, s = 0xEF :: b :: b' :: rest ∧ 0x80 ≤ b.toNat ∧ b.toNat ≤ 0xA3

/-- No block and no code point of the private use area. -/
structure Bare (s : Bytes) : Prop where
  noBlock : ¬blockBytes.Sublist s
  noSpecial : ∀ a rest, s = a ++ rest → ¬SpecialAt rest

variable {s : Bytes}

theorem Bare.of_infix {t : Bytes} (h : Bare s) (ht : t <:+: s) : Bare t := by
  refine ⟨fun hblock => h.noBlock (hblock.trans ht.sublist), ?_⟩
  rintro a rest rfl ⟨b, b', more, rfl, hlo, hhi⟩
  obtain ⟨l, r, rfl⟩ := ht
  refine h.noSpecial (l ++ a) (0xEF :: b :: b' :: (more ++ r)) (by simp) ⟨b, b', _, rfl, hlo, hhi⟩

/-! ## Blocks -/

theorem findFrom_singleton_take {x : UInt8} : ∀ {s : Bytes} {pos p : Nat},
    findFrom [x] pos s = some p → x ∉ s.take (p - pos)
  | [], _, _, _ => by simp
  | c :: s, pos, p, h => by
    rw [findFrom] at h
    split at h
    · rw [Option.some.injEq] at h
      simp [h]
    · next hne =>
      obtain ⟨k, hk, -⟩ := findFrom_some h
      have ih := findFrom_singleton_take h
      rw [show p - pos = (p - (pos + 1)) + 1 from by omega, List.take_succ_cons, List.mem_cons,
        not_or]
      refine ⟨?_, ih⟩
      rintro rfl
      simp at hne

theorem sublist_of_append {x y : UInt8} {t : Bytes} (h : [x, y].Sublist (s ++ t)) (hs : x ∉ s) :
    [x, y].Sublist t := by
  obtain ⟨l, r, hlr, hl, hr⟩ := List.sublist_append_iff.mp h
  cases l with
  | nil => rwa [hlr]
  | cons c l =>
    rw [List.cons_append] at hlr
    rw [← (List.cons.inj hlr).1] at hl
    exact absurd (hl.subset List.mem_cons_self) hs

theorem not_sublist_of_findBlock (h : findBlock s kSpecialKeyOpen kSpecialKeyClose = none) :
    ¬blockBytes.Sublist s := by
  intro hsub
  unfold findBlock at h
  split at h
  · next hopen =>
    have hnot : ¬kSpecialKeyOpen <:+: s := by
      simp [← contains_iff, contains, hopen]
    refine hnot ?_
    obtain ⟨a, b, rfl⟩ := List.append_of_mem (hsub.subset List.mem_cons_self)
    exact ⟨a, b, by simp [kSpecialKeyOpen]⟩
  · next i hopen =>
    split at h
    · next hclose =>
      have hfirst : 0x0F ∉ s.take i := by
        unfold find at hopen
        rw [if_neg (Nat.not_lt_zero _), List.drop_zero] at hopen
        exact findFrom_singleton_take hopen
      obtain ⟨-, hi, -⟩ := find_some hopen
      rw [← List.take_append_drop i s] at hsub
      have hdrop := sublist_of_append hsub hfirst
      unfold find at hclose
      rw [if_neg (by omega)] at hclose
      have hnot : ¬kSpecialKeyClose <:+: s.drop i := by
        simp [← findFrom_isSome_iff i, hclose]
      refine hnot ?_
      obtain ⟨a, b, hab⟩ := List.append_of_mem
        (hdrop.subset (List.mem_cons_of_mem _ List.mem_cons_self))
      exact ⟨a, b, by rw [hab]; simp [kSpecialKeyClose]⟩
    · cases h

theorem findBlock_of_not_sublist (h : ¬blockBytes.Sublist s) :
    findBlock s kSpecialKeyOpen kSpecialKeyClose = none := by
  unfold findBlock
  split
  · rfl
  · next i hopen =>
    split
    · rfl
    · next j hclose =>
      exfalso
      refine h ?_
      obtain ⟨-, -, l, hi⟩ := find_some hopen
      obtain ⟨hij, -, r, hj⟩ := find_some hclose
      have hi : 0x0F :: l = s.drop i := hi
      have hj : 0x0E :: r = s.drop j := hj
      obtain ⟨k, rfl⟩ := Nat.exists_eq_add_of_le hij
      rw [← List.drop_drop, ← hi] at hj
      cases k with
      | zero =>
        rw [List.drop_zero] at hj
        exact absurd (List.cons.inj hj).1 (by decide)
      | succ k =>
        rw [List.drop_succ_cons] at hj
        refine List.Sublist.trans ?_ (List.drop_sublist i s)
        rw [← hi]
        refine List.Sublist.cons_cons _ (List.singleton_sublist.mpr ?_)
        refine List.mem_of_mem_drop (i := k) ?_
        rw [← hj]
        exact List.mem_cons_self

theorem deleteBlocksFrom_not_sublist : ∀ {fuel : Nat} {s : Bytes}, s.length ≤ fuel →
    ¬blockBytes.Sublist (deleteBlocksFrom fuel s)
  | 0, s, _ => by simp [deleteBlocksFrom, blockBytes]
  | fuel + 1, s, h => by
    rw [deleteBlocksFrom]
    split
    · next hnone => exact not_sublist_of_findBlock hnone
    · next block hblock =>
      intro hsub
      unfold findBlock at hblock
      split at hblock
      · cases hblock
      · next i hopen =>
        split at hblock
        · cases hblock
        · next j hclose =>
          rw [← Option.some.inj hblock] at hsub
          have hfirst : 0x0F ∉ s.take i := by
            unfold find at hopen
            rw [if_neg (Nat.not_lt_zero _), List.drop_zero] at hopen
            exact findFrom_singleton_take hopen
          refine deleteBlocksFrom_not_sublist ?_ (sublist_of_append hsub hfirst)
          simp
          omega

/-! ## Code points of the private use area -/

theorem leadingByte_of_special {c len : Nat} (h : splitFirstChar32 s = some (c, len))
    (hc : isSpecialKey c = true) : SpecialAt s := by
  unfold isSpecialKey kSpecialKeyBegin kSpecialKeyEnd at hc
  rw [Bool.and_eq_true, decide_eq_true_eq, decide_eq_true_eq] at hc
  cases s with
  | nil => cases h
  | cons b0 rest =>
    rw [splitFirstChar32] at h
    split at h
    · simp at h
      omega
    · split at h
      · cases h
      · next head hhead =>
        obtain ⟨-, hmin, htrail, -⟩ := sequence_some h
        obtain ⟨hlen, hall, hlo, hhi, -⟩ := trailingBytes_some htrail
        have hb0 : b0.toNat < 256 := b0.toNat_lt
        unfold sequenceHead at hhead
        split_ifs at hhead <;> rw [Option.some.injEq] at hhead <;> subst hhead <;> simp only at *
        · omega
        · -- three bytes, the first of which is 0xEF
          have hlead : b0.toNat = 0xEF := by omega
          rcases rest with _ | ⟨b, _ | ⟨b', rest⟩⟩
          · simp at hlen
          · simp at hlen
          · have hb : isUtf8TrailingByte b = true := hall b (by simp)
            have hb' : isUtf8TrailingByte b' = true := hall b' (by simp)
            simp only [trailingBytes, hb, hb', if_true, Option.some.injEq] at htrail
            simp only [isUtf8TrailingByte, Bool.and_eq_true, decide_eq_true_eq] at hb
            refine ⟨b, b', rest, ?_, hb.1, by omega⟩
            rw [show b0 = 0xEF from UInt8.toNat_inj.mp hlead]
        · omega
        · omega
        · omega

theorem special_of_leadingByte {c len : Nat} (h : splitFirstChar32 s = some (c, len))
    (hs : SpecialAt s) : isSpecialKey c = true := by
  obtain ⟨b, b', rest, rfl, hlo, hhi⟩ := hs
  have hhead : sequenceHead (0xEF : UInt8).toNat = some ⟨3, 0x800, 0xFFFF, 15⟩ := rfl
  rw [splitFirstChar32, if_neg (by decide), hhead] at h
  obtain ⟨-, -, htrail, -⟩ := sequence_some h
  simp only [Nat.reduceSub, trailingBytes] at htrail
  split at htrail
  · split at htrail
    · rw [Option.some.injEq] at htrail
      unfold isSpecialKey kSpecialKeyBegin kSpecialKeyEnd
      simp [decide_eq_true_eq]
      omega
    · cases htrail
  · cases htrail

/-- The bytes behind the first one of a character are trailing bytes. -/
theorem trailing_of_splitFirstChar32 {a : Bytes} {d : UInt8} {c len : Nat}
    (h : splitFirstChar32 (a ++ d :: s) = some (c, len)) (ha : a ≠ []) (hlen : a.length < len) :
    isUtf8TrailingByte d = true := by
  cases a with
  | nil => exact absurd rfl ha
  | cons b0 a =>
    rw [List.cons_append, splitFirstChar32] at h
    rw [List.length_cons] at hlen
    split at h
    · simp at h
      omega
    · split at h
      · cases h
      · next head _ =>
        obtain ⟨hlen', -, htrail, -⟩ := sequence_some h
        obtain ⟨-, hall, -⟩ := trailingBytes_some htrail
        refine hall d ?_
        obtain ⟨k, hk⟩ := Nat.exists_eq_add_of_lt (show a.length < head.len - 1 by omega)
        rw [hk, List.take_append, show a.length + k + 1 - a.length = k + 1 from by omega,
          List.take_succ_cons]
        exact List.mem_append_right _ List.mem_cons_self

/-- A text that is read to its end is read at the bytes of a special key. -/
theorem exists_special_of_specialAt : ∀ (n : Nat) {s a rest : Bytes}, s.length ≤ n →
    isValidUtf8 s = true → s = a ++ rest → SpecialAt rest →
    ∃ c ∈ utf8ToUtf32 s, isSpecialKey c = true
  | n, [], a, rest, _, _, hs, ⟨_, _, _, hrest, _⟩ => by
    rw [hrest] at hs
    exact absurd hs.symm (by simp)
  | 0, _ :: _, _, _, h, _, _, _ => absurd h (by simp)
  | n + 1, c0 :: s, a, rest, h, hvalid, hs, hspecial => by
    have hne : c0 :: s ≠ [] := List.cons_ne_nil c0 s
    cases hsplit : splitFirstChar32 (c0 :: s) with
    | none =>
      simp [isValidUtf8, walk_of_none hne hsplit] at hvalid
    | some token =>
      obtain ⟨c, len⟩ := token
      obtain ⟨hpos, hle, -⟩ := splitFirstChar32_some hsplit
      rw [isValidUtf8, walk_of_some hsplit hne hpos] at hvalid
      rw [utf8ToUtf32, walk_of_some hsplit hne hpos]
      by_cases ha : a = []
      · rw [hs, ha, List.nil_append] at hsplit
        exact ⟨c, List.mem_cons_self, special_of_leadingByte hsplit hspecial⟩
      · obtain ⟨b, b', more, rfl, hlo, hhi⟩ := hspecial
        by_cases hlen : a.length < len
        · rw [hs] at hsplit
          exact absurd (trailing_of_splitFirstChar32 hsplit ha hlen) (by decide)
        · have hshort : ((c0 :: s).drop len).length ≤ n := by
            rw [List.length_drop, List.length_cons]
            simp at h
            omega
          obtain ⟨c', hc', hspecial'⟩ := exists_special_of_specialAt n hshort hvalid
            (by rw [hs, List.drop_append_of_le_length (by omega)]) ⟨b, b', more, rfl, hlo, hhi⟩
          exact ⟨c', List.mem_cons_of_mem _ hc', hspecial'⟩

/-- What is decoded as a special key has its bytes. -/
theorem exists_specialAt_of_special : ∀ (n : Nat) {s : Bytes} {c : Nat}, s.length ≤ n →
    c ∈ utf8ToUtf32 s → isSpecialKey c = true → ∃ a rest, s = a ++ rest ∧ SpecialAt rest
  | _, [], _, _, hc, _ => by cases hc
  | 0, _ :: _, _, h, _, _ => absurd h (by simp)
  | n + 1, c0 :: s, c, h, hc, hspecial => by
    have hne : c0 :: s ≠ [] := List.cons_ne_nil c0 s
    cases hsplit : splitFirstChar32 (c0 :: s) with
    | none =>
      simp [utf8ToUtf32, walk_of_none hne hsplit] at hc
    | some token =>
      obtain ⟨c', len⟩ := token
      obtain ⟨hpos, hle, -⟩ := splitFirstChar32_some hsplit
      rw [utf8ToUtf32, walk_of_some hsplit hne hpos] at hc
      rcases List.mem_cons.mp hc with rfl | hc
      · exact ⟨[], _, rfl, leadingByte_of_special hsplit hspecial⟩
      · have hshort : ((c0 :: s).drop len).length ≤ n := by
          rw [List.length_drop, List.length_cons]
          simp at h
          omega
        obtain ⟨a, rest, hs, hat⟩ := exists_specialAt_of_special n hshort hc hspecial
        exact ⟨(c0 :: s).take len ++ a, rest, by
          rw [List.append_assoc, ← hs, List.take_append_drop], hat⟩

/-! ## Written out again -/

/-- The bytes of a code point: none, one of ASCII, or a leading byte and trailing bytes. The leading
byte is `0xEF` only in front of the last code points of three bytes. -/
theorem codepointToUtf8_bytes (c : Nat) : codepointToUtf8 c = [] ∨
    (c < 0x80 ∧ codepointToUtf8 c = [UInt8.ofNat c]) ∨
    ∃ b tail, codepointToUtf8 c = b :: tail ∧ 0xC0 ≤ b.toNat ∧
      (∀ d ∈ tail, isUtf8TrailingByte d = true) ∧
      (b.toNat = 0xEF → c / 4096 = 15 ∧ tail = [trailing (c / 64), trailing c]) := by
  have htail : ∀ values : List Nat, ∀ d ∈ values.map trailing, isUtf8TrailingByte d = true := by
    intro values d hd
    obtain ⟨value, -, rfl⟩ := List.mem_map.mp hd
    exact trailing_isTrailing value
  unfold codepointToUtf8
  split_ifs with h0 h1 h2 h3 h4 h5
  · exact Or.inl rfl
  · exact Or.inr (Or.inl ⟨h1, rfl⟩)
  · have hb := @leading_toNat 0xC0 (c / 64) (by omega)
    exact Or.inr (Or.inr ⟨_, _, rfl, by omega, htail [c], fun h => by omega⟩)
  · have hb := @leading_toNat 0xE0 (c / 4096) (by omega)
    exact Or.inr (Or.inr ⟨_, _, rfl, by omega, htail [c / 64, c], fun h => ⟨by omega, rfl⟩⟩)
  · have hb := @leading_toNat 0xF0 (c / 262144) (by omega)
    exact Or.inr (Or.inr ⟨_, _, rfl, by omega, htail [c / 4096, c / 64, c], fun h => by omega⟩)
  · have hb := @leading_toNat 0xF8 (c / 16777216 % 4) (by omega)
    exact Or.inr (Or.inr ⟨_, _, rfl, by omega, htail [c / 262144, c / 4096, c / 64, c],
      fun h => by omega⟩)
  · have hb := @leading_toNat 0xFC (c / 1073741824 % 2) (by omega)
    exact Or.inr (Or.inr ⟨_, _, rfl, by omega,
      htail [c / 16777216, c / 262144, c / 4096, c / 64, c], fun h => by omega⟩)

/-- The bytes of a special key begin with the bytes of no other code point. -/
theorem special_of_codepointToUtf8 {c : Nat} {rest : Bytes} (hne : codepointToUtf8 c ≠ [])
    (h : SpecialAt (codepointToUtf8 c ++ rest)) : isSpecialKey c = true := by
  obtain ⟨b, b', more, hbytes, hlo, hhi⟩ := h
  rcases codepointToUtf8_bytes c with hnil | ⟨hc, hone⟩ | ⟨b0, tail, hcons, -, -, hlast⟩
  · exact absurd hnil hne
  · rw [hone, List.singleton_append] at hbytes
    have hv := congrArg UInt8.toNat (List.cons.inj hbytes).1
    simp [show (0xEF : UInt8).toNat = 0xEF from rfl] at hv
    omega
  · rw [hcons, List.cons_append] at hbytes
    obtain ⟨hb0, htail⟩ := List.cons.inj hbytes
    obtain ⟨hhigh, htail'⟩ := hlast (by rw [hb0]; rfl)
    rw [htail', List.cons_append] at htail
    have hv := congrArg UInt8.toNat (List.cons.inj htail).1
    rw [trailing_toNat] at hv
    unfold isSpecialKey kSpecialKeyBegin kSpecialKeyEnd
    simp [decide_eq_true_eq]
    omega

theorem exists_special_of_flatMap : ∀ {cs : List Nat} {a rest : Bytes},
    cs.flatMap codepointToUtf8 = a ++ rest → SpecialAt rest → ∃ c ∈ cs, isSpecialKey c = true
  | [], a, rest, hs, ⟨_, _, _, hrest, _⟩ => by
    rw [hrest] at hs
    exact absurd hs.symm (by simp)
  | c :: cs, a, rest, hs, hspecial => by
    rw [List.flatMap_cons] at hs
    rcases List.append_eq_append_iff.mp hs with ⟨a', rfl, hcs⟩ | ⟨more, hc, rfl⟩
    · obtain ⟨c', hc', hspecial'⟩ := exists_special_of_flatMap hcs hspecial
      exact ⟨c', List.mem_cons_of_mem _ hc', hspecial'⟩
    · by_cases hmore : more = []
      · rw [hmore, List.nil_append] at hspecial
        obtain ⟨c', hc', hspecial'⟩ := @exists_special_of_flatMap cs [] _ rfl hspecial
        exact ⟨c', List.mem_cons_of_mem _ hc', hspecial'⟩
      · refine ⟨c, List.mem_cons_self, ?_⟩
        by_cases ha : a = []
        · rw [ha, List.nil_append] at hc
          rw [← hc] at hspecial hmore
          exact special_of_codepointToUtf8 hmore hspecial
        · -- a special key does not begin with a trailing byte
          obtain ⟨b, b', rest, hbytes, -⟩ := hspecial
          obtain ⟨m, more, rfl⟩ := List.exists_cons_of_ne_nil hmore
          obtain ⟨a0, a, rfl⟩ := List.exists_cons_of_ne_nil ha
          rcases codepointToUtf8_bytes c with hnil | ⟨-, hone⟩ | ⟨b0, tail, hcons, -, htail, -⟩
          · rw [hnil] at hc
            simp at hc
          · rw [hone] at hc
            simp at hc
          · rw [hcons, List.cons_append] at hc
            have hm := htail m (by rw [(List.cons.inj hc).2]; simp)
            rw [(List.cons.inj hbytes).1] at hm
            exact absurd hm (by decide)

/-- Bytes of ASCII among those of the code points are code points. -/
theorem sublist_of_flatMap : ∀ {cs : List Nat} {l : Bytes}, (∀ b ∈ l, b.toNat < 0x80) →
    l.Sublist (cs.flatMap codepointToUtf8) → (l.map UInt8.toNat).Sublist cs
  | [], l, _, h => by
    rw [List.flatMap_nil, List.sublist_nil] at h
    rw [h]
    exact List.Sublist.slnil
  | c :: cs, l, hascii, h => by
    rw [List.flatMap_cons] at h
    obtain ⟨l1, l2, rfl, hl1, hl2⟩ := List.sublist_append_iff.mp h
    have ih := sublist_of_flatMap (fun b hb => hascii b (List.mem_append_right _ hb)) hl2
    have hone : l1 = [] ∨ l1.map UInt8.toNat = [c] := by
      rcases codepointToUtf8_bytes c with hnil | ⟨hc, hone⟩ | ⟨b0, tail, hcons, hlead, htail, -⟩
      · rw [hnil, List.sublist_nil] at hl1
        exact Or.inl hl1
      · rw [hone] at hl1
        rcases List.sublist_singleton.mp hl1 with rfl | rfl
        · exact Or.inl rfl
        · refine Or.inr ?_
          rw [List.map_singleton, UInt8.toNat_ofNat', Nat.mod_eq_of_lt (by omega)]
      · refine Or.inl (List.eq_nil_iff_forall_not_mem.mpr fun b hb => ?_)
        have hlow := hascii b (List.mem_append_left _ hb)
        have hmem := hl1.subset hb
        rw [hcons, List.mem_cons] at hmem
        rcases hmem with rfl | hmem
        · omega
        · have htrailing := htail b hmem
          simp [isUtf8TrailingByte, decide_eq_true_eq] at htrailing
          omega
    rcases hone with rfl | hone
    · exact ih.cons c
    · simpa [hone] using ih.cons_cons c

theorem ascii_of_splitFirstChar32 {b : UInt8} {c len : Nat}
    (h : splitFirstChar32 (b :: s) = some (c, len)) (hc : c < 0x80) : b.toNat = c ∧ len = 1 := by
  rw [splitFirstChar32] at h
  split at h
  · rw [Option.some.injEq, Prod.mk.injEq] at h
    exact ⟨h.1, h.2.symm⟩
  · split at h
    · cases h
    · next head hhead =>
      obtain ⟨-, hmin, -⟩ := sequence_some h
      unfold sequenceHead at hhead
      split_ifs at hhead <;> rw [Option.some.injEq] at hhead <;> subst hhead <;>
        simp only at hmin <;> omega

/-- Code points of ASCII that are read are bytes. -/
theorem sublist_of_utf8ToUtf32 : ∀ (n : Nat) {s l : Bytes}, s.length ≤ n →
    (∀ b ∈ l, b.toNat < 0x80) → (l.map UInt8.toNat).Sublist (utf8ToUtf32 s) → l.Sublist s
  | _, [], l, _, _, h => by
    rw [show utf8ToUtf32 [] = [] from rfl, List.sublist_nil, List.map_eq_nil_iff] at h
    rw [h]
  | 0, _ :: _, _, hn, _, _ => absurd hn (by simp)
  | n + 1, c0 :: s, l, hn, hascii, h => by
    have hne : c0 :: s ≠ [] := List.cons_ne_nil c0 s
    cases hsplit : splitFirstChar32 (c0 :: s) with
    | none =>
      rw [utf8ToUtf32, walk_of_none hne hsplit, List.sublist_nil, List.map_eq_nil_iff] at h
      rw [h]
      exact List.nil_sublist _
    | some token =>
      obtain ⟨c, len⟩ := token
      obtain ⟨hpos, hle, -⟩ := splitFirstChar32_some hsplit
      rw [utf8ToUtf32, walk_of_some hsplit hne hpos] at h
      have hshort : ((c0 :: s).drop len).length ≤ n := by
        rw [List.length_drop, List.length_cons]
        simp at hn
        omega
      rcases List.sublist_cons_iff.mp h with h | ⟨r, hl, h⟩
      · exact (sublist_of_utf8ToUtf32 n hshort hascii h).trans (List.drop_sublist _ _)
      · cases l with
        | nil => cases hl
        | cons b l =>
          rw [List.map_cons] at hl
          obtain ⟨hb, rfl⟩ := List.cons.inj hl
          have hlow := hascii b List.mem_cons_self
          obtain ⟨hc0, rfl⟩ := ascii_of_splitFirstChar32 hsplit (by omega)
          rw [show b = c0 from UInt8.toNat_inj.mp (hb.trans hc0.symm)]
          refine List.Sublist.cons_cons c0 (sublist_of_utf8ToUtf32 n hshort ?_ h)
          exact fun d hd => hascii d (List.mem_cons_of_mem b hd)

/-! ## Deleting -/

theorem deleteSpecialKeys_of_bare (h : Bare s) : deleteSpecialKeys s = s := by
  have hblocks : deleteBlocksFrom s.length s = s := by
    cases s with
    | nil => rfl
    | cons c s => rw [List.length_cons, deleteBlocksFrom, findBlock_of_not_sublist h.noBlock]
  unfold deleteSpecialKeys
  dsimp only
  rw [hblocks, if_neg]
  rw [List.any_eq_true]
  rintro ⟨c, hc, hspecial⟩
  obtain ⟨a, rest, hs, hat⟩ := exists_specialAt_of_special _ (Nat.le_refl _) hc hspecial
  exact h.noSpecial a rest hs hat

theorem bare_deleteSpecialKeys (h : isValidUtf8 (deleteSpecialKeys s) = true) :
    Bare (deleteSpecialKeys s) := by
  have hblocks := @deleteBlocksFrom_not_sublist s.length s (Nat.le_refl _)
  unfold deleteSpecialKeys at h ⊢
  dsimp only at h ⊢
  generalize deleteBlocksFrom s.length s = output at h hblocks ⊢
  split at h
  · next hany =>
    rw [if_pos hany]
    refine ⟨fun hblock => hblocks ?_, fun a rest hs hat => ?_⟩
    · have hascii : ∀ b ∈ blockBytes, b.toNat < 0x80 := by decide +kernel
      exact sublist_of_utf8ToUtf32 _ (Nat.le_refl _) hascii
        ((sublist_of_flatMap hascii hblock).trans List.filter_sublist)
    · obtain ⟨c, hc, hspecial⟩ := exists_special_of_flatMap hs hat
      rw [List.mem_filter, hspecial] at hc
      cases hc.2
  · next hany =>
    rw [if_neg hany]
    refine ⟨hblocks, fun a rest hs hat => hany ?_⟩
    simpa using exists_special_of_specialAt _ (Nat.le_refl _) h hs hat

end Mozkey.Composer
