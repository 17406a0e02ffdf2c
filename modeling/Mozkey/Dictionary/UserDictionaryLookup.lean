import Mozkey.Base.Utf8Front
import Mozkey.Dictionary.SuppressionAtomicity
import Mozkey.Infra.LowerBound

/-!
# Looking up the user dictionary

`dictionary/user_dictionary.cc` and `dictionary/user_pos.cc`: the tokens of the loaded entries, and
the three lookups, which halve the sorted tokens with an order of their own each.

The conversions, the conjugations and the costs of the parts of speech are data. A load that was
canceled is left out: only the destructor cancels it.

* `lookups_exact` — a lookup reports the loaded tokens that are asked for, once and in order
-/

namespace Mozkey.Dictionary

open Infra Base

/-! ## Tokens -/

/-- `UserPos::Token`, but its comment. -/
structure UserPosToken where
  key : Bytes
  value : Bytes
  id : Nat
  attributes : Nat
  posType : PosType
  deriving DecidableEq

/-- The suffixes and the id of a form, by their places in the string array. -/
structure ConjugationForm where
  keySuffix : Bytes
  valueSuffix : Bytes
  conjugationId : Nat

/-- The forms of a part of speech, and its cost, 0 when it has none. -/
structure UserPos where
  tokenArrayIndex : PosType → List ConjugationForm
  cost : PosType → Nat

def kNonJaLocale : Nat := 1

/-- `UserPos::GetTokens` -/
def UserPos.getTokens (userPos : UserPos) (key value : Bytes) (posType : PosType)
    (locale : Bytes) : List UserPosToken :=
  if key.isEmpty || value.isEmpty then []
  else
    let isNonJaLocale := !locale.isEmpty && !(utf8 "ja").isPrefixOf locale
    let attributes := if isNonJaLocale then kNonJaLocale else 0
    match userPos.tokenArrayIndex posType with
    | [] => []
    | [form] => [⟨key, value, form.conjugationId, attributes, posType⟩]
    | base :: forms =>
      let hasStem := base.keySuffix.length < key.length && base.valueSuffix.length < value.length &&
        base.keySuffix.isSuffixOf key && base.valueSuffix.isSuffixOf value
      let keyStem := if hasStem then key.take (key.length - base.keySuffix.length) else key
      let valueStem :=
        if hasStem then value.take (value.length - base.valueSuffix.length) else value
      (base :: forms).map fun form =>
        ⟨keyStem ++ form.keySuffix, valueStem ++ form.valueSuffix, form.conjugationId, attributes,
          posType⟩

/-- `OrderByKeyThenById` -/
def orderByKeyThenById (a b : UserPosToken) : Bool :=
  if a.key = b.key then a.id < b.id else decide (a.key < b.key)

/-- One round of the loop of `TokensIndex::Load`, with the fingerprints that were seen. -/
def Services.loadTokensOf (services : Services) (userPos : UserPos)
    (s : List UInt64 × List UserPosToken) (entry : Entry) : List UInt64 × List UserPosToken :=
  if !(validateEntry entry).isOk then s
  else if services.entryFingerprint entry ∈ s.1 then s
  else
    (services.entryFingerprint entry :: s.1,
      if entry.pos = .suppressionWord then s.2
      else s.2 ++ userPos.getTokens (services.readingOf entry.key) entry.value entry.pos [])

/-- The tokens before they are sorted. -/
def Services.loadTokens (services : Services) (userPos : UserPos) (storage : Storage) :
    List UserPosToken :=
  (storage.entries.foldl (services.loadTokensOf userPos) ([], [])).2

/-- Sorted tokens. `std::sort` leaves tokens of the same key and id in any order. -/
structure TokensIndex where
  tokens : List UserPosToken
  sorted : tokens.Pairwise fun a b => orderByKeyThenById b a = false
  costPenalty : Int

def TokensIndex.IsLoaded (index : TokensIndex) (services : Services) (userPos : UserPos)
    (storage : Storage) : Prop :=
  index.tokens.Perm (services.loadTokens userPos storage)

/-! ## What is reported -/

/-- `dictionary::Token` -/
structure Token where
  key : Bytes
  value : Bytes
  cost : Int
  lid : Nat
  rid : Nat
  attributes : Nat
  deriving DecidableEq

inductive RequestType where
  | prefixLookup
  | predictive
  | exact
  deriving DecidableEq

inductive ResultType where
  | traverseDone
  | traverseNextKey
  | traverseCull
  | traverseContinue

/-- `Callback`, with the state that it changes. -/
structure Callback (σ : Type) where
  onKey : Bytes → σ → ResultType × σ
  onActualKey : Bytes → Bytes → Int → σ → ResultType × σ
  onToken : Bytes → Bytes → Token → σ → ResultType × σ

def kUserDictionary : Nat := 2 ^ 7
def kEmoticon : Nat := 2 ^ 2
def kDefaultCost : Nat := 5000

/-- `GetCostFromPosType`, an `uint16_t`. -/
def UserPos.getCostFromPosType (userPos : UserPos) (posType : PosType) (costPenalty : Int) : Int :=
  let cost := userPos.cost posType
  if cost = 0 then kDefaultCost else (cost + costPenalty) % 2 ^ 16

/-- The dictionary, with the tokens that a lookup works on. -/
structure LoadedUserDictionary where
  userPos : UserPos
  unknownId : Nat
  index : TokensIndex

namespace LoadedUserDictionary

variable (dictionary : LoadedUserDictionary)

def populateTokenFromUserPosToken (token : UserPosToken) (requestType : RequestType) : Token :=
  let id := if token.posType = .suggestionOnly then dictionary.unknownId else token.id
  let cost :=
    if token.attributes &&& kNonJaLocale ≠ 0 then 10000
    else dictionary.userPos.getCostFromPosType token.posType dictionary.index.costPenalty
  let penalty :=
    if token.posType = .noPos ∧ (requestType = .prefixLookup ∨ requestType = .exact) then
      (4 - min 4 (splitStringToUtf8Chars token.key).length) * 2000
    else 0
  { key := token.key
    value := token.value
    cost := cost + penalty
    lid := id
    rid := id
    attributes := if token.posType = .emoticon then kUserDictionary + kEmoticon
      else kUserDictionary }

/-! ## The three lookups -/

section Lookups

variable {σ : Type} (callback : Callback σ)

def predictiveLoop : List UserPosToken → σ → σ
  | [], s => s
  | token :: rest, s =>
    match callback.onKey token.key s with
    | (.traverseDone, s) => s
    | (.traverseNextKey, s) => predictiveLoop rest s
    | (.traverseCull, s) => predictiveLoop rest s
    | (.traverseContinue, s) =>
      match callback.onActualKey token.key token.key 0 s with
      | (.traverseDone, s) => s
      | (_, s) =>
        match callback.onToken token.key token.key
          (dictionary.populateTokenFromUserPosToken token .predictive) s with
        | (.traverseDone, s) => s
        | (_, s) => predictiveLoop rest s

def lookupPredictive (key : Bytes) (s : σ) : σ :=
  if key.isEmpty then s
  else
    dictionary.predictiveLoop callback
      (equalRange (fun token => decide (token.key.take key.length < key))
        (fun token => decide (key < token.key.take key.length)) dictionary.index.tokens) s

/-- `Utf8AsChars(key).front()` -/
def frontChar (key : Bytes) : Bytes :=
  match decodeUtf8 key with
  | none => []
  | some (_, len) => key.take len

/-- None where the program aborts: it does not support culling. -/
def prefixLoop (key : Bytes) : List UserPosToken → σ → Option σ
  | [], s => some s
  | token :: rest, s =>
    if key < token.key then some s
    else if token.posType = .suggestionOnly then prefixLoop key rest s
    else if !token.key.isPrefixOf key then prefixLoop key rest s
    else
      match callback.onKey token.key s with
      | (.traverseDone, s) => some s
      | (.traverseNextKey, s) => prefixLoop key rest s
      | (.traverseCull, _) => none
      | (.traverseContinue, s) =>
        match callback.onActualKey token.key token.key 0 s with
        | (.traverseDone, s) => some s
        | (_, s) =>
          match callback.onToken token.key token.key
            (dictionary.populateTokenFromUserPosToken token .prefixLookup) s with
          | (.traverseDone, s) => some s
          | (.traverseCull, _) => none
          | (_, s) => prefixLoop key rest s

def lookupPrefix (key : Bytes) (s : σ) : Option σ :=
  if key.isEmpty then some s
  else
    let firstChar := frontChar key
    let tokens := dictionary.index.tokens
    dictionary.prefixLoop callback key
      (tokens.drop (partitionPoint (fun token => decide (token.key < firstChar)) tokens)) s

def exactLoop (key : Bytes) : List UserPosToken → σ → σ
  | [], s => s
  | token :: rest, s =>
    if token.posType = .suggestionOnly then exactLoop key rest s
    else
      match callback.onToken key key (dictionary.populateTokenFromUserPosToken token .exact) s with
      | (.traverseContinue, s) => exactLoop key rest s
      | (_, s) => s

def lookupExact (key : Bytes) (s : σ) : σ :=
  if key.isEmpty then s
  else
    match equalRange (fun token => decide (token.key < key)) (fun token => decide (key < token.key))
      dictionary.index.tokens with
    | [] => s
    | range =>
      match callback.onKey key s with
      | (.traverseContinue, s) =>
        match callback.onActualKey key key 0 s with
        | (.traverseContinue, s) => dictionary.exactLoop callback key range s
        | (_, s) => s
      | (_, s) => s

end Lookups

end LoadedUserDictionary

/-! ## The order of keys -/

section Keys

variable {a b k : Bytes}

theorem take_le_take : ∀ {a b : Bytes} (n : Nat), a ≤ b → a.take n ≤ b.take n
  | _, _, 0, _ => by
    simp
  | [], _, n + 1, _ => by
    simp
  | c :: a, [], n + 1, h => absurd (List.le_nil.mp h) (List.cons_ne_nil c a)
  | c :: a, d :: b, n + 1, h => by
    rw [List.take_succ_cons, List.take_succ_cons]
    rw [List.cons_le_cons_iff] at h ⊢
    exact h.imp id fun hrest => ⟨hrest.1, take_le_take n hrest.2⟩

theorem eq_iff_not_lt : (!decide (a < b) && !decide (b < a)) = true ↔ a = b := by
  rw [Bool.and_eq_true, Bool.not_eq_true', Bool.not_eq_true', decide_eq_false_iff_not,
    decide_eq_false_iff_not]
  constructor
  · rintro ⟨hab, hba⟩
    exact List.le_antisymm hba hab
  · rintro rfl
    exact ⟨List.lt_irrefl _, List.lt_irrefl _⟩

/-- The tokens in the order of their keys. -/
def KeysSorted (tokens : List UserPosToken) : Prop := tokens.Pairwise fun a b => a.key ≤ b.key

theorem TokensIndex.keysSorted (index : TokensIndex) : KeysSorted index.tokens := by
  refine index.sorted.imp fun {a b} h => ?_
  unfold orderByKeyThenById at h
  split at h
  · next heq => rw [heq]; exact List.le_refl _
  · rwa [decide_eq_false_iff_not] at h

variable {tokens : List UserPosToken} {f : Bytes → Bytes}

theorem KeysSorted.partitioned_below (h : KeysSorted tokens) (hf : ∀ {a b}, a ≤ b → f a ≤ f b)
    (k : Bytes) : Partitioned (fun token => decide (f token.key < k)) tokens := by
  refine h.imp fun hle hlt => ?_
  rw [decide_eq_true_eq] at hlt ⊢
  exact List.lt_of_le_of_lt (hf hle) hlt

theorem KeysSorted.partitioned_above (h : KeysSorted tokens) (hf : ∀ {a b}, a ≤ b → f a ≤ f b)
    (k : Bytes) : Partitioned (fun token => !decide (k < f token.key)) tokens := by
  refine h.imp fun hle hnot => ?_
  rw [Bool.not_eq_true', decide_eq_false_iff_not] at hnot ⊢
  exact List.le_trans (hf hle) (List.not_lt.mp hnot)

/-- The range of a key, when the keys are cut in an orderly way. -/
theorem KeysSorted.equalRange_eq (h : KeysSorted tokens) (hf : ∀ {a b}, a ≤ b → f a ≤ f b)
    (k : Bytes) : equalRange (fun token => decide (f token.key < k))
      (fun token => decide (k < f token.key)) tokens =
        tokens.filter fun token => f token.key = k := by
  rw [Infra.equalRange_eq (h.partitioned_below hf k) (h.partitioned_above hf k)]
  · refine List.filter_congr fun token _ => ?_
    rw [Bool.eq_iff_iff, eq_iff_not_lt, decide_eq_true_eq]
  · intro token _ hlt
    rw [decide_eq_true_eq] at hlt
    exact decide_eq_false (List.lt_asymm hlt)

end Keys

/-! ## A callback that always continues -/

variable {σ : Type}

structure Callback.AlwaysContinues (callback : Callback σ) : Prop where
  onKey : ∀ key s, (callback.onKey key s).1 = .traverseContinue
  onActualKey : ∀ key actualKey numExpanded s,
    (callback.onActualKey key actualKey numExpanded s).1 = .traverseContinue
  onToken : ∀ key actualKey token s,
    (callback.onToken key actualKey token s).1 = .traverseContinue

/-- The key is reported, as it was asked for. -/
def Callback.reportKey (callback : Callback σ) (key : Bytes) (s : σ) : σ :=
  (callback.onActualKey key key 0 (callback.onKey key s).2).2

def Callback.reportToken (callback : Callback σ) (key : Bytes) (token : Token) (s : σ) : σ :=
  (callback.onToken key key token s).2

namespace LoadedUserDictionary

variable {dictionary : LoadedUserDictionary} {callback : Callback σ}

/-- A token is reported with its key. -/
def reportAlone (dictionary : LoadedUserDictionary) (callback : Callback σ)
    (requestType : RequestType) (s : σ) (token : UserPosToken) : σ :=
  callback.reportToken token.key (dictionary.populateTokenFromUserPosToken token requestType)
    (callback.reportKey token.key s)

/-- A token is reported for a key that was reported before. -/
def reportExact (dictionary : LoadedUserDictionary) (callback : Callback σ) (key : Bytes) (s : σ)
    (token : UserPosToken) : σ :=
  callback.reportToken key (dictionary.populateTokenFromUserPosToken token .exact) s

theorem predictiveLoop_eq (h : callback.AlwaysContinues) :
    ∀ (tokens : List UserPosToken) (s : σ), dictionary.predictiveLoop callback tokens s =
      tokens.foldl (dictionary.reportAlone callback .predictive) s
  | [], _ => rfl
  | token :: rest, s => by
    have hkey := h.onKey token.key s
    rw [List.foldl_cons, ← predictiveLoop_eq h rest, predictiveLoop, reportAlone,
      Callback.reportToken, Callback.reportKey]
    split
    · next heq => rw [heq] at hkey; cases hkey
    · next heq => rw [heq] at hkey; cases hkey
    · next heq => rw [heq] at hkey; cases hkey
    · next s₁ heq =>
      rw [heq]
      have hactual := h.onActualKey token.key token.key 0 s₁
      split
      · next heq => rw [heq] at hactual; cases hactual
      · next s₂ _ heq =>
        rw [heq]
        have htoken := h.onToken token.key token.key
          (dictionary.populateTokenFromUserPosToken token .predictive) s₂
        split
        · next heq => rw [heq] at htoken; cases htoken
        · next heq => rw [heq]

theorem exactLoop_eq (h : callback.AlwaysContinues) (key : Bytes) :
    ∀ (tokens : List UserPosToken) (s : σ), dictionary.exactLoop callback key tokens s =
      (tokens.filter fun token => token.posType ≠ .suggestionOnly).foldl
        (dictionary.reportExact callback key) s
  | [], _ => rfl
  | token :: rest, s => by
    rw [exactLoop, List.filter_cons]
    by_cases hpos : token.posType = .suggestionOnly
    · rw [if_pos hpos, if_neg (by simpa using hpos), exactLoop_eq h key rest]
    · have htoken := h.onToken key key (dictionary.populateTokenFromUserPosToken token .exact) s
      rw [if_neg hpos, if_pos (by simpa using hpos), List.foldl_cons, ← exactLoop_eq h key rest,
        reportExact, Callback.reportToken]
      split
      · next heq => rw [heq]
      · next hne heq =>
        rw [heq] at htoken
        exact absurd htoken hne

/-- Behind a key that is greater there is no prefix. -/
theorem prefixLoop_eq (h : callback.AlwaysContinues) (key : Bytes) :
    ∀ {tokens : List UserPosToken} (s : σ), KeysSorted tokens →
      dictionary.prefixLoop callback key tokens s =
        some ((tokens.filter fun token =>
          token.key <+: key ∧ token.posType ≠ .suggestionOnly).foldl
            (dictionary.reportAlone callback .prefixLookup) s)
  | [], _, _ => rfl
  | token :: rest, s, hsorted => by
    obtain ⟨hfirst, hrest⟩ := List.pairwise_cons.mp hsorted
    rw [prefixLoop]
    split
    · next hlt =>
      rw [List.filter_eq_nil_iff.mpr]
      · rfl
      · intro other hother hstarts
        rw [decide_eq_true_eq] at hstarts
        obtain rfl | hmem := List.mem_cons.mp hother
        · exact hstarts.1.le hlt
        · exact List.le_trans (hfirst other hmem) hstarts.1.le hlt
    · rw [List.filter_cons]
      by_cases hpos : token.posType = .suggestionOnly
      · rw [if_pos hpos, if_neg (by simp [hpos]), prefixLoop_eq h key _ hrest]
      · rw [if_neg hpos]
        by_cases hstarts : token.key <+: key
        · rw [if_neg (by simpa using hstarts), if_pos (by simp [hpos, hstarts]), List.foldl_cons,
            ← prefixLoop_eq h key _ hrest, reportAlone, Callback.reportToken, Callback.reportKey]
          have hkey := h.onKey token.key s
          split
          · next heq => rw [heq] at hkey; cases hkey
          · next heq => rw [heq] at hkey; cases hkey
          · next heq => rw [heq] at hkey; cases hkey
          · next s₁ heq =>
            rw [heq]
            have hactual := h.onActualKey token.key token.key 0 s₁
            split
            · next heq => rw [heq] at hactual; cases hactual
            · next s₂ _ heq =>
              rw [heq]
              have htoken := h.onToken token.key token.key
                (dictionary.populateTokenFromUserPosToken token .prefixLookup) s₂
              split
              · next heq => rw [heq] at htoken; cases htoken
              · next heq => rw [heq] at htoken; cases htoken
              · next heq => rw [heq]
        · rw [if_pos
            (by rwa [Bool.not_eq_true', Bool.eq_false_iff, ne_eq, List.isPrefixOf_iff_prefix]),
            if_neg (by simp [hstarts]),
            prefixLoop_eq h key _ hrest]

end LoadedUserDictionary

/-! ## First characters -/

section FirstChar

variable {s stem suffix key : Bytes}

/-- The first character is there as a whole. -/
def HasFirstChar (s : Bytes) : Prop := ∃ c len, splitFirstChar32 s = some (c, len)

theorem hasFirstChar_of_valid (h : isValidUtf8 s = true) (hne : s ≠ []) : HasFirstChar s := by
  cases hs : splitFirstChar32 s with
  | some token => exact ⟨token.1, token.2, hs⟩
  | none =>
    rw [isValidUtf8, walk_of_none hne hs, List.isEmpty_iff] at h
    exact absurd h hne

theorem HasFirstChar.append (h : HasFirstChar s) (rest : Bytes) : HasFirstChar (s ++ rest) := by
  obtain ⟨c, len, hs⟩ := h
  exact ⟨c, len, (splitFirstChar32_local _ _ _ hs).2.2 rest⟩

/-- Behind its first byte a character has trailing bytes only. -/
theorem trailing_of_splitFirstChar32 {c : UInt8} {rest : Bytes} {cp len : Nat}
    (h : splitFirstChar32 (c :: rest) = some (cp, len)) :
    ∀ b ∈ rest.take (len - 1), isUtf8TrailingByte b = true := by
  rw [splitFirstChar32] at h
  split at h
  · rw [Option.some.injEq, Prod.mk.injEq] at h
    rw [← h.2]
    exact fun b hb => absurd hb List.not_mem_nil
  · split at h
    · cases h
    · obtain ⟨rfl, -, htrail, -⟩ := sequence_some h
      exact (trailingBytes_some htrail).2.1

/-- No text begins with a trailing byte. -/
theorem HasFirstChar.not_trailing {c : UInt8} {rest : Bytes} (h : HasFirstChar (c :: rest)) :
    isUtf8TrailingByte c = false := by
  obtain ⟨cp, len, hs⟩ := h
  rw [Bool.eq_false_iff]
  intro htrailing
  rw [isUtf8TrailingByte, Bool.and_eq_true, decide_eq_true_eq, decide_eq_true_eq] at htrailing
  rw [splitFirstChar32, if_neg (by omega), sequenceHead, if_pos htrailing.2] at hs
  cases hs

/-- A valid ending is not cut out of the first character. -/
theorem hasFirstChar_stem (h : isValidUtf8 (stem ++ suffix) = true)
    (hsuffix : isValidUtf8 suffix = true) (hne : stem ≠ []) : HasFirstChar stem := by
  obtain ⟨cp, len, hs⟩ := hasFirstChar_of_valid h (by simp [hne])
  obtain ⟨hpos, hlen, hmore⟩ := splitFirstChar32_some hs
  by_cases hin : len ≤ stem.length
  · have hstem := hmore (stem.drop len)
    rw [List.take_append_of_le_length hin, List.take_append_drop] at hstem
    exact ⟨cp, len, hstem⟩
  · exfalso
    cases suffix with
    | nil =>
      rw [List.append_nil] at hlen
      exact hin hlen
    | cons d suffix =>
      cases stem with
      | nil => exact hne rfl
      | cons c stem =>
        rw [List.length_cons] at hin
        rw [List.cons_append] at hs
        have htrailing : isUtf8TrailingByte d = true := by
          refine trailing_of_splitFirstChar32 hs d ?_
          rw [List.take_append, List.mem_append]
          obtain ⟨n, hn⟩ : ∃ n, len - 1 - stem.length = n + 1 :=
            ⟨len - 1 - stem.length - 1, by omega⟩
          simp [hn]
        have hstart := (hasFirstChar_of_valid hsuffix (List.cons_ne_nil _ _)).not_trailing
        simp [htrailing] at hstart

theorem decodeUtf8_le_oneCharLen {c : UInt8} {rest : Bytes} {cp len : Nat}
    (hlong : oneCharLen c ≤ rest.length + 1) (h : decodeUtf8 (c :: rest) = some (cp, len)) :
    len ≤ oneCharLen c := by
  have hone := oneCharLen_le c
  rw [decodeUtf8] at h
  dsimp only at h
  split at h
  · simp at h
    omega
  · rw [if_neg (by omega)] at h
    split_ifs at h with h3 h2 h4
    · have hlen := @decodeSequence_len 3 0x10 c rest (by omega) (by omega)
      rw [Option.some.injEq] at h
      rw [h] at hlen
      omega
    · have hlen := @decodeSequence_len 2 0x20 c rest (by omega) (by omega)
      rw [Option.some.injEq] at h
      rw [h] at hlen
      omega
    · have hlen := @decodeSequence_len 4 0x08 c rest (by omega) (by omega)
      rw [Option.some.injEq] at h
      rw [h] at hlen
      omega
    · simp at h
      omega

/-- What is taken for the first character of a text is in front of every text that begins with
it. -/
theorem frontChar_le (hkey : IsUnicode key) (hs : HasFirstChar s) (hstarts : s <+: key) :
    LoadedUserDictionary.frontChar key ≤ s := by
  obtain ⟨cp, len, hsplit⟩ := hs
  have hne : s ≠ [] := by
    rintro rfl
    cases hsplit
  have hkeyne : key ≠ [] := by
    rintro rfl
    exact hne (List.prefix_nil.mp hstarts)
  obtain ⟨u, rest, rfl, hu, -⟩ := hkey.exists_first hkeyne
  obtain ⟨more, hmore⟩ := hstarts
  obtain ⟨-, hlen, hlocal⟩ := splitFirstChar32_local _ _ _ hsplit
  obtain ⟨cp', -, hfirst⟩ := hu.split
  have hwhole : len = u.length := by
    have hboth := hlocal more
    rw [hmore, hfirst rest, Option.some.injEq, Prod.mk.injEq] at hboth
    exact hboth.2.symm
  have hus : u <+: s :=
    List.prefix_of_prefix_length_le (List.prefix_append u rest) ⟨more, hmore⟩ (by omega)
  refine (List.IsPrefix.trans ?_ hus).le
  obtain ⟨c, tail, rfl, hone, -⟩ := hu.bytes
  unfold LoadedUserDictionary.frontChar
  split
  · exact List.nil_prefix
  · next hdecode =>
    have hlong : oneCharLen c ≤ (tail ++ rest).length + 1 := by
      rw [hone, List.length_append, List.length_cons]
      omega
    have hle := decodeUtf8_le_oneCharLen hlong hdecode
    rw [hone] at hle
    rw [List.take_append_of_le_length hle]
    exact List.take_prefix _ _

end FirstChar

/-! ## Loaded tokens -/

/-- The conversions make texts of texts. -/
structure Japanese.KeepsUtf8 (japanese : Japanese) : Prop where
  fullWidthAsciiToHalfWidthAscii : ∀ s, isValidUtf8 s = true →
    isValidUtf8 (japanese.fullWidthAsciiToHalfWidthAscii s) = true
  halfWidthKatakanaToFullWidthKatakana : ∀ s, isValidUtf8 s = true →
    isValidUtf8 (japanese.halfWidthKatakanaToFullWidthKatakana s) = true
  katakanaToHiragana : ∀ s, isValidUtf8 s = true →
    isValidUtf8 (japanese.katakanaToHiragana s) = true
  normalizeVoicedSoundMark : ∀ s, isValidUtf8 s = true →
    isValidUtf8 (japanese.normalizeVoicedSoundMark s) = true

/-- The suffixes of the conjugations are texts. -/
def UserPos.HasTexts (userPos : UserPos) : Prop :=
  ∀ posType, ∀ form ∈ userPos.tokenArrayIndex posType, isValidUtf8 form.keySuffix = true

variable {services : Services} {userPos : UserPos} {storage : Storage}

theorem UserPos.getTokens_key (hpos : userPos.HasTexts) {key value locale : Bytes}
    {posType : PosType} (hkey : isValidUtf8 key = true) {token : UserPosToken}
    (h : token ∈ userPos.getTokens key value posType locale) : HasFirstChar token.key := by
  unfold getTokens at h
  split at h
  · exact absurd h List.not_mem_nil
  · next hnonempty =>
    rw [Bool.or_eq_true, not_or, List.isEmpty_iff] at hnonempty
    have hforms := hpos posType
    dsimp only at h
    split at h
    · exact absurd h List.not_mem_nil
    · rw [List.mem_singleton] at h
      rw [h]
      exact hasFirstChar_of_valid hkey hnonempty.1
    · next base forms _ heq =>
      obtain ⟨form, -, rfl⟩ := List.mem_map.mp h
      refine HasFirstChar.append ?_ _
      split
      · next hstem =>
        rw [Bool.and_eq_true, Bool.and_eq_true, Bool.and_eq_true, decide_eq_true_eq] at hstem
        obtain ⟨stem, rfl⟩ := List.isSuffixOf_iff_suffix.mp hstem.1.2
        rw [List.length_append, Nat.add_sub_cancel, List.take_left]
        refine hasFirstChar_stem hkey (hforms base (by rw [heq]; exact List.mem_cons_self)) ?_
        rintro rfl
        have hlen := hstem.1.1.1
        rw [List.nil_append] at hlen
        exact Nat.lt_irrefl _ hlen
      · exact hasFirstChar_of_valid hkey hnonempty.1

theorem isValidUtf8_readingOf (hjapanese : services.japanese.KeepsUtf8) {key : Bytes}
    (h : isValidUtf8 key = true) : isValidUtf8 (services.readingOf key) = true :=
  hjapanese.normalizeVoicedSoundMark _ (hjapanese.normalizeVoicedSoundMark _
    (hjapanese.katakanaToHiragana _ (hjapanese.halfWidthKatakanaToFullWidthKatakana _
      (hjapanese.fullWidthAsciiToHalfWidthAscii _ h))))

/-- The key of a loaded token begins with a whole character. -/
theorem loadTokens_key (hjapanese : services.japanese.KeepsUtf8) (hpos : userPos.HasTexts)
    {token : UserPosToken} (h : token ∈ services.loadTokens userPos storage) :
    HasFirstChar token.key := by
  unfold Services.loadTokens at h
  have hall : ∀ (entries : List Entry) (s : List UInt64 × List UserPosToken),
      (∀ token ∈ s.2, HasFirstChar token.key) →
      ∀ token ∈ (entries.foldl (services.loadTokensOf userPos) s).2, HasFirstChar token.key := by
    intro entries
    induction entries with
    | nil => exact fun _ hs => hs
    | cons entry entries ih =>
      intro s hs
      refine ih _ ?_
      unfold Services.loadTokensOf
      split
      · exact hs
      · next hvalid =>
        split
        · exact hs
        · dsimp only
          split
          · exact hs
          · intro token htoken
            obtain hmem | hmem := List.mem_append.mp htoken
            · exact hs token hmem
            · rw [Bool.not_eq_true', Bool.not_eq_false] at hvalid
              have htext := (validateEntry_isOk.mp hvalid).2.1.2
              rw [containsInvalidChars, Bool.or_eq_false_iff, Bool.not_eq_false'] at htext
              exact UserPos.getTokens_key hpos (isValidUtf8_readingOf hjapanese htext.2) hmem
  exact hall _ _ (fun _ hnil => absurd hnil List.not_mem_nil) token h

/-! ## The lookups -/

/-- The loaded tokens that are asked for are handed to `run`, each once and in order. -/
def ReportsExactly (loaded : List UserPosToken) (asked : UserPosToken → Bool)
    (run : List UserPosToken → σ) (result : σ) : Prop :=
  ∃ reported : List UserPosToken, reported.Perm (loaded.filter asked) ∧
    reported.Pairwise (fun a b => orderByKeyThenById b a = false) ∧ result = run reported

variable {dictionary : LoadedUserDictionary} {callback : Callback σ} {key : Bytes}

theorem TokensIndex.IsLoaded.reportsExactly
    (hload : dictionary.index.IsLoaded services userPos storage)
    (asked : UserPosToken → Bool) {run : List UserPosToken → σ} {result : σ}
    (h : result = run (dictionary.index.tokens.filter asked)) :
    ReportsExactly (services.loadTokens userPos storage) asked run result :=
  ⟨_, hload.filter asked, dictionary.index.sorted.filter asked, h⟩

namespace LoadedUserDictionary

theorem lookupPredictive_eq (hcallback : callback.AlwaysContinues) (hne : key ≠ []) (s : σ) :
    dictionary.lookupPredictive callback key s =
      (dictionary.index.tokens.filter fun token => key <+: token.key).foldl
        (dictionary.reportAlone callback .predictive) s := by
  have hrange := dictionary.index.keysSorted.equalRange_eq (f := fun k => k.take key.length)
    (fun hle => take_le_take _ hle) key
  rw [lookupPredictive, if_neg (by rwa [List.isEmpty_iff]), hrange, predictiveLoop_eq hcallback]
  congr 1
  refine List.filter_congr fun token _ => ?_
  rw [decide_eq_decide, List.prefix_iff_eq_take, eq_comm]

theorem lookupPrefix_eq (hcallback : callback.AlwaysContinues) (hkey : IsUnicode key)
    (hne : key ≠ []) (hfirst : ∀ token ∈ dictionary.index.tokens, HasFirstChar token.key) (s : σ) :
    dictionary.lookupPrefix callback key s =
      some ((dictionary.index.tokens.filter fun token =>
        token.key <+: key ∧ token.posType ≠ .suggestionOnly).foldl
          (dictionary.reportAlone callback .prefixLookup) s) := by
  have hsorted := dictionary.index.keysSorted
  have hpart : Partitioned (fun token : UserPosToken => decide (token.key < frontChar key))
      dictionary.index.tokens := hsorted.partitioned_below (f := id) (fun hle => hle) _
  rw [lookupPrefix, if_neg (by rwa [List.isEmpty_iff])]
  dsimp only
  rw [drop_partitionPoint hpart, prefixLoop_eq hcallback key s (hsorted.filter _),
    List.filter_filter]
  congr 2
  refine List.filter_congr fun token htoken => ?_
  rw [Bool.and_eq_left_iff_imp, decide_eq_true_eq]
  rintro ⟨hstarts, -⟩
  simpa [decide_eq_false_iff_not] using frontChar_le hkey (hfirst token htoken) hstarts

/-- What is done before the first token of the key. -/
def exactStart (callback : Callback σ) (key : Bytes) (tokens : List UserPosToken) (s : σ) : σ :=
  if tokens.any fun token => token.key = key then callback.reportKey key s else s

theorem lookupExact_eq (hcallback : callback.AlwaysContinues) (hne : key ≠ []) (s : σ) :
    dictionary.lookupExact callback key s =
      (dictionary.index.tokens.filter fun token =>
        token.key = key ∧ token.posType ≠ .suggestionOnly).foldl
          (dictionary.reportExact callback key)
          (exactStart callback key dictionary.index.tokens s) := by
  have hrange := dictionary.index.keysSorted.equalRange_eq (f := id) (fun hle => hle) key
  have hsplit : dictionary.index.tokens.filter (fun token =>
        token.key = key ∧ token.posType ≠ .suggestionOnly) =
      (dictionary.index.tokens.filter fun token => token.key = key).filter
        fun token => token.posType ≠ .suggestionOnly := by
    rw [List.filter_filter]
    refine List.filter_congr fun token _ => ?_
    rw [Bool.and_comm, Bool.decide_and]
  unfold id at hrange
  rw [lookupExact, if_neg (by rwa [List.isEmpty_iff]), hrange, hsplit, exactStart]
  split
  · next hnil =>
    rw [hnil, if_neg]
    · rfl
    · rw [List.any_eq_true]
      rintro ⟨token, htoken, heq⟩
      exact List.filter_eq_nil_iff.mp hnil token htoken heq
  · next hsome =>
    rw [if_pos, ← exactLoop_eq hcallback, Callback.reportKey]
    · have hkey := hcallback.onKey key s
      split
      · next s₁ heq =>
        rw [heq]
        have hactual := hcallback.onActualKey key key 0 s₁
        split
        · next heq => rw [heq]
        · next hother heq =>
          rw [heq] at hactual
          exact absurd hactual hother
      · next hother heq =>
        rw [heq] at hkey
        exact absurd hkey hother
    · rw [List.any_eq_true]
      obtain ⟨token, htoken⟩ := List.exists_mem_of_ne_nil _ hsome
      exact ⟨token, (List.mem_filter.mp htoken).1, (List.mem_filter.mp htoken).2⟩

end LoadedUserDictionary

/-- An entry of the suppression dictionary that stands for a word. -/
def MatchesEntry (services : Services) (entry : Entry) (key value : Bytes) : Prop :=
  (services.readingOf entry.key = key ∧ entry.value = value) ∨
    (entry.value = [] ∧ services.readingOf entry.key = key) ∨
    (services.readingOf entry.key = [] ∧ entry.value = value)

/-- **The lookups of the user dictionary are exact.** -/
theorem lookups_exact (hjapanese : services.japanese.KeepsUtf8)
    (hpos : dictionary.userPos.HasTexts)
    (hload : dictionary.index.IsLoaded services dictionary.userPos storage)
    (hcallback : callback.AlwaysContinues) (hkey : IsUnicode key) (hne : key ≠ []) (s : σ) :
    ReportsExactly (services.loadTokens dictionary.userPos storage)
        (fun token => token.key = key ∧ token.posType ≠ .suggestionOnly)
        (fun reported => reported.foldl (dictionary.reportExact callback key)
          (LoadedUserDictionary.exactStart callback key dictionary.index.tokens s))
        (dictionary.lookupExact callback key s) ∧
      ReportsExactly (services.loadTokens dictionary.userPos storage)
        (fun token => token.key <+: key ∧ token.posType ≠ .suggestionOnly)
        (fun reported => some (reported.foldl (dictionary.reportAlone callback .prefixLookup) s))
        (dictionary.lookupPrefix callback key s) ∧
      ReportsExactly (services.loadTokens dictionary.userPos storage)
        (fun token => key <+: token.key)
        (fun reported => reported.foldl (dictionary.reportAlone callback .predictive) s)
        (dictionary.lookupPredictive callback key s) ∧
      ∀ key value, (services.loadSuppression storage).isSuppressedEntry key value = true ↔
        ∃ entry, services.IsEffective storage.entries entry ∧ entry.pos = .suppressionWord ∧
          MatchesEntry services entry key value := by
  have hfirst : ∀ token ∈ dictionary.index.tokens, HasFirstChar token.key := fun token htoken =>
    loadTokens_key hjapanese hpos (hload.mem_iff.mp htoken)
  refine ⟨hload.reportsExactly _ (LoadedUserDictionary.lookupExact_eq hcallback hne s),
    hload.reportsExactly _ (LoadedUserDictionary.lookupPrefix_eq hcallback hkey hne hfirst s),
    hload.reportsExactly _ (LoadedUserDictionary.lookupPredictive_eq hcallback hne s), ?_⟩
  intro key value
  rw [Services.isSuppressedEntry_iff]
  constructor
  · rintro ⟨entry, heffective, hsuppression, hvalue, hreading | hreading⟩
    · exact ⟨entry, heffective, hsuppression, Or.inl ⟨hreading, hvalue⟩⟩
    · exact ⟨entry, heffective, hsuppression, Or.inr (Or.inr ⟨hreading, hvalue⟩)⟩
  · rintro ⟨entry, heffective, hsuppression, ⟨hreading, hvalue⟩ | ⟨hvalue, -⟩ | ⟨hreading, hvalue⟩⟩
    · exact ⟨entry, heffective, hsuppression, hvalue, Or.inl hreading⟩
    · -- a valid entry has a value
      obtain ⟨-, -, -, hvalid, -⟩ := heffective
      exact absurd hvalue (validateEntry_isOk.mp hvalid).2.2.1
    · exact ⟨entry, heffective, hsuppression, hvalue, Or.inr hreading⟩

/-! One noun, and a callback that keeps the values it is told. -/

/-- Services that leave a text as it is. -/
def plainServices : Services where
  japanese := ⟨id, id, id, id⟩
  cityFingerprint := fun text => UInt64.ofNat (text.foldl (fun n b => n * 31 + b.toNat) 7)
  fileSize _ := 0
  newId := SuppressionState.nextId
  filename := utf8 "user_dictionary.db"

def oneNoun : Storage where
  dictionaries := [{ id := 1, entries := [⟨utf8 "あ", utf8 "亜", [], some .noun, []⟩] }]

def nounForms : UserPos where
  tokenArrayIndex _ := [⟨[], [], 1851⟩]
  cost _ := 0

def oneNounDictionary : LoadedUserDictionary where
  userPos := nounForms
  unknownId := 1
  index :=
    { tokens := plainServices.loadTokens nounForms oneNoun
      sorted := by decide +kernel
      costPenalty := 346 }

def valuesCallback : Callback (List Bytes) where
  onKey _ s := (.traverseContinue, s)
  onActualKey _ _ _ s := (.traverseContinue, s)
  onToken _ _ token s := (.traverseContinue, s ++ [token.value])

theorem lookups_exact_oneNoun :
    ReportsExactly (plainServices.loadTokens nounForms oneNoun)
        (fun token => token.key = utf8 "あい" ∧ token.posType ≠ .suggestionOnly)
        (fun reported => reported.foldl (oneNounDictionary.reportExact valuesCallback (utf8 "あい"))
          (LoadedUserDictionary.exactStart valuesCallback (utf8 "あい")
            oneNounDictionary.index.tokens []))
        (oneNounDictionary.lookupExact valuesCallback (utf8 "あい") []) ∧
      ReportsExactly (plainServices.loadTokens nounForms oneNoun)
        (fun token => token.key <+: utf8 "あい" ∧ token.posType ≠ .suggestionOnly)
        (fun reported =>
          some (reported.foldl (oneNounDictionary.reportAlone valuesCallback .prefixLookup) []))
        (oneNounDictionary.lookupPrefix valuesCallback (utf8 "あい") []) ∧
      ReportsExactly (plainServices.loadTokens nounForms oneNoun)
        (fun token => utf8 "あい" <+: token.key)
        (fun reported =>
          reported.foldl (oneNounDictionary.reportAlone valuesCallback .predictive) [])
        (oneNounDictionary.lookupPredictive valuesCallback (utf8 "あい") []) ∧
      ∀ key value, (plainServices.loadSuppression oneNoun).isSuppressedEntry key value = true ↔
        ∃ entry, plainServices.IsEffective oneNoun.entries entry ∧ entry.pos = .suppressionWord ∧
          MatchesEntry plainServices entry key value := by
  have hjapanese : plainServices.japanese.KeepsUtf8 :=
    ⟨fun _ h => h, fun _ h => h, fun _ h => h, fun _ h => h⟩
  have hpos : oneNounDictionary.userPos.HasTexts := by
    intro posType form hform
    obtain rfl := List.mem_singleton.mp hform
    rfl
  have hcallback : valuesCallback.AlwaysContinues :=
    ⟨fun _ _ => rfl, fun _ _ _ _ => rfl, fun _ _ _ _ => rfl⟩
  have hload : oneNounDictionary.index.tokens.Perm
      (plainServices.loadTokens oneNounDictionary.userPos oneNoun) := List.Perm.refl _
  exact lookups_exact hjapanese hpos hload hcallback (by decide) (by decide) []

end Mozkey.Dictionary
