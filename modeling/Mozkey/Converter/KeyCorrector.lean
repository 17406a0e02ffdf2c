import Mozkey.Base.ScriptType
import Mozkey.Base.Utf8Encode
import Mozkey.Infra.Alignment

/-!
# Correcting the typing of a key

`converter/key_corrector.cc`: a key is rewritten from its start to its end, by the first of six
rules that applies or else by one character that stays as it is. Two tables tell which positions
of the original and of the corrected key belong together.

A code point that is written as nothing has an entry in the table of the corrected key all the
same. Since then the table is longer than the key.

* `consistent_iff` — when the tables are consistent
* `onTokenKey_isCorrection` — the key of a node from a corrected key
-/

namespace Mozkey.Converter

open Infra Base

/-! ## Rules -/

/-- `Util::Utf8ToCodepoint`, with the number of bytes that are read -/
def utf8ToCodepointLen (s : Bytes) : Nat × Nat := (splitFirstChar32 s).getD (0, 0)

/-- A rule for two characters. `output` gives the code points to write, when the rule applies. -/
def rewriteTwo (isFirst : Nat → Bool) (output : Nat → Nat → Option (List Nat)) (input : Bytes) :
    Option (Nat × Bytes) :=
  let (codepoint, mblen) := utf8ToCodepointLen input
  if !isFirst codepoint then none
  else
    let input := input.drop mblen
    if input.isEmpty then none
    else
      let (next, mblen2) := utf8ToCodepointLen input
      (output codepoint next).map fun codepoints =>
        (mblen + mblen2, codepoints.flatMap codepointToUtf8)

/-- "んあ" -> "んな". The next code point is cut to 16 bits. -/
def rewriteNN (keyPos : Nat) (input : Bytes) : Option (Nat × Bytes) :=
  if keyPos = 0 then none
  else
    rewriteTwo (· == 0x3093) (fun codepoint next =>
      match next % 2 ^ 16 with
      | 0x3042 => some [codepoint, 0x306A]
      | 0x3044 => some [codepoint, 0x306B]
      | 0x3046 => some [codepoint, 0x306C]
      | 0x3048 => some [codepoint, 0x306D]
      | 0x304A => some [codepoint, 0x306E]
      | _ => none) input

/-- The characters that a pattern asks for, each with its length, and what follows them. A zero
stands for hiragana other than the code point. -/
def matchPattern (codepoint : Nat) : List Nat → Bytes → Option (List (Nat × Nat) × Bytes)
  | [], input => some ([], input)
  | pattern :: patterns, input =>
    if input.isEmpty then none
    else
      let (c, mblen) := utf8ToCodepointLen input
      if (pattern == 0 && c != codepoint && getScriptType c == .hiragana) ||
          (pattern == codepoint && c == codepoint) then
        (matchPattern codepoint patterns (input.drop mblen)).map fun (chars, rest) =>
          ((c, mblen) :: chars, rest)
      else none

/-- "([^ん])んん[あいうえお]" -> "$1" and leave "ん[あいうえお]",
"([^ん])んん[^あいうえお]" -> "$1ん" and leave "[^あいうえお]" -/
def rewriteDoubleNN (input : Bytes) : Option (Nat × Bytes) :=
  match matchPattern 0x3093 [0x0000, 0x3093, 0x3093] input with
  | some ([(first, firstMblen), (_, mblen2), (_, mblen3)], rest) =>
    let firstChar := first % 2 ^ 16
    if rest.isEmpty then none
    else if firstChar = 0 ∨ firstMblen = 0 then none
    else
      let (codepoint, _) := utf8ToCodepointLen rest
      if codepoint = 0x3093 then none
      else if codepoint = 0x3042 ∨ codepoint = 0x3044 ∨ codepoint = 0x3046 ∨ codepoint = 0x3048 ∨
          codepoint = 0x304A then
        -- the rest is left to the rule for one "ん"
        some (firstMblen + 3, codepointToUtf8 firstChar)
      else
        some (firstMblen + mblen2 + mblen3, codepointToUtf8 firstChar ++ codepointToUtf8 0x3093)
  | _ => none

/-- "にゃ" -> "んや" -/
def rewriteNI (input : Bytes) : Option (Nat × Bytes) :=
  rewriteTwo (· == 0x306B) (fun _ next =>
    match next % 2 ^ 16 with
    | 0x3083 => some [0x3093, 0x3084]
    | 0x3085 => some [0x3093, 0x3086]
    | 0x3087 => some [0x3093, 0x3088]
    | _ => none) input

/-- "m[ば-ぼぱ-ぽ]" -> "ん[ば-ぼぱ-ぽ]" -/
def rewriteM (keyPos : Nat) (input : Bytes) : Option (Nat × Bytes) :=
  if keyPos = 0 then none
  else
    rewriteTwo (fun codepoint => codepoint == 0x006D || codepoint == 0xFF4D) (fun _ next =>
      let next := next % 2 ^ 16
      if next % 3 ≠ 0 ∧ 0x306F ≤ next ∧ next ≤ 0x307D then some [0x3093, next] else none) input

/-- "([^っ])っっ([^っ])" -> "$1っ$2" -/
def rewriteSmallTSU (input : Bytes) : Option (Nat × Bytes) :=
  match matchPattern 0x3063 [0x0000, 0x3063, 0x3063, 0x0000] input with
  | some ([(first, mblen), (_, mblen2), (_, mblen3), (last, mblen4)], _) =>
    let firstChar := first % 2 ^ 16
    let lastChar := last % 2 ^ 16
    if firstChar = 0 ∨ lastChar = 0 then none
    else
      some (mblen + mblen2 + mblen3 + mblen4,
        codepointToUtf8 firstChar ++ codepointToUtf8 0x3063 ++ codepointToUtf8 lastChar)
  | _ => none

/-- "[きしちにひり]ゅ[^う]" -> "$1ゅう" and leave "[^う]" -/
def rewriteYu (input : Bytes) : Option (Nat × Bytes) :=
  let (firstChar, mblen) := utf8ToCodepointLen input
  if firstChar ≠ 0x304D ∧ firstChar ≠ 0x3057 ∧ firstChar ≠ 0x3061 ∧ firstChar ≠ 0x306B ∧
      firstChar ≠ 0x3072 ∧ firstChar ≠ 0x308A then none
  else
    let input := input.drop mblen
    if input.isEmpty then none
    else
      let (nextChar, mblen2) := utf8ToCodepointLen input
      if nextChar ≠ 0x3085 then none
      else
        let input := input.drop mblen2
        if input.isEmpty then none
        else
          let (lastChar, _) := utf8ToCodepointLen input
          if lastChar = 0x3046 then none
          else
            some (mblen + mblen2,
              codepointToUtf8 firstChar ++ codepointToUtf8 nextChar ++ codepointToUtf8 0x3046)

def rewrite (keyPos : Nat) (input : Bytes) : Option (Nat × Bytes) :=
  rewriteDoubleNN input <|> rewriteNN keyPos input <|> rewriteYu input <|> rewriteNI input <|>
    rewriteSmallTSU input <|> rewriteM keyPos input

/-! ## The corrector -/

def kInvalidPos : Nat := 2 ^ 64 - 1

def isValidPosition (pos : Nat) : Bool := pos != kInvalidPos

/-- `KeyCorrector::kMaxSize` -/
def kMaxKeySize : Nat := 128

inductive InputMode where
  | roman
  | kana
  deriving DecidableEq

/-- What the loop of `Init` appends to. -/
structure Corrections where
  correctedKey : Bytes := []
  alignment : List Nat := []
  revAlignment : List Nat := []

structure KeyCorrector extends Corrections where
  available : Bool := false
  mode : InputMode
  originalKey : Bytes := []

/-- The entries for one step. A step is aligned byte by byte when its sizes agree, and else at its
first byte. -/
def alignmentEntries (size otherSize start : Nat) : List Nat :=
  if size = otherSize then (List.range size).map (start + ·)
  else start :: List.replicate (size - 1) kInvalidPos

/-- What one step takes and writes. The characters of the history are not rewritten. -/
def correctionStep (inputBegin keyPos pos : Nat) (input : Bytes) : Nat × Bytes :=
  match if pos < inputBegin then none else rewrite keyPos input with
  | some step => step
  | none =>
    let (codepoint, mblen) := utf8ToCodepointLen input
    (mblen, codepointToUtf8 codepoint)

/-- The loop of `Init`. It fails where nothing is taken and nothing written. -/
def initLoop (inputBegin : Nat) : Nat → Nat → Nat → Bytes → Corrections → Bool × Corrections
  | _, _, _, [], corrections => (true, corrections)
  | 0, _, _, _ :: _, corrections => (false, corrections)
  | fuel + 1, keyPos, pos, c :: rest, corrections =>
    let (mblen, output) := correctionStep inputBegin keyPos pos (c :: rest)
    if output.length = 0 ∧ mblen = 0 then (false, corrections)
    else
      initLoop inputBegin fuel (keyPos + 1) (pos + mblen) ((c :: rest).drop mblen)
        { correctedKey := corrections.correctedKey ++ output
          alignment := corrections.alignment ++
            alignmentEntries mblen output.length corrections.correctedKey.length
          revAlignment := corrections.revAlignment ++
            alignmentEntries output.length mblen pos }

namespace KeyCorrector

/-- The constructor, with `Init`. Each step takes a byte. -/
def new (key : Bytes) (mode : InputMode) (historySize : Nat) : KeyCorrector :=
  if mode = .kana then { mode := mode }
  else if key.isEmpty ∨ kMaxKeySize ≤ key.length then { mode := mode }
  else
    let (available, corrections) := initLoop (min key.length historySize) key.length 0 0 key {}
    { corrections with available := available, mode := mode, originalKey := key }

variable (corrector : KeyCorrector)

def getCorrectedPosition (originalKeyPos : Nat) : Nat :=
  corrector.alignment.getD originalKeyPos kInvalidPos

def getOriginalPosition (correctedKeyPos : Nat) : Nat :=
  corrector.revAlignment.getD correctedKeyPos kInvalidPos

/-- Positions are added and subtracted with 64 bits. -/
def getOriginalOffset (originalKeyPos newKeyOffset : Nat) : Nat :=
  if !corrector.available then kInvalidPos
  else if corrector.mode = .kana then kInvalidPos
  else
    let correctedKeyPos := corrector.getCorrectedPosition originalKeyPos
    if !isValidPosition correctedKeyPos then kInvalidPos
    else
      let correctedEnd := (correctedKeyPos + newKeyOffset) % 2 ^ 64
      if corrector.revAlignment.length = correctedEnd then
        (2 ^ 64 + corrector.alignment.length - corrector.getOriginalPosition correctedKeyPos)
          % 2 ^ 64
      else
        let originalKeyPos2 := corrector.getOriginalPosition correctedEnd
        if !isValidPosition originalKeyPos2 then kInvalidPos
        else if originalKeyPos ≤ originalKeyPos2 then originalKeyPos2 - originalKeyPos
        else kInvalidPos

end KeyCorrector

/-! ## Reading -/

/-- Characters that are read one after another, each a code point and a number of bytes. -/
inductive Reads : Bytes → List (Nat × Nat) → Prop
  | nil (s : Bytes) : Reads s []
  | cons {s : Bytes} {c len : Nat} {chars : List (Nat × Nat)}
      (hc : splitFirstChar32 s = some (c, len)) (h : Reads (s.drop len) chars) :
      Reads s ((c, len) :: chars)

/-- The number of bytes of some characters. -/
def charBytes (chars : List (Nat × Nat)) : Nat := (chars.map (·.2)).sum

@[simp] theorem charBytes_nil : charBytes [] = 0 := rfl

@[simp] theorem charBytes_cons (char : Nat × Nat) (chars : List (Nat × Nat)) :
    charBytes (char :: chars) = char.2 + charBytes chars := List.sum_cons

theorem splitFirstChar32_of_len {s : Bytes} (h : (utf8ToCodepointLen s).1 ≠ 0) :
    splitFirstChar32 s = some ((utf8ToCodepointLen s).1, (utf8ToCodepointLen s).2) := by
  unfold utf8ToCodepointLen at h ⊢
  cases hsplit : splitFirstChar32 s with
  | none =>
    simp [hsplit] at h
  | some token => rfl

/-- A zero byte is read as U+0000. -/
theorem zero_mem_take {s : Bytes} {c len : Nat} (h : splitFirstChar32 s = some (c, len)) :
    (0 : UInt8) ∈ s.take len ↔ c = 0 := by
  cases s with
  | nil => cases h
  | cons b rest =>
    rw [splitFirstChar32] at h
    split at h
    · cases h
      simp [eq_comm, ← UInt8.toNat_inj]
    · next hascii =>
      split at h
      · cases h
      · next head hhead =>
        obtain ⟨rfl, hmin, htrail, -⟩ := sequence_some h
        obtain ⟨-, hall, -⟩ := trailingBytes_some htrail
        have hpos := sequenceHead_pos hhead
        have hminpos : 0 < head.minValue := by
          unfold sequenceHead at hhead
          split_ifs at hhead <;> cases hhead <;> exact Nat.succ_pos _
        obtain ⟨n, hn⟩ : ∃ n, head.len = n + 1 := ⟨head.len - 1, by omega⟩
        rw [hn, Nat.add_sub_cancel] at hall
        rw [hn, List.take_succ_cons, List.mem_cons]
        refine iff_of_false ?_ (by omega)
        rintro (rfl | hzero)
        · exact hascii (by decide)
        · exact absurd (hall 0 hzero) (by decide)

namespace Reads

variable {s : Bytes} {chars : List (Nat × Nat)}

theorem le_length (h : Reads s chars) : charBytes chars ≤ s.length := by
  induction h with
  | nil => exact Nat.zero_le _
  | @cons s c len chars hc h ih =>
    have hlen := (splitFirstChar32_some hc).2.1
    rw [List.length_drop] at ih
    rw [charBytes_cons]
    omega

theorem pos (h : Reads s chars) (hne : chars ≠ []) : 0 < charBytes chars := by
  cases h with
  | nil => exact absurd rfl hne
  | cons hc h =>
    have hlen := (splitFirstChar32_some hc).1
    rw [charBytes_cons]
    omega

theorem zero_mem (h : Reads s chars) :
    (0 : UInt8) ∈ s.take (charBytes chars) ↔ 0 ∈ chars.map (·.1) := by
  induction h with
  | nil => simp
  | @cons s c len chars hc h ih =>
    rw [charBytes_cons, List.take_add, List.mem_append, zero_mem_take hc, ih, List.map_cons,
      List.mem_cons, eq_comm]

theorem two {c len c' len' : Nat} (h : splitFirstChar32 s = some (c, len))
    (h' : splitFirstChar32 (s.drop len) = some (c', len')) : Reads s [(c, len), (c', len')] :=
  .cons h (.cons h' (.nil _))

end Reads

/-- What a rule takes is read as characters, none of them U+0000, and it writes something. -/
structure Rewrites (input : Bytes) (step : Nat × Bytes) : Prop where
  exists_reads : ∃ chars, Reads input chars ∧ step.1 = charBytes chars ∧ chars ≠ [] ∧
    0 ∉ chars.map (·.1)
  output_ne_nil : step.2 ≠ []
  length_output_le : step.2.length ≤ 18

theorem length_codepointToUtf8_le (c : Nat) : (codepointToUtf8 c).length ≤ 6 := by
  unfold codepointToUtf8
  split_ifs <;> simp

theorem codepointToUtf8_eq_nil {c : Nat} : codepointToUtf8 c = [] ↔ c = 0 := by
  unfold codepointToUtf8
  split_ifs <;> simp_all

/-! ## What the rules take -/

variable {step : Nat × Bytes}

theorem rewriteTwo_rewrites {isFirst : Nat → Bool} {output : Nat → Nat → Option (List Nat)}
    {input : Bytes} (hfirst : ∀ c, isFirst c = true → c ≠ 0)
    (houtput : ∀ c next codepoints, isFirst c = true → output c next = some codepoints →
      next ≠ 0 ∧ ∃ first second, codepoints = [first, second] ∧ first ≠ 0)
    (h : rewriteTwo isFirst output input = some step) : Rewrites input step := by
  unfold rewriteTwo at h
  dsimp only at h
  split at h
  · cases h
  · next hmatches =>
    have hc : isFirst (utf8ToCodepointLen input).1 = true := by simpa using hmatches
    split at h
    · cases h
    · obtain ⟨codepoints, hcodepoints, rfl⟩ := Option.map_eq_some_iff.mp h
      obtain ⟨hnext, first, second, rfl, hne⟩ := houtput _ _ _ hc hcodepoints
      refine ⟨⟨_, Reads.two (splitFirstChar32_of_len (hfirst _ hc))
        (splitFirstChar32_of_len hnext), by simp, by simp, ?_⟩, ?_, ?_⟩
      · simpa [or_false, not_or] using ⟨(hfirst _ hc).symm, hnext.symm⟩
      · simp [codepointToUtf8_eq_nil, hne]
      · have hle := length_codepointToUtf8_le first
        have hle' := length_codepointToUtf8_le second
        simp
        omega

theorem rewriteNN_rewrites {keyPos : Nat} {input : Bytes} (h : rewriteNN keyPos input = some step) :
    Rewrites input step := by
  unfold rewriteNN at h
  split at h
  · cases h
  · refine rewriteTwo_rewrites (fun c hc => ?_) (fun c next codepoints hc hout => ?_) h
    · rw [beq_iff_eq.mp hc]
      decide
    · have hc := beq_iff_eq.mp hc
      split at hout <;> cases hout <;> refine ⟨by rintro rfl; contradiction, _, _, rfl, by omega⟩

theorem rewriteNI_rewrites {input : Bytes} (h : rewriteNI input = some step) :
    Rewrites input step := by
  refine rewriteTwo_rewrites (fun c hc => ?_) (fun c next codepoints hc hout => ?_) h
  · rw [beq_iff_eq.mp hc]
    decide
  · split at hout <;> cases hout <;> refine ⟨by rintro rfl; contradiction, _, _, rfl, by omega⟩

theorem rewriteM_rewrites {keyPos : Nat} {input : Bytes} (h : rewriteM keyPos input = some step) :
    Rewrites input step := by
  unfold rewriteM at h
  split at h
  · cases h
  · refine rewriteTwo_rewrites (fun c hc => ?_) (fun c next codepoints hc hout => ?_) h
    · rintro rfl
      exact absurd hc (by decide)
    · dsimp only at hout
      split at hout
      · cases hout
        exact ⟨by rintro rfl; omega, _, _, rfl, by decide⟩
      · cases hout

theorem rewriteYu_rewrites {input : Bytes} (h : rewriteYu input = some step) :
    Rewrites input step := by
  unfold rewriteYu at h
  dsimp only at h
  split at h
  · cases h
  · next hfirst =>
    have hne : (utf8ToCodepointLen input).1 ≠ 0 := by omega
    split at h
    · cases h
    · split at h
      · cases h
      · next hnext =>
        have hnext' : (utf8ToCodepointLen (input.drop (utf8ToCodepointLen input).2)).1 ≠ 0 := by
          rw [not_not.mp hnext]
          decide
        split at h
        · cases h
        · split at h
          · cases h
          · cases h
            refine ⟨⟨_, Reads.two (splitFirstChar32_of_len hne)
              (splitFirstChar32_of_len hnext'), by simp, by simp, ?_⟩, ?_, ?_⟩
            · simpa [or_false, not_or] using ⟨hne.symm, hnext'.symm⟩
            · simp [codepointToUtf8_eq_nil, hne]
            · have hle := length_codepointToUtf8_le (utf8ToCodepointLen input).1
              have hle' := length_codepointToUtf8_le
                (utf8ToCodepointLen (input.drop (utf8ToCodepointLen input).2)).1
              have hle'' := length_codepointToUtf8_le 0x3046
              simp
              omega

/-- A pattern reads its characters. -/
theorem matchPattern_reads {codepoint : Nat} (hne : codepoint ≠ 0) :
    ∀ {patterns : List Nat} {input rest : Bytes} {chars : List (Nat × Nat)},
      matchPattern codepoint patterns input = some (chars, rest) →
      Reads input chars ∧ 0 ∉ chars.map (·.1) ∧
        List.Forall₂ (fun pattern char => pattern = codepoint → char.1 = codepoint) patterns chars
  | [], input, rest, chars, h => by
    cases h
    exact ⟨.nil _, by simp, .nil⟩
  | pattern :: patterns, input, rest, chars, h => by
    rw [matchPattern] at h
    dsimp only at h
    split at h
    · cases h
    · split at h
      · next hmatches =>
        obtain ⟨⟨chars', rest'⟩, hmatch, heq⟩ := Option.map_eq_some_iff.mp h
        cases heq
        obtain ⟨hreads, hzero, hpatterns⟩ := matchPattern_reads hne hmatch
        simp only [Bool.or_eq_true, Bool.and_eq_true, beq_iff_eq] at hmatches
        have hc : (utf8ToCodepointLen input).1 ≠ 0 := by
          intro hc
          rw [hc] at hmatches
          rcases hmatches with ⟨-, hscript⟩ | ⟨-, hcode⟩
          · exact absurd hscript (by decide)
          · exact hne hcode.symm
        refine ⟨.cons (splitFirstChar32_of_len hc) hreads, ?_, .cons (fun hpattern => ?_) hpatterns⟩
        · rw [List.map_cons, List.mem_cons, not_or]
          exact ⟨hc.symm, hzero⟩
        · rcases hmatches with ⟨⟨hfirst, -⟩, -⟩ | ⟨-, hcode⟩
          · exact absurd (hpattern.symm.trans hfirst) hne
          · exact hcode
      · cases h

/-- The length of "ん". -/
theorem len_of_codepoint_nn {s : Bytes} {len : Nat} (h : splitFirstChar32 s = some (0x3093, len)) :
    len = 3 := by
  have hle := (splitFirstChar32_some h).2.1
  have htake := congrArg List.length (eq_sequenceOf (splitFirstChar32_take h)).2
  rwa [List.length_take, Nat.min_eq_left hle] at htake

theorem rewriteDoubleNN_rewrites {input : Bytes} (h : rewriteDoubleNN input = some step) :
    Rewrites input step := by
  unfold rewriteDoubleNN at h
  split at h
  · next first firstMblen second mblen2 third mblen3 rest hpattern =>
    obtain ⟨hreads, hzero, hpatterns⟩ := matchPattern_reads (by decide) hpattern
    dsimp only at h
    split at h
    · cases h
    · split at h
      · cases h
      · next hfirst =>
        have hne : codepointToUtf8 (first % 2 ^ 16) ≠ [] := by
          rw [ne_eq, codepointToUtf8_eq_nil]
          exact fun hzero => hfirst (Or.inl hzero)
        have hle := length_codepointToUtf8_le (first % 2 ^ 16)
        have hle' := length_codepointToUtf8_le 0x3093
        split at h
        · cases h
        · split at h
          · cases h
            cases hpatterns with
            | cons _ hpatterns =>
            cases hpatterns with
            | cons hsecond _ =>
            cases hreads with
            | cons hread hreads =>
            cases hreads with
            | cons hread' _ =>
            have hcode : second = 0x3093 := hsecond rfl
            have hlen := len_of_codepoint_nn (hcode ▸ hread')
            refine ⟨⟨_, Reads.two hread hread', ?_, by simp, ?_⟩, hne, by dsimp only; omega⟩
            · simp only [charBytes_cons, charBytes_nil]
              omega
            · simp only [List.map_cons, List.map_nil, List.mem_cons, List.not_mem_nil, or_false,
                not_or] at hzero ⊢
              exact ⟨hzero.1, hzero.2.1⟩
          · cases h
            refine ⟨⟨_, hreads, ?_, by simp, hzero⟩, ?_, ?_⟩
            · simp only [charBytes_cons, charBytes_nil]
              omega
            · exact List.append_ne_nil_of_left_ne_nil hne _
            · rw [List.length_append]
              omega
  · cases h

theorem rewriteSmallTSU_rewrites {input : Bytes} (h : rewriteSmallTSU input = some step) :
    Rewrites input step := by
  unfold rewriteSmallTSU at h
  split at h
  · next first mblen _ mblen2 _ mblen3 last mblen4 rest hpattern =>
    obtain ⟨hreads, hzero, -⟩ := matchPattern_reads (by decide) hpattern
    dsimp only at h
    split at h
    · cases h
    · next hchars =>
      have hne : codepointToUtf8 (first % 2 ^ 16) ≠ [] := by
        rw [ne_eq, codepointToUtf8_eq_nil]
        exact fun hzero => hchars (Or.inl hzero)
      have hle := length_codepointToUtf8_le (first % 2 ^ 16)
      have hle' := length_codepointToUtf8_le 0x3063
      have hle'' := length_codepointToUtf8_le (last % 2 ^ 16)
      cases h
      refine ⟨⟨_, hreads, ?_, by simp, hzero⟩, ?_, ?_⟩
      · simp only [charBytes_cons, charBytes_nil]
        omega
      · exact List.append_ne_nil_of_left_ne_nil (List.append_ne_nil_of_left_ne_nil hne _) _
      · rw [List.length_append, List.length_append]
        omega
  · cases h

theorem rewrite_rewrites {keyPos : Nat} {input : Bytes} (h : rewrite keyPos input = some step) :
    Rewrites input step := by
  simp only [rewrite, Option.orElse_eq_orElse, Option.orElse_eq_or, Option.or_eq_some_iff] at h
  rcases h with h | ⟨-, h | ⟨-, h | ⟨-, h | ⟨-, h | ⟨-, h⟩⟩⟩⟩⟩
  · exact rewriteDoubleNN_rewrites h
  · exact rewriteNN_rewrites h
  · exact rewriteYu_rewrites h
  · exact rewriteNI_rewrites h
  · exact rewriteSmallTSU_rewrites h
  · exact rewriteM_rewrites h

/-! ## Steps -/

/-- Bytes of the key, and what is written for them. -/
structure Piece where
  original : Bytes
  corrected : Bytes

def originals (pieces : List Piece) : Bytes := pieces.flatMap Piece.original

def correcteds (pieces : List Piece) : Bytes := pieces.flatMap Piece.corrected

@[simp] theorem originals_cons (piece : Piece) (pieces : List Piece) :
    originals (piece :: pieces) = piece.original ++ originals pieces := List.flatMap_cons

@[simp] theorem correcteds_cons (piece : Piece) (pieces : List Piece) :
    correcteds (piece :: pieces) = piece.corrected ++ correcteds pieces := List.flatMap_cons

@[simp] theorem originals_append (pieces more : List Piece) :
    originals (pieces ++ more) = originals pieces ++ originals more := List.flatMap_append

@[simp] theorem correcteds_append (pieces more : List Piece) :
    correcteds (pieces ++ more) = correcteds pieces ++ correcteds more := List.flatMap_append

def Piece.originalSize (piece : Piece) : Nat := piece.original.length

def Piece.correctedSize (piece : Piece) : Nat := piece.corrected.length

/-- The steps of the loop over the rest of a key. -/
inductive Steps (inputBegin : Nat) : Nat → Nat → Bytes → List Piece → Prop
  | done (keyPos pos : Nat) : Steps inputBegin keyPos pos [] []
  | step {keyPos pos mblen : Nat} {input output : Bytes} {pieces : List Piece} (hne : input ≠ [])
      (hstep : correctionStep inputBegin keyPos pos input = (mblen, output)) (hpos : 0 < mblen)
      (hle : mblen ≤ input.length)
      (h : Steps inputBegin (keyPos + 1) (pos + mblen) (input.drop mblen) pieces) :
      Steps inputBegin keyPos pos input (⟨input.take mblen, output⟩ :: pieces)

/-- A step of the same size on both sides is byte by byte. -/
def Piece.units (piece : Piece) : List Piece :=
  if piece.original.length = piece.corrected.length then
    (piece.original.zip piece.corrected).map fun (a, b) => ⟨[a], [b]⟩
  else [piece]

/-- What one step takes is read, and it writes nothing only for U+0000. -/
structure Corrects (input : Bytes) (step : Nat × Bytes) : Prop where
  exists_reads : ∃ chars, Reads input chars ∧ step.1 = charBytes chars ∧ chars ≠ [] ∧
    (step.2 = [] ↔ 0 ∈ chars.map (·.1))
  length_output_le : step.2.length ≤ 18

theorem correctionStep_corrects {inputBegin keyPos pos mblen : Nat} {input output : Bytes}
    (h : correctionStep inputBegin keyPos pos input = (mblen, output))
    (hsome : ¬(output.length = 0 ∧ mblen = 0)) : Corrects input (mblen, output) := by
  unfold correctionStep at h
  split at h
  · next step hstep =>
    subst h
    split at hstep
    · cases hstep
    · obtain ⟨⟨chars, hreads, hlen, hne, hzero⟩, houtput, hle⟩ := rewrite_rewrites hstep
      exact ⟨⟨chars, hreads, hlen, hne, iff_of_false houtput hzero⟩, hle⟩
  · unfold utf8ToCodepointLen at h
    cases hsplit : splitFirstChar32 input with
    | none =>
      rw [hsplit] at h
      cases h
      exact absurd ⟨rfl, rfl⟩ hsome
    | some token =>
      rw [hsplit] at h
      cases h
      refine ⟨⟨[token], .cons hsplit (.nil _), by simp, by simp, ?_⟩, ?_⟩
      · rw [List.map_singleton, List.mem_singleton, codepointToUtf8_eq_nil, eq_comm]
      · have hle := length_codepointToUtf8_le token.1
        dsimp only
        omega

/-- What the pieces add to the tables. -/
def Corrections.append (corrections : Corrections) (pos : Nat) (pieces : List Piece) :
    Corrections where
  correctedKey := corrections.correctedKey ++ correcteds pieces
  alignment := corrections.alignment ++ Alignment.table Piece.originalSize Piece.correctedSize
    kInvalidPos corrections.correctedKey.length (pieces.flatMap Piece.units)
  revAlignment := corrections.revAlignment ++ Alignment.table Piece.correctedSize
    Piece.originalSize kInvalidPos pos (pieces.flatMap Piece.units)

theorem table_bytes {f g : Piece → Nat} {units : List Piece} (hf : ∀ unit ∈ units, f unit = 1)
    (hg : ∀ unit ∈ units, g unit = 1) (start : Nat) :
    Alignment.table f g kInvalidPos start units = (List.range units.length).map (start + ·) := by
  induction units generalizing start with
  | nil => rfl
  | cons unit units ih =>
    rw [Alignment.table, hf unit List.mem_cons_self, hg unit List.mem_cons_self,
      ih (List.forall_mem_cons.mp hf).2
        (List.forall_mem_cons.mp hg).2,
      List.length_cons, List.range_succ_eq_map, List.map_cons, List.map_map]
    refine congrArg₂ List.cons rfl (List.map_congr_left fun i _ => ?_)
    simp
    omega

/-- The entries of a step are those of its parts. -/
theorem alignmentEntries_eq (piece : Piece) (start start' : Nat) :
    alignmentEntries piece.original.length piece.corrected.length start
        = Alignment.table Piece.originalSize Piece.correctedSize kInvalidPos start piece.units ∧
      alignmentEntries piece.corrected.length piece.original.length start'
        = Alignment.table Piece.correctedSize Piece.originalSize kInvalidPos start'
          piece.units := by
  unfold alignmentEntries Piece.units
  by_cases heq : piece.original.length = piece.corrected.length
  · have hone : ∀ unit ∈ (piece.original.zip piece.corrected).map
        (fun pair => (⟨[pair.1], [pair.2]⟩ : Piece)), unit.originalSize = 1 ∧
          unit.correctedSize = 1 := by
      intro unit hunit
      obtain ⟨pair, -, rfl⟩ := List.mem_map.mp hunit
      exact ⟨rfl, rfl⟩
    rw [if_pos heq, if_pos heq.symm, if_pos heq,
      table_bytes (fun u hu => (hone u hu).1) (fun u hu => (hone u hu).2),
      table_bytes (fun u hu => (hone u hu).2) (fun u hu => (hone u hu).1), List.length_map,
      List.length_zip, heq, Nat.min_self]
    exact ⟨rfl, rfl⟩
  · simp [heq, if_neg (Ne.symm heq), Alignment.table, Piece.originalSize, Piece.correctedSize]

theorem Piece.originals_units (piece : Piece) : originals piece.units = piece.original := by
  unfold Piece.units originals
  split
  · next heq =>
    rw [List.flatMap_map, ← List.flatMap_map Prod.fst (fun a => [a]),
      List.map_fst_zip (Nat.le_of_eq heq)]
    simp
  · simp

theorem Piece.correcteds_units (piece : Piece) : correcteds piece.units = piece.corrected := by
  unfold Piece.units correcteds
  split
  · next heq =>
    rw [List.flatMap_map, ← List.flatMap_map Prod.snd (fun a => [a]),
      List.map_snd_zip (Nat.le_of_eq heq.symm)]
    simp
  · simp

theorem total_originalSize (pieces : List Piece) :
    Alignment.total Piece.originalSize pieces = (originals pieces).length := by
  rw [originals, List.length_flatMap]
  rfl

theorem total_correctedSize (pieces : List Piece) :
    Alignment.total Piece.correctedSize pieces = (correcteds pieces).length := by
  rw [correcteds, List.length_flatMap]
  rfl

/-- One step, and the steps after it. -/
theorem Corrections.append_step (corrections : Corrections) (pos : Nat) (piece : Piece)
    (pieces : List Piece) :
    Corrections.append
      { correctedKey := corrections.correctedKey ++ piece.corrected
        alignment := corrections.alignment ++ alignmentEntries piece.original.length
          piece.corrected.length corrections.correctedKey.length
        revAlignment := corrections.revAlignment ++ alignmentEntries piece.corrected.length
          piece.original.length pos } (pos + piece.original.length) pieces
      = corrections.append pos (piece :: pieces) := by
  obtain ⟨hforward, hbackward⟩ :=
    alignmentEntries_eq piece corrections.correctedKey.length pos
  unfold Corrections.append
  rw [hforward, hbackward]
  simp [Alignment.table_append, total_correctedSize, total_originalSize, Piece.originals_units,
    Piece.correcteds_units, correcteds_cons]

theorem initLoop_eq {inputBegin : Nat} : ∀ {fuel keyPos pos : Nat} {input : Bytes}
    {corrections corrections' : Corrections},
    initLoop inputBegin fuel keyPos pos input corrections = (true, corrections') →
    ∃ pieces, Steps inputBegin keyPos pos input pieces ∧
      corrections' = corrections.append pos pieces
  | fuel, keyPos, pos, [], corrections, corrections', h => by
    have heq : corrections' = corrections := by
      cases fuel <;> cases h <;> rfl
    refine ⟨[], .done _ _, ?_⟩
    simp [heq, Corrections.append, correcteds, Alignment.table]
  | 0, _, _, _ :: _, _, _, h => by cases h
  | fuel + 1, keyPos, pos, c :: rest, corrections, corrections', h => by
    rw [initLoop] at h
    cases hstep : correctionStep inputBegin keyPos pos (c :: rest) with
    | mk mblen output =>
      rw [hstep] at h
      dsimp only at h
      split at h
      · cases h
      · next hsome =>
        obtain ⟨⟨chars, hreads, rfl, hne, -⟩, -⟩ := correctionStep_corrects hstep hsome
        have hpos := hreads.pos hne
        have hle := hreads.le_length
        obtain ⟨pieces, hsteps, rfl⟩ := initLoop_eq h
        refine ⟨_, .step (List.cons_ne_nil _ _) hstep hpos hle hsteps, ?_⟩
        have happend := corrections.append_step pos ⟨(c :: rest).take (charBytes chars), output⟩
          pieces
        have hlength : ((c :: rest).take (charBytes chars)).length = charBytes chars := by
          rw [List.length_take, Nat.min_eq_left hle]
        dsimp only at happend
        simpa [hlength] using happend

/-! ## The pieces of a key -/

namespace Steps

variable {inputBegin keyPos pos : Nat} {input : Bytes} {pieces : List Piece}

theorem originals_eq (h : Steps inputBegin keyPos pos input pieces) : originals pieces = input := by
  induction h with
  | done => rfl
  | step hne hstep hpos hle h ih => rw [originals_cons, ih, List.take_append_drop]

/-- Each piece takes something, and writes nothing only for a zero byte. -/
theorem piece_corrects (h : Steps inputBegin keyPos pos input pieces) : ∀ piece ∈ pieces,
    0 < piece.originalSize ∧ piece.correctedSize ≤ 18 ∧
      (piece.corrected = [] ↔ (0 : UInt8) ∈ piece.original) := by
  induction h with
  | done => exact fun piece hpiece => absurd hpiece List.not_mem_nil
  | @step keyPos pos mblen input output pieces hne hstep hpos hle h ih =>
    intro piece hpiece
    rcases List.mem_cons.mp hpiece with rfl | hpiece
    · obtain ⟨⟨chars, hreads, rfl, -, hzero⟩, hsize⟩ := correctionStep_corrects hstep (by omega)
      refine ⟨?_, hsize, ?_⟩
      · simp [Piece.originalSize]
        omega
      · rw [hreads.zero_mem]
        exact hzero
    · exact ih piece hpiece

theorem length_correcteds_le (h : Steps inputBegin keyPos pos input pieces) :
    (correcteds pieces).length ≤ 18 * input.length := by
  induction h with
  | done => exact Nat.zero_le _
  | @step keyPos pos mblen input output pieces hne hstep hpos hle h ih =>
    obtain ⟨-, hsize⟩ := correctionStep_corrects hstep (by omega)
    rw [List.length_drop] at ih
    rw [correcteds_cons, List.length_append]
    dsimp only at hsize ⊢
    omega

end Steps

theorem Piece.units_sizes {piece : Piece} (hpos : 0 < piece.originalSize) :
    (∀ unit ∈ piece.units, 0 < unit.originalSize) ∧
      ((∀ unit ∈ piece.units, 0 < unit.correctedSize) ↔ piece.corrected ≠ []) := by
  unfold Piece.units
  split
  · next heq =>
    have hone : ∀ unit ∈ (piece.original.zip piece.corrected).map
        (fun pair => (⟨[pair.1], [pair.2]⟩ : Piece)),
          unit.originalSize = 1 ∧ unit.correctedSize = 1 := by
      intro unit hunit
      obtain ⟨pair, -, rfl⟩ := List.mem_map.mp hunit
      exact ⟨rfl, rfl⟩
    refine ⟨fun unit hunit => ?_, iff_of_true (fun unit hunit => ?_) ?_⟩
    · rw [(hone unit hunit).1]
      exact Nat.one_pos
    · rw [(hone unit hunit).2]
      exact Nat.one_pos
    · rintro hnil
      rw [Piece.originalSize, heq, hnil] at hpos
      exact absurd hpos (Nat.lt_irrefl 0)
  · simpa using ⟨hpos, List.length_pos_iff⟩

/-- The units of a key have sizes, but for the corrections of zero bytes. -/
theorem Steps.units_sizes {inputBegin keyPos pos : Nat} {input : Bytes} {pieces : List Piece}
    (h : Steps inputBegin keyPos pos input pieces) :
    (∀ unit ∈ pieces.flatMap Piece.units, 0 < unit.originalSize) ∧
      ((∀ unit ∈ pieces.flatMap Piece.units, 0 < unit.correctedSize) ↔ (0 : UInt8) ∉ input) := by
  have hpieces := h.piece_corrects
  constructor
  · intro unit hunit
    obtain ⟨piece, hpiece, hunit⟩ := List.mem_flatMap.mp hunit
    exact (Piece.units_sizes (hpieces piece hpiece).1).1 unit hunit
  · have hzero : (0 : UInt8) ∉ input ↔ ∀ piece ∈ pieces, piece.corrected ≠ [] := by
      rw [← h.originals_eq, originals, List.mem_flatMap, not_exists]
      refine forall_congr' fun piece => ?_
      rw [not_and]
      exact forall_congr' fun hpiece => (not_congr (hpieces piece hpiece).2.2).symm
    rw [hzero]
    constructor
    · intro hunits piece hpiece
      exact (Piece.units_sizes (hpieces piece hpiece).1).2.mp fun unit hunit =>
        hunits unit (List.mem_flatMap.mpr ⟨piece, hpiece, hunit⟩)
    · intro hall unit hunit
      obtain ⟨piece, hpiece, hunit⟩ := List.mem_flatMap.mp hunit
      exact (Piece.units_sizes (hpieces piece hpiece).1).2.mpr (hall piece hpiece) unit hunit

theorem originals_units (pieces : List Piece) :
    originals (pieces.flatMap Piece.units) = originals pieces := by
  induction pieces with
  | nil => rfl
  | cons piece pieces ih =>
    simp [originals_append, piece.originals_units, ih, originals_cons]

theorem correcteds_units (pieces : List Piece) :
    correcteds (pieces.flatMap Piece.units) = correcteds pieces := by
  induction pieces with
  | nil => rfl
  | cons piece pieces ih =>
    simp [correcteds_append, piece.correcteds_units, ih, correcteds_cons]

/-! ## The history -/

/-- The characters that start among the first bytes. -/
def historyChars : Nat → Bytes → Nat → List (Nat × Nat)
  | 0, _, _ => []
  | fuel + 1, s, n =>
    if n = 0 then []
    else
      match splitFirstChar32 s with
      | none => []
      | some (c, len) => (c, len) :: historyChars fuel (s.drop len) (n - len)

/-- The characters of a key that are in the history. -/
def historyOf (key : Bytes) (historySize : Nat) : List (Nat × Nat) :=
  historyChars key.length key (min key.length historySize)

theorem historyChars_reads : ∀ {fuel : Nat} {s : Bytes} {n : Nat}, Reads s (historyChars fuel s n)
  | 0, s, _ => .nil s
  | fuel + 1, s, n => by
    rw [historyChars]
    split
    · exact .nil s
    · split
      · exact .nil s
      · next c len hc => exact .cons hc historyChars_reads

/-- The steps over the history write its characters. -/
theorem Steps.history {inputBegin keyPos pos : Nat} {input : Bytes} {pieces : List Piece}
    (h : Steps inputBegin keyPos pos input pieces) : ∀ {fuel : Nat}, input.length ≤ fuel →
    ∃ rest, correcteds pieces
      = (historyChars fuel input (inputBegin - pos)).flatMap (fun char => codepointToUtf8 char.1) ++
        rest := by
  induction h with
  | done =>
    intro fuel _
    cases fuel with
    | zero => exact ⟨[], rfl⟩
    | succ fuel =>
      refine ⟨[], ?_⟩
      rw [historyChars]
      split <;> rfl
  | @step keyPos pos mblen input output pieces hne hstep hpos hle h ih =>
    intro fuel hfuel
    cases fuel with
    | zero =>
      have hlength := List.length_pos_iff.mpr hne
      omega
    | succ fuel =>
      rw [historyChars]
      by_cases hbegin : inputBegin - pos = 0
      · exact ⟨_, by rw [if_pos hbegin, List.flatMap_nil, List.nil_append]⟩
      · rw [correctionStep, if_pos (by omega)] at hstep
        dsimp only at hstep
        unfold utf8ToCodepointLen at hstep
        rw [if_neg hbegin]
        cases hsplit : splitFirstChar32 input with
        | none =>
          rw [hsplit] at hstep
          cases hstep
          exact absurd hpos (Nat.lt_irrefl 0)
        | some char =>
          rw [hsplit] at hstep
          cases hstep
          simp only [Option.getD_some] at hpos hle ih ⊢
          have hrest : (input.drop char.2).length ≤ fuel := by
            simp
            omega
          obtain ⟨rest, hrest⟩ := ih hrest
          refine ⟨rest, ?_⟩
          rw [correcteds_cons, hrest, List.flatMap_cons, List.append_assoc, Nat.sub_sub]

/-- The characters are written as they are read, but for those that are shortened. -/
theorem take_encoded_iff {s rest : Bytes} {chars : List (Nat × Nat)} (h : Reads s chars)
    (hzero : 0 ∉ chars.map (·.1)) :
    (chars.flatMap (fun char => codepointToUtf8 char.1) ++ rest).take (charBytes chars)
        = s.take (charBytes chars) ↔ ∀ char ∈ chars, ¬IsShortened char.1 := by
  induction h with
  | nil => simp
  | @cons s c len chars hc h ih =>
    rw [List.map_cons, List.mem_cons, not_or] at hzero
    obtain ⟨hlen, hle, -⟩ := splitFirstChar32_some hc
    rw [List.forall_mem_cons, List.flatMap_cons, List.append_assoc, charBytes_cons]
    have htake : (s.take len).length = len := by rw [List.length_take, Nat.min_eq_left hle]
    have hsplit := splitFirstChar32_take hc
    by_cases hshort : IsShortened c
    · refine iff_of_false (fun heq => ?_) fun hall => hall.1 hshort
      obtain ⟨b, tail, b', output, hb, hb', hne⟩ := head_of_shortened hshort
      rw [← (eq_sequenceOf hsplit).2] at hb
      have hs : s = b :: (tail ++ s.drop len) := by
        simp [← List.cons_append, ← hb]
      rw [hs, hb'] at heq
      obtain ⟨n, hn⟩ : ∃ n, len + charBytes chars = n + 1 := ⟨len + charBytes chars - 1, by omega⟩
      rw [hn, List.cons_append, List.take_succ_cons, List.take_succ_cons, List.cons.injEq] at heq
      exact hne heq.1.symm
    · have hcode := codepointToUtf8_of_split hsplit (Ne.symm hzero.1) hshort
      rw [hcode, List.take_add (l := s), List.take_append, htake,
        List.take_of_length_le (by rw [htake]; omega), Nat.add_sub_cancel_left,
        List.append_cancel_left_eq, ih hzero.2]
      exact (and_iff_right hshort).symm

/-! ## Consistent tables -/

/-- The key is cut into pieces, each of them the bytes of one step or one byte of a step that is
aligned byte by byte. -/
def IsCutInto (key : Bytes) (historySize : Nat) (units : List Piece) : Prop :=
  ∃ pieces, Steps (min key.length historySize) 0 0 key pieces ∧ units = pieces.flatMap Piece.units

/-- The part of the original key is corrected to this part of the corrected key. -/
structure IsCorrection (corrector : KeyCorrector) (historySize pos length correctedPos
    correctedLength : Nat) : Prop where
  inside : pos + length ≤ corrector.originalKey.length
  exists_units : ∃ before part after,
    IsCutInto corrector.originalKey historySize (before ++ part ++ after) ∧
    (originals before).length = pos ∧ (correcteds before).length = correctedPos ∧
    (originals part).length = length ∧ (correcteds part).length = correctedLength ∧
    originals part = (corrector.originalKey.drop pos).take length ∧
    correcteds part = (corrector.correctedKey.drop correctedPos).take correctedLength

/-- What the tables of a corrector promise. -/
structure Consistent (corrector : KeyCorrector) (historySize : Nat) : Prop where
  alignment_length : corrector.alignment.length = corrector.originalKey.length
  revAlignment_length : corrector.revAlignment.length = corrector.correctedKey.length
  alignment_increasing : (corrector.alignment.filter isValidPosition).Pairwise (· < ·)
  revAlignment_increasing : (corrector.revAlignment.filter isValidPosition).Pairwise (· < ·)
  inverted : ∀ pos, isValidPosition (corrector.getCorrectedPosition pos) = true →
    corrector.getOriginalPosition (corrector.getCorrectedPosition pos) = pos
  history_copied : corrector.correctedKey.take (charBytes (historyOf corrector.originalKey
    historySize)) = corrector.originalKey.take (charBytes (historyOf corrector.originalKey
      historySize))
  offset : ∀ pos length, length < 2 ^ 64 →
    isValidPosition (corrector.getOriginalOffset pos length) = true →
    IsCorrection corrector historySize pos (corrector.getOriginalOffset pos length)
      (corrector.getCorrectedPosition pos) length

/-- No zero byte, and no character of the history that is written with fewer bytes. -/
def HasWrittenBytes (key : Bytes) (historySize : Nat) : Prop :=
  (0 : UInt8) ∉ key ∧ ∀ char ∈ historyOf key historySize, ¬IsShortened char.1

namespace KeyCorrector

variable {key : Bytes} {mode : InputMode} {historySize : Nat}

theorem exists_steps (h : (new key mode historySize).available = true) :
    mode ≠ .kana ∧ key.length < kMaxKeySize ∧
      ∃ pieces, Steps (min key.length historySize) 0 0 key pieces ∧ new key mode historySize =
        { Corrections.append {} 0 pieces with
          available := true, mode := mode, originalKey := key } := by
  unfold new at h ⊢
  split at h
  · cases h
  · next hmode =>
    split at h
    · cases h
    · next hkey =>
      rw [if_neg hmode, if_neg hkey]
      rw [not_or] at hkey
      refine ⟨hmode, by omega, ?_⟩
      cases hloop : initLoop (min key.length historySize) key.length 0 0 key {} with
      | mk available corrections =>
        rw [hloop] at h
        obtain rfl : available = true := h
        obtain ⟨pieces, hsteps, rfl⟩ := initLoop_eq hloop
        exact ⟨pieces, hsteps, rfl⟩

end KeyCorrector

/-- A corrector by the steps over its key. -/
structure IsCorrector (corrector : KeyCorrector) (historySize : Nat) (pieces : List Piece) :
    Prop where
  available : corrector.available = true
  mode : corrector.mode ≠ .kana
  length_lt : corrector.originalKey.length < kMaxKeySize
  steps : Steps (min corrector.originalKey.length historySize) 0 0 corrector.originalKey pieces
  correctedKey : corrector.correctedKey = correcteds (pieces.flatMap Piece.units)
  alignment : corrector.alignment = Alignment.table Piece.originalSize Piece.correctedSize
    kInvalidPos 0 (pieces.flatMap Piece.units)
  revAlignment : corrector.revAlignment = Alignment.table Piece.correctedSize Piece.originalSize
    kInvalidPos 0 (pieces.flatMap Piece.units)

theorem exists_isCorrector {key : Bytes} {mode : InputMode} {historySize : Nat}
    (h : (KeyCorrector.new key mode historySize).available = true) :
    ∃ pieces, IsCorrector (KeyCorrector.new key mode historySize) historySize pieces ∧
      (KeyCorrector.new key mode historySize).originalKey = key := by
  obtain ⟨hmode, hlength, pieces, hsteps, heq⟩ := KeyCorrector.exists_steps h
  rw [heq]
  exact ⟨pieces, ⟨rfl, hmode, hlength, hsteps, (correcteds_units pieces).symm, rfl, rfl⟩, rfl⟩

/-- A valid position of a table is where a piece starts. -/
theorem exists_of_position {f g : Piece → Nat} {units : List Piece}
    (hsize : ∀ unit ∈ units, 0 < f unit) {pos : Nat}
    (hvalid : isValidPosition ((Alignment.table f g kInvalidPos 0 units).getD pos kInvalidPos)
      = true) : ∃ us w ws, units = us ++ w :: ws ∧ pos = Alignment.total f us ∧
        (Alignment.table f g kInvalidPos 0 units).getD pos kInvalidPos = Alignment.total g us := by
  rw [isValidPosition, bne_iff_ne, List.getD_eq_getElem?_getD] at hvalid
  rw [List.getD_eq_getElem?_getD]
  cases hget : (Alignment.table f g kInvalidPos 0 units)[pos]? with
  | none =>
    simp [hget] at hvalid
  | some c =>
    rw [hget, Option.getD_some] at hvalid
    obtain ⟨us, w, ws, heq, hpos, rfl⟩ := Alignment.exists_of_getElem?_table hvalid hsize hget
    exact ⟨us, w, ws, heq, hpos, Nat.zero_add _⟩

namespace IsCorrector

variable {corrector : KeyCorrector} {historySize : Nat} {pieces : List Piece}

theorem originals_units (h : IsCorrector corrector historySize pieces) :
    originals (pieces.flatMap Piece.units) = corrector.originalKey :=
  (Converter.originals_units pieces).trans h.steps.originals_eq

theorem exists_of_correctedPosition (h : IsCorrector corrector historySize pieces) {pos : Nat}
    (hvalid : isValidPosition (corrector.getCorrectedPosition pos) = true) :
    ∃ us w ws, pieces.flatMap Piece.units = us ++ w :: ws ∧ pos = (originals us).length ∧
      corrector.getCorrectedPosition pos = (correcteds us).length := by
  rw [KeyCorrector.getCorrectedPosition, h.alignment] at hvalid ⊢
  obtain ⟨us, w, ws, heq, hpos, hc⟩ := exists_of_position h.steps.units_sizes.1 hvalid
  exact ⟨us, w, ws, heq, hpos.trans (total_originalSize us), hc.trans (total_correctedSize us)⟩

theorem isCorrection (h : IsCorrector corrector historySize pieces) {us part ws : List Piece}
    (heq : pieces.flatMap Piece.units = us ++ part ++ ws) :
    IsCorrection corrector historySize (originals us).length (originals part).length
      (correcteds us).length (correcteds part).length := by
  have horiginal := h.originals_units
  have hcorrected := h.correctedKey
  rw [heq, originals_append, originals_append] at horiginal
  rw [heq, correcteds_append, correcteds_append] at hcorrected
  refine ⟨?_, us, part, ws, ⟨pieces, h.steps, heq.symm⟩, rfl, rfl, rfl, rfl, ?_, ?_⟩
  · simp [← horiginal]
  · simp [← horiginal]
  · simp [hcorrected]

theorem length_correctedKey_lt (h : IsCorrector corrector historySize pieces) :
    corrector.correctedKey.length < 2 ^ 64 := by
  have hle := h.steps.length_correcteds_le
  have hlt := h.length_lt
  rw [← correcteds_units, ← h.correctedKey] at hle
  rw [kMaxKeySize] at hlt
  omega

theorem length_alignment (h : IsCorrector corrector historySize pieces) :
    corrector.alignment.length = corrector.originalKey.length := by
  rw [h.alignment, Alignment.length_table_of_pos h.steps.units_sizes.1, total_originalSize,
    h.originals_units]

variable (h : IsCorrector corrector historySize pieces)
  (hzero : (0 : UInt8) ∉ corrector.originalKey)
include h hzero

theorem correctedSize_pos : ∀ unit ∈ pieces.flatMap Piece.units, 0 < unit.correctedSize :=
  h.steps.units_sizes.2.mpr hzero

theorem exists_of_originalPosition {pos : Nat}
    (hvalid : isValidPosition (corrector.getOriginalPosition pos) = true) :
    ∃ us w ws, pieces.flatMap Piece.units = us ++ w :: ws ∧ pos = (correcteds us).length ∧
      corrector.getOriginalPosition pos = (originals us).length := by
  rw [KeyCorrector.getOriginalPosition, h.revAlignment] at hvalid ⊢
  obtain ⟨us, w, ws, heq, hpos, hc⟩ := exists_of_position (h.correctedSize_pos hzero) hvalid
  exact ⟨us, w, ws, heq, hpos.trans (total_correctedSize us), hc.trans (total_originalSize us)⟩

/-- Where a piece starts in the corrected key, it starts in the original key. -/
theorem getOriginalPosition_eq {us ws : List Piece} {w : Piece}
    (heq : pieces.flatMap Piece.units = us ++ w :: ws) :
    corrector.getOriginalPosition (correcteds us).length = (originals us).length := by
  have hpos := h.correctedSize_pos hzero
  rw [heq] at hpos
  have hget : (Alignment.table Piece.correctedSize Piece.originalSize kInvalidPos 0
      (us ++ w :: ws))[Alignment.total Piece.correctedSize us]?
        = some (0 + Alignment.total Piece.originalSize us) :=
    Alignment.getElem?_table_start (fun unit hunit => hpos unit (List.mem_append_left _ hunit)) 0
  rw [total_correctedSize, total_originalSize, Nat.zero_add, ← heq, ← h.revAlignment] at hget
  simp [KeyCorrector.getOriginalPosition, List.getD_eq_getElem?_getD, hget]

theorem length_revAlignment : corrector.revAlignment.length = corrector.correctedKey.length := by
  rw [h.revAlignment, Alignment.length_table_of_pos (h.correctedSize_pos hzero),
    total_correctedSize, h.correctedKey]

theorem offset_spec {pos length : Nat} (hlength : length < 2 ^ 64)
    (hvalid : isValidPosition (corrector.getOriginalOffset pos length) = true) :
    IsCorrection corrector historySize pos (corrector.getOriginalOffset pos length)
      (corrector.getCorrectedPosition pos) length := by
  have hinvalid : isValidPosition kInvalidPos = false := by simp [isValidPosition]
  have hlt := h.length_correctedKey_lt
  have hkey := h.length_lt
  rw [kMaxKeySize] at hkey
  unfold KeyCorrector.getOriginalOffset at hvalid ⊢
  rw [h.available, Bool.not_true, if_neg Bool.false_ne_true, if_neg h.mode] at hvalid ⊢
  dsimp only at hvalid ⊢
  split at hvalid
  · simp [hinvalid] at hvalid
  · next hposition =>
    rw [if_neg hposition]
    obtain ⟨us, w, ws, heq, rfl, hc⟩ :=
      h.exists_of_correctedPosition (by simpa using hposition)
    have hw := h.correctedSize_pos hzero w (by rw [heq]; simp)
    have hcorrected := congrArg List.length h.correctedKey
    rw [heq, correcteds_append, correcteds_cons, List.length_append,
      List.length_append] at hcorrected
    rw [Piece.correctedSize] at hw
    rw [hc] at hvalid ⊢
    split at hvalid
    · next hend =>
      -- the rest of the key: the sum does not wrap around, for the position is not the end
      rw [h.length_revAlignment hzero] at hend
      have hsum : (correcteds us).length + length < 2 ^ 64 := by omega
      rw [Nat.mod_eq_of_lt hsum] at hend
      have hpart : (correcteds (w :: ws)).length = length := by
        simp [correcteds_cons]
        omega
      have horiginal := congrArg List.length h.originals_units
      rw [heq, originals_append, List.length_append] at horiginal
      have hoffset : (2 ^ 64 + corrector.alignment.length -
          corrector.getOriginalPosition (correcteds us).length) % 2 ^ 64
            = (originals (w :: ws)).length := by
        rw [h.length_alignment, h.getOriginalPosition_eq hzero heq]
        omega
      rw [if_pos (by rw [h.length_revAlignment hzero, Nat.mod_eq_of_lt hsum, hend]), hoffset,
        ← hpart]
      exact h.isCorrection (by rw [heq, List.append_nil])
    · next hend =>
      rw [if_neg hend]
      split at hvalid
      · simp [hinvalid] at hvalid
      · next hposition' =>
        rw [if_neg hposition']
        split at hvalid
        · next hle =>
          rw [if_pos hle]
          rw [Bool.not_eq_true, Bool.not_eq_false'] at hposition'
          obtain ⟨us', w', ws', heq', hplace, horiginal⟩ :=
            h.exists_of_originalPosition hzero hposition'
          rw [horiginal] at hle ⊢
          -- the second position is not before the first one
          have hpos := h.steps.units_sizes.1
          rw [heq] at hpos
          obtain ⟨part, rfl⟩ : ∃ part, us' = us ++ part := by
            refine Alignment.exists_between (heq.symm.trans heq') ?_
              fun unit hunit => hpos unit (List.mem_append_left _ hunit)
            simpa [total_originalSize] using hle
          rw [correcteds_append, List.length_append] at hplace
          have hpart : length = (correcteds part).length := by omega
          simpa [originals_append, hpart] using h.isCorrection heq'
        · simp [hinvalid] at hvalid

end IsCorrector

/-- **The tables are consistent if and only if each character of the key is written, and each of
the history with as many bytes as it was read from.** -/
theorem consistent_iff {key : Bytes} {mode : InputMode} {historySize : Nat}
    (h : (KeyCorrector.new key mode historySize).available = true) :
    Consistent (KeyCorrector.new key mode historySize) historySize ↔
      HasWrittenBytes key historySize := by
  obtain ⟨pieces, hcorrector, hkey⟩ := exists_isCorrector h
  generalize KeyCorrector.new key mode historySize = corrector at hcorrector hkey ⊢
  subst hkey
  have hhistory : ∃ rest, corrector.correctedKey = (historyOf corrector.originalKey
      historySize).flatMap (fun char => codepointToUtf8 char.1) ++ rest := by
    rw [hcorrector.correctedKey, correcteds_units]
    exact hcorrector.steps.history (Nat.le_refl _)
  obtain ⟨rest, hrest⟩ := hhistory
  have hreads : Reads corrector.originalKey (historyOf corrector.originalKey historySize) :=
    historyChars_reads
  have hcodes : (0 : UInt8) ∉ corrector.originalKey →
      0 ∉ (historyOf corrector.originalKey historySize).map (·.1) := by
    intro hzero hmem
    exact hzero (List.mem_of_mem_take (hreads.zero_mem.mpr hmem))
  constructor
  · intro hconsistent
    have hzero : (0 : UInt8) ∉ corrector.originalKey := by
      have hlength := hconsistent.revAlignment_length
      rw [hcorrector.revAlignment, hcorrector.correctedKey, ← total_correctedSize,
        Alignment.length_table_eq_iff] at hlength
      exact hcorrector.steps.units_sizes.2.mp hlength
    have hcopied := hconsistent.history_copied
    rw [hrest, take_encoded_iff hreads (hcodes hzero)] at hcopied
    exact ⟨hzero, hcopied⟩
  · rintro ⟨hzero, hwritten⟩
    refine ⟨hcorrector.length_alignment, hcorrector.length_revAlignment hzero, ?_, ?_, ?_, ?_,
      fun pos length hlength hvalid => hcorrector.offset_spec hzero hlength hvalid⟩
    · rw [hcorrector.alignment]
      exact Alignment.pairwise_table (hcorrector.correctedSize_pos hzero)
    · rw [hcorrector.revAlignment]
      exact Alignment.pairwise_table hcorrector.steps.units_sizes.1
    · intro pos hvalid
      obtain ⟨us, w, ws, heq, rfl, hc⟩ := hcorrector.exists_of_correctedPosition hvalid
      rw [hc, hcorrector.getOriginalPosition_eq hzero heq]
    · rw [hrest, take_encoded_iff hreads (hcodes hzero)]
      exact hwritten

/-- "みんあ" after a history of one character. -/
theorem consistent_iff_minna :
    Consistent (KeyCorrector.new (utf8 "みんあ") .roman 3) 3 ↔ HasWrittenBytes (utf8 "みんあ") 3 :=
  consistent_iff (by decide)

/-- The table of the corrected key has an entry for U+0000, for which nothing is written. -/
theorem not_consistent_nul : (KeyCorrector.new [0x61, 0] .roman 0).available = true ∧
    ¬Consistent (KeyCorrector.new [0x61, 0] .roman 0) 0 := by
  refine ⟨by decide, fun h => ?_⟩
  have hlength := h.revAlignment_length
  exact absurd hlength (by decide)

end Mozkey.Converter
