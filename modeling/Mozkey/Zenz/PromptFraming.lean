import Mozkey.Base.Utf8
import Mathlib.Tactic.IntervalCases
import Mathlib.Tactic.NormNum
import Mozkey.Infra.Framing

/-!
# The framing of a prompt

A prompt is a frame: every text stands behind its marker (`build_eq_frame`). Condition texts are
stripped of the markers and the reading is not, it only goes through `hiraganaToKatakana`. So
the prompt can be taken apart at its markers if and only if the reading holds none
(`injectionFree_iff`).
-/

/-!
## The prompt

`session/zenz_prompt_builder.cc`. A prompt is a sequence of texts, each behind its marker. The
markers are code points of the private use area, so condition text is stripped of the whole
range U+EE00..U+EE0F before it is put between them.
-/

namespace Mozkey.Zenz.PromptBuilder

open Infra Base

def kZenzReadingBegin : Bytes := [0xEE, 0xB8, 0x80]
def kZenzOutputBegin : Bytes := [0xEE, 0xB8, 0x81]
def kZenzContextBegin : Bytes := [0xEE, 0xB8, 0x82]
def kZenzProfileBegin : Bytes := [0xEE, 0xB8, 0x83]
def kZenzTopicBegin : Bytes := [0xEE, 0xB8, 0x84]
def kZenzStyleBegin : Bytes := [0xEE, 0xB8, 0x85]
def kZenzSettingsBegin : Bytes := [0xEE, 0xB8, 0x86]
def kZenzRightContextBegin : Bytes := [0xEE, 0xB8, 0x87]

def kMaxZenzConditionChars : Nat := 64

def appendUtf8 (codepoint : Nat) : Bytes :=
  if codepoint ≤ 0x7F then [UInt8.ofNat codepoint]
  else if codepoint ≤ 0x7FF then [leading 0xC0 (codepoint / 64 % 32), trailing codepoint]
  else if codepoint ≤ 0xFFFF then
    [leading 0xE0 (codepoint / 4096 % 16), trailing (codepoint / 64), trailing codepoint]
  else
    [leading 0xF0 (codepoint / 262144 % 8), trailing (codepoint / 4096),
      trailing (codepoint / 64), trailing codepoint]

def isZenzControlCodepoint (codepoint : Nat) : Bool := 0xEE00 ≤ codepoint && codepoint ≤ 0xEE0F

def isUnsafeControlCodepoint (codepoint : Nat) : Bool := codepoint < 0x20 || codepoint == 0x7F

/-- What a code point contributes to a condition text. -/
def sanitizeCodepoint (cp : Nat) : Option Bytes :=
  if isZenzControlCodepoint cp then none
  else if isUnsafeControlCodepoint cp then
    if cp = 0x09 || cp = 0x0A || cp = 0x0D then some [0x20] else none
  else some (appendUtf8 cp)

/-- Reading stops at an ill-formed sequence. No limit when `maxChars` is 0. -/
def sanitizeConditionText (input : Bytes) (maxChars : Nat) : Bytes :=
  let chars := (walk decodeOneUtf8 input).1.filterMap sanitizeCodepoint
  (if 0 < maxChars then chars.take maxChars else chars).flatten

/-- The rest behind an ill-formed sequence is kept as it is. -/
def hiraganaToKatakana (input : Bytes) : Bytes :=
  let (cps, unread) := walk decodeOneUtf8 input
  cps.flatMap (fun cp => appendUtf8 (if 0x3041 ≤ cp && cp ≤ 0x3096 then cp + 0x60 else cp)) ++
    unread

structure ZenzPromptOptions where
  leftContext : Bytes := []
  rightContext : Bytes := []
  profile : Bytes := []
  topic : Bytes := []
  style : Bytes := []
  settings : Bytes := []

/-- A condition with its marker, nothing when it is empty. -/
def condition (marker text : Bytes) : Bytes := if text.isEmpty then [] else marker ++ text

def build (readingHiragana : Bytes) (options : ZenzPromptOptions) : Bytes :=
  kZenzContextBegin ++ sanitizeConditionText options.leftContext 0 ++
  condition kZenzRightContextBegin (sanitizeConditionText options.rightContext 0) ++
  condition kZenzProfileBegin (sanitizeConditionText options.profile kMaxZenzConditionChars) ++
  condition kZenzTopicBegin (sanitizeConditionText options.topic kMaxZenzConditionChars) ++
  condition kZenzStyleBegin (sanitizeConditionText options.style kMaxZenzConditionChars) ++
  condition kZenzSettingsBegin (sanitizeConditionText options.settings kMaxZenzConditionChars) ++
  kZenzReadingBegin ++ hiraganaToKatakana readingHiragana ++ kZenzOutputBegin

open Framing

/-! ## Markers -/

inductive Marker where
  | context
  | rightContext
  | profile
  | topic
  | style
  | settings
  | reading
  | output
  deriving DecidableEq, Repr

/-- The order in which `Build` writes the markers. -/
def Marker.order : List Marker :=
  [.context, .rightContext, .profile, .topic, .style, .settings, .reading, .output]

def Marker.code : Marker → Bytes
  | .context => kZenzContextBegin
  | .rightContext => kZenzRightContextBegin
  | .profile => kZenzProfileBegin
  | .topic => kZenzTopicBegin
  | .style => kZenzStyleBegin
  | .settings => kZenzSettingsBegin
  | .reading => kZenzReadingBegin
  | .output => kZenzOutputBegin

/-- The marker that a text begins with. -/
def markerAt (text : Bytes) : Option (Marker × Nat) :=
  (Marker.order.find? fun m => m.code.isPrefixOf text).map fun m => (m, m.code.length)

theorem Marker.mem_order (m : Marker) : m ∈ order := by cases m <;> decide

theorem Marker.code_length (m : Marker) : m.code.length = 3 := by cases m <;> rfl

theorem Marker.code_injective {m n : Marker} (h : m.code = n.code) : m = n := by
  revert h
  cases m <;> cases n <;> decide

/-- The bytes of a marker, the last one by its distance from U+EE00. -/
theorem Marker.code_bytes (m : Marker) :
    ∃ k, k < 8 ∧ m.code = [0xEE, 0xB8, UInt8.ofNat (0x80 + k)] := by
  cases m
  · exact ⟨2, by decide⟩
  · exact ⟨7, by decide⟩
  · exact ⟨3, by decide⟩
  · exact ⟨4, by decide⟩
  · exact ⟨5, by decide⟩
  · exact ⟨6, by decide⟩
  · exact ⟨0, by decide⟩
  · exact ⟨1, by decide⟩

theorem markerAt_eq_none {text : Bytes} :
    markerAt text = none ↔ ∀ m : Marker, ¬m.code <+: text := by
  rw [markerAt, Option.map_eq_none_iff, List.find?_eq_none]
  constructor
  · intro h m hm
    exact h m m.mem_order (List.isPrefixOf_iff_prefix.mpr hm)
  · intro h m _ hm
    exact h m (List.isPrefixOf_iff_prefix.mp hm)

theorem prefix_of_markerAt {text : Bytes} {m : Marker} {len : Nat}
    (h : markerAt text = some (m, len)) : m.code <+: text ∧ len = 3 := by
  rw [markerAt, Option.map_eq_some_iff] at h
  obtain ⟨m', hfind, heq⟩ := h
  rw [Prod.mk.injEq] at heq
  obtain ⟨rfl, rfl⟩ := heq
  have hm := List.find?_some hfind
  exact ⟨List.isPrefixOf_iff_prefix.mp hm, m'.code_length⟩

theorem markerAt_eq_some {text : Bytes} {m : Marker} {len : Nat} :
    markerAt text = some (m, len) ↔ m.code <+: text ∧ len = 3 := by
  constructor
  · exact prefix_of_markerAt
  · rintro ⟨hm, rfl⟩
    cases hat : markerAt text with
    | none => exact absurd hm (markerAt_eq_none.mp hat m)
    | some found =>
      obtain ⟨n, len⟩ := found
      obtain ⟨hn, rfl⟩ := prefix_of_markerAt hat
      have hcode : n.code = m.code := by
        refine (List.prefix_of_prefix_length_le hn hm ?_).eq_of_length ?_ <;>
          simp [Marker.code_length]
      rw [Marker.code_injective hcode]

/-- No marker begins with another byte. -/
theorem markerAt_of_ne {b : UInt8} (hb : b ≠ 0xEE) (rest : Bytes) :
    markerAt (b :: rest) = none := by
  rw [markerAt_eq_none]
  intro m hm
  obtain ⟨k, -, hcode⟩ := m.code_bytes
  rw [hcode, List.cons_prefix_cons] at hm
  exact hb hm.1.symm

theorem markerAt_local : Local markerAt := by
  intro text m len h
  obtain ⟨hm, rfl⟩ := markerAt_eq_some.mp h
  refine ⟨by omega, ?_, fun rest => ?_⟩
  · have hlen := hm.length_le
    rwa [Marker.code_length] at hlen
  · exact markerAt_eq_some.mpr ⟨hm.trans (List.prefix_append text rest), rfl⟩

theorem markerAt_coded : Coded markerAt Marker.code := by
  intro m
  have hlen := m.code_length
  constructor
  · intro hnil
    simp [hnil] at hlen
  · intro rest
    exact markerAt_eq_some.mpr ⟨List.prefix_append _ _, hlen⟩

/-- A marker is not completed by the one behind it: its first byte occurs only once. -/
theorem apart_code (text : Bytes) (m : Marker) : Apart markerAt text m.code := by
  intro s _ hne
  obtain ⟨k, hk, hcode⟩ := m.code_bytes
  have hnone : ∀ n : Marker, n.code <+: s ++ m.code → n.code <+: s := by
    intro n hn
    obtain ⟨j, hj, hncode⟩ := n.code_bytes
    have hlast : UInt8.ofNat (0x80 + j) ≠ 0xEE := by
      interval_cases j <;> decide
    rw [hncode, hcode] at hn
    rw [hncode]
    match s, hne with
    | [a], _ =>
      simp [List.cons_prefix_cons] at hn
    | [a, b], _ =>
      rw [List.cons_append, List.cons_append, List.nil_append, List.cons_prefix_cons,
        List.cons_prefix_cons, List.cons_prefix_cons] at hn
      exact absurd hn.2.2.1 hlast
    | a :: b :: c :: s, _ =>
      simp only [List.cons_append, List.cons_prefix_cons] at hn ⊢
      exact ⟨hn.1, hn.2.1, hn.2.2.1, List.nil_prefix⟩
  cases hs : markerAt s with
  | none =>
    rw [markerAt_eq_none] at hs ⊢
    exact fun n hn => hs n (hnone n hn)
  | some found =>
    obtain ⟨n, len⟩ := found
    exact (markerAt_local s n len hs).2.2 m.code

/-! ## Code points -/

/-- U+EE00..U+EE07. -/
def isMarkerCodepoint (codepoint : Nat) : Bool := 0xEE00 ≤ codepoint && codepoint ≤ 0xEE07

theorem trailing_ne (value : Nat) : trailing value ≠ 0xEE := by
  intro h
  have hv := congrArg UInt8.toNat h
  rw [trailing, toNat_ofNat_byte (by omega), show (0xEE : UInt8).toNat = 0xEE from rfl] at hv
  omega

theorem leading_ne {base value : Nat} (hlt : base + value < 256) (hne : base + value ≠ 0xEE) :
    leading base value ≠ 0xEE := by
  intro h
  have hv := congrArg UInt8.toNat h
  rw [leading, toNat_ofNat_byte hlt] at hv
  exact hne hv

/-- No marker begins in bytes none of which begins a marker. -/
theorem plain_of_ne {x : Bytes} (h : ∀ b ∈ x, b ≠ 0xEE) : Plain markerAt x := by
  intro s hs hne rest
  cases s with
  | nil => exact absurd rfl hne
  | cons b s => exact markerAt_of_ne (h b (hs.subset List.mem_cons_self)) (s ++ rest)

/-- The bytes of another code point begin no marker. -/
theorem plain_appendUtf8 {cp : Nat} (h : isMarkerCodepoint cp = false) :
    Plain markerAt (appendUtf8 cp) := by
  unfold appendUtf8
  split
  · refine plain_of_ne ?_
    intro b hb
    rw [List.mem_singleton] at hb
    subst hb
    intro heq
    have hv := congrArg UInt8.toNat heq
    rw [toNat_ofNat_byte (by omega), show (0xEE : UInt8).toNat = 0xEE from rfl] at hv
    omega
  · split
    · refine plain_of_ne ?_
      intro b hb
      simp only [List.mem_cons, List.not_mem_nil, or_false] at hb
      rcases hb with rfl | rfl
      · exact leading_ne (by omega) (by omega)
      · exact trailing_ne _
    · split
      · next hsize =>
        intro s hs hne rest
        rcases List.suffix_cons_iff.mp hs with rfl | hs
        · -- a marker here is the whole character
          rw [markerAt_eq_none]
          intro m hm
          obtain ⟨k, hk, hcode⟩ := m.code_bytes
          simp only [hcode, List.cons_append, List.cons_prefix_cons] at hm
          obtain ⟨h1, h2, h3, -⟩ := hm
          have h1 := congrArg UInt8.toNat h1
          have h2 := congrArg UInt8.toNat h2
          have h3 := congrArg UInt8.toNat h3
          rw [leading, toNat_ofNat_byte (by omega)] at h1
          rw [trailing, toNat_ofNat_byte (by omega)] at h2 h3
          rw [toNat_ofNat_byte (by omega)] at h3
          rw [show (0xEE : UInt8).toNat = 0xEE from rfl] at h1
          rw [show (0xB8 : UInt8).toNat = 0xB8 from rfl] at h2
          simp [isMarkerCodepoint, decide_eq_false_iff_not] at h
          omega
        · have htrail : Plain markerAt [trailing (cp / 64), trailing cp] := by
            refine plain_of_ne ?_
            intro b hb
            simp only [List.mem_cons, List.not_mem_nil, or_false] at hb
            rcases hb with rfl | rfl <;> exact trailing_ne _
          exact htrail s hs hne rest
      · refine plain_of_ne ?_
        intro b hb
        simp only [List.mem_cons, List.not_mem_nil, or_false] at hb
        rcases hb with rfl | rfl | rfl | rfl
        · exact leading_ne (by omega) (by omega)
        · exact trailing_ne _
        · exact trailing_ne _
        · exact trailing_ne _

/-- A marker's code point is written as the marker. -/
theorem exists_code {cp : Nat} (h : isMarkerCodepoint cp = true) :
    ∃ m : Marker, appendUtf8 cp = m.code := by
  rw [isMarkerCodepoint, Bool.and_eq_true, decide_eq_true_eq, decide_eq_true_eq] at h
  obtain ⟨hlo, hhi⟩ := h
  interval_cases cp
  · exact ⟨.reading, by decide⟩
  · exact ⟨.output, by decide⟩
  · exact ⟨.context, by decide⟩
  · exact ⟨.profile, by decide⟩
  · exact ⟨.topic, by decide⟩
  · exact ⟨.style, by decide⟩
  · exact ⟨.settings, by decide⟩
  · exact ⟨.rightContext, by decide⟩

/-! ## Texts of a prompt -/

theorem plain_sanitizeCodepoint {cp : Nat} {x : Bytes} (h : sanitizeCodepoint cp = some x) :
    Plain markerAt x := by
  unfold sanitizeCodepoint at h
  split at h
  · cases h
  · next hcontrol =>
    split at h
    · split at h
      · cases h
        exact plain_of_ne (by decide +kernel)
      · cases h
    · cases h
      refine plain_appendUtf8 ?_
      rw [isZenzControlCodepoint, Bool.and_eq_true, decide_eq_true_eq,
        decide_eq_true_eq] at hcontrol
      simp [isMarkerCodepoint, decide_eq_false_iff_not]
      omega

/-- **No marker gets through into a condition text.** -/
theorem plain_sanitizeConditionText (input : Bytes) (maxChars : Nat) :
    Plain markerAt (sanitizeConditionText input maxChars) := by
  refine plain_flatten fun x hx => ?_
  have hmem : x ∈ (walk decodeOneUtf8 input).1.filterMap sanitizeCodepoint := by
    split at hx
    · exact List.mem_of_mem_take hx
    · exact hx
  obtain ⟨cp, -, hcp⟩ := List.mem_filterMap.mp hmem
  exact plain_sanitizeCodepoint hcp

/-- The code point of a reading after the conversion to katakana. -/
def toKatakana (cp : Nat) : Nat := if 0x3041 ≤ cp && cp ≤ 0x3096 then cp + 0x60 else cp

theorem isMarkerCodepoint_toKatakana (cp : Nat) :
    isMarkerCodepoint (toKatakana cp) = isMarkerCodepoint cp := by
  unfold toKatakana
  split
  · next h =>
    rw [Bool.and_eq_true, decide_eq_true_eq, decide_eq_true_eq] at h
    have hout : ∀ n, n < 0xEE00 → isMarkerCodepoint n = false := by
      intro n hn
      rw [isMarkerCodepoint, Bool.and_eq_false_iff, decide_eq_false_iff_not]
      exact Or.inl (by omega)
    rw [hout _ (by omega), hout _ (by omega)]
  · rfl

theorem hiraganaToKatakana_eq (input : Bytes) : hiraganaToKatakana input =
    (walk decodeOneUtf8 input).1.flatMap (fun cp => appendUtf8 (toKatakana cp)) ++
      (walk decodeOneUtf8 input).2 := rfl

/-- Encoded code points show exactly the markers among them. -/
theorem marks_encoded (rest : Bytes) : ∀ cps : List Nat,
    marks markerAt (cps.flatMap (fun cp => appendUtf8 (toKatakana cp)) ++ rest) = [] ↔
      cps.any isMarkerCodepoint = false ∧ marks markerAt rest = []
  | [] => by simp
  | cp :: cps => by
    have ih := marks_encoded rest cps
    rw [List.flatMap_cons, List.append_assoc, List.any_cons, Bool.or_eq_false_iff, and_assoc]
    cases hcp : isMarkerCodepoint cp with
    | false =>
      rw [← isMarkerCodepoint_toKatakana] at hcp
      simp [marks_plain (plain_appendUtf8 hcp), ih]
    | true =>
      rw [← isMarkerCodepoint_toKatakana] at hcp
      obtain ⟨m, hm⟩ := exists_code hcp
      simp [hm, marks_code markerAt_coded]

/-! ## The frame -/

/-- The markers that `Build` writes whether or not a text follows. -/
def Marker.isFraming : Marker → Bool
  | .context | .reading | .output => true
  | _ => false

/-- What `Build` puts behind a marker. -/
def Marker.text (readingHiragana : Bytes) (options : ZenzPromptOptions) : Marker → Bytes
  | .context => sanitizeConditionText options.leftContext 0
  | .rightContext => sanitizeConditionText options.rightContext 0
  | .profile => sanitizeConditionText options.profile kMaxZenzConditionChars
  | .topic => sanitizeConditionText options.topic kMaxZenzConditionChars
  | .style => sanitizeConditionText options.style kMaxZenzConditionChars
  | .settings => sanitizeConditionText options.settings kMaxZenzConditionChars
  | .reading => hiraganaToKatakana readingHiragana
  | .output => []

section

variable (readingHiragana : Bytes) (options : ZenzPromptOptions)

def Marker.isWritten (m : Marker) : Bool :=
  m.isFraming || !(m.text readingHiragana options).isEmpty

/-- The texts of a prompt with their markers. -/
def pieces (ms : List Marker) : List (Marker × Bytes) :=
  (ms.filter fun m => m.isWritten readingHiragana options).map
    fun m => (m, m.text readingHiragana options)

def conditionMarkers : List Marker :=
  [.context, .rightContext, .profile, .topic, .style, .settings]

theorem frame_pieces_cons (m : Marker) (ms : List Marker) :
    frame Marker.code (pieces readingHiragana options (m :: ms)) =
      (if m.isWritten readingHiragana options then m.code ++ m.text readingHiragana options else [])
        ++ frame Marker.code (pieces readingHiragana options ms) := by
  unfold pieces
  rw [List.filter_cons]
  split
  · rfl
  · rfl

/-- A condition is a piece that is left out when it is empty. -/
theorem condition_eq (m : Marker) (h : m.isFraming = false) :
    (if m.isWritten readingHiragana options then m.code ++ m.text readingHiragana options else [])
      = condition m.code (m.text readingHiragana options) := by
  rw [Marker.isWritten, h, condition]
  cases (m.text readingHiragana options).isEmpty <;> rfl

/-- **A prompt is the frame of its texts.** -/
theorem build_eq_frame : build readingHiragana options =
    frame Marker.code (pieces readingHiragana options conditionMarkers) ++
      (kZenzReadingBegin ++ hiraganaToKatakana readingHiragana ++ kZenzOutputBegin) := by
  unfold conditionMarkers
  rw [frame_pieces_cons, frame_pieces_cons, condition_eq _ _ .rightContext rfl, frame_pieces_cons,
    condition_eq _ _ .profile rfl, frame_pieces_cons, condition_eq _ _ .topic rfl,
    frame_pieces_cons, condition_eq _ _ .style rfl, frame_pieces_cons,
    condition_eq _ _ .settings rfl]
  simp [build, pieces, frame, Marker.isWritten, Marker.isFraming, Marker.code, Marker.text]

theorem plain_of_mem_pieces {p : Marker × Bytes}
    (h : p ∈ pieces readingHiragana options conditionMarkers) : Plain markerAt p.2 := by
  obtain ⟨m, hm, rfl⟩ := List.mem_map.mp h
  have hm := List.mem_of_mem_filter hm
  revert hm
  cases m <;> intro hm
  case reading => exact absurd hm (by decide)
  case output => exact absurd hm (by decide)
  all_goals exact plain_sanitizeConditionText _ _

theorem lookup_pieces (m : Marker) : ∀ ms : List Marker,
    (pieces readingHiragana options ms).lookup m =
      if m ∈ ms ∧ m.isWritten readingHiragana options then some (m.text readingHiragana options)
      else none
  | [] => by simp [pieces]
  | n :: ms => by
    have ih := lookup_pieces m ms
    unfold pieces at ih ⊢
    rw [List.filter_cons]
    split
    · next hn =>
      rw [List.map_cons, List.lookup_cons]
      by_cases hmn : m = n
      · subst hmn
        simp [hn]
      · simp [beq_false_of_ne hmn, ih, hmn]
    · next hn =>
      rw [ih]
      by_cases hmn : m = n
      · subst hmn
        simp [hn]
      · simp [hmn]

theorem text_of_not_written {m : Marker} (h : m.isWritten readingHiragana options = false) :
    m.text readingHiragana options = [] := by
  rw [Marker.isWritten, Bool.or_eq_false_iff, Bool.not_eq_false', List.isEmpty_iff] at h
  exact h.2

/-! ## What splitting a prompt gives -/

theorem marks_build : marks markerAt (build readingHiragana options) =
    (pieces readingHiragana options conditionMarkers).map (·.1) ++
      .reading :: (marks markerAt (hiraganaToKatakana readingHiragana) ++ [.output]) := by
  have hplain := fun p hp => plain_of_mem_pieces readingHiragana options (p := p) hp
  have hreading := markerAt_coded .reading
  rw [build_eq_frame, List.append_assoc, marks_frame_append markerAt_coded hplain]
  · have houtput : marks markerAt (hiraganaToKatakana readingHiragana ++ kZenzOutputBegin) =
        marks markerAt (hiraganaToKatakana readingHiragana) ++ [.output] :=
      marks_append markerAt_local _ _ (Nat.le_refl _) (apart_code _ .output)
    show _ ++ marks markerAt (Marker.reading.code ++ _) = _
    rw [marks_code markerAt_coded, houtput]
  · show (cut markerAt (Marker.reading.code ++ _)).1 = []
    rw [cut_mark hreading.1 _ (hreading.2 _)]

theorem cut_build (h : marks markerAt (hiraganaToKatakana readingHiragana) = []) :
    cut markerAt (build readingHiragana options) =
      ([], pieces readingHiragana options Marker.order) := by
  have hplain := fun p hp => plain_of_mem_pieces readingHiragana options (p := p) hp
  have hreading := markerAt_coded .reading
  have hrest : cut markerAt
      (kZenzReadingBegin ++ hiraganaToKatakana readingHiragana ++ kZenzOutputBegin) =
      ([], [(.reading, hiraganaToKatakana readingHiragana), (.output, [])]) := by
    have houtput : cut markerAt (hiraganaToKatakana readingHiragana ++ kZenzOutputBegin) =
        (hiraganaToKatakana readingHiragana ++ [], [(.output, [])]) :=
      cut_append_of_marks_nil (apart_code _ .output) h
    rw [List.append_assoc]
    show cut markerAt (Marker.reading.code ++ _) = _
    simp [cut_mark hreading.1 _ (hreading.2 _), houtput]
  rw [build_eq_frame, cut_frame_append markerAt_coded hplain (by rw [hrest]), hrest]
  have horder : Marker.order = conditionMarkers ++ [.reading, .output] := rfl
  rw [horder]
  unfold pieces
  rw [List.filter_append, List.map_append]
  rfl

end

/-! ## Injection -/

/-- The markers of the prompt are in the fixed order, each at most once and only where a text
of its own stands, and splitting at the markers gives every text back. -/
structure InjectionFree (readingHiragana : Bytes) (options : ZenzPromptOptions) : Prop where
  leading : (cut markerAt (build readingHiragana options)).1 = []
  ordered : (marks markerAt (build readingHiragana options)).Sublist Marker.order
  introduced : ∀ m ∈ marks markerAt (build readingHiragana options),
    m.isFraming = true ∨ m.text readingHiragana options ≠ []
  recovered : ∀ m : Marker, pieceOf markerAt m (build readingHiragana options) =
    m.text readingHiragana options

/-- A code point of the reading is a marker, or the bytes behind an ill-formed sequence, which are
not converted, hold one. -/
def readingHoldsMarker (readingHiragana : Bytes) : Bool :=
  (walk decodeOneUtf8 readingHiragana).1.any isMarkerCodepoint ||
    !(marks markerAt (walk decodeOneUtf8 readingHiragana).2).isEmpty

theorem readingHoldsMarker_eq_false (readingHiragana : Bytes) :
    readingHoldsMarker readingHiragana = false ↔
      marks markerAt (hiraganaToKatakana readingHiragana) = [] := by
  simp [readingHoldsMarker, hiraganaToKatakana_eq, marks_encoded]

/-- Nothing fits between the last two markers. -/
theorem nil_of_ordered {before between : List Marker}
    (h : (before ++ Marker.reading :: (between ++ [Marker.output])).Sublist Marker.order) :
    between = [] := by
  have hsorted : Marker.order.Pairwise fun a b => Marker.order.idxOf a < Marker.order.idxOf b := by
    decide
  have hpair := (List.pairwise_append.mp (hsorted.sublist h)).2.1
  rw [List.pairwise_cons, List.pairwise_append] at hpair
  obtain ⟨hreading, -, -, houtput⟩ := hpair
  cases between with
  | nil => rfl
  | cons m between =>
    have hlo := hreading m (by simp)
    have hhi := houtput m List.mem_cons_self .output List.mem_cons_self
    rw [show Marker.order.idxOf Marker.reading = 6 from by decide] at hlo
    rw [show Marker.order.idxOf Marker.output = 7 from by decide] at hhi
    omega

theorem marks_nil_of_injectionFree {readingHiragana : Bytes} {options : ZenzPromptOptions}
    (h : InjectionFree readingHiragana options) :
    marks markerAt (hiraganaToKatakana readingHiragana) = [] := by
  have hordered := h.ordered
  rw [marks_build] at hordered
  exact nil_of_ordered hordered

/-- **A prompt can be taken apart if and only if the reading holds no marker.** -/
theorem injectionFree_iff (readingHiragana : Bytes) (options : ZenzPromptOptions) :
    InjectionFree readingHiragana options ↔ readingHoldsMarker readingHiragana = false := by
  rw [readingHoldsMarker_eq_false]
  constructor
  · exact marks_nil_of_injectionFree
  · intro h
    have hcut := cut_build readingHiragana options h
    have hmarks : marks markerAt (build readingHiragana options) =
        Marker.order.filter fun m => m.isWritten readingHiragana options := by
      rw [Framing.marks, hcut, pieces, List.map_map]
      exact List.map_id _
    refine ⟨by rw [hcut], ?_, ?_, ?_⟩
    · rw [hmarks]
      exact List.filter_sublist
    · intro m hm
      rw [hmarks, List.mem_filter, Marker.isWritten, Bool.or_eq_true, Bool.not_eq_true'] at hm
      refine hm.2.imp id fun htext hnil => ?_
      simp [hnil] at htext
    · intro m
      rw [pieceOf, hcut, lookup_pieces]
      split
      · rfl
      · next hnot =>
        rw [not_and, Bool.not_eq_true] at hnot
        exact (text_of_not_written _ _ (hnot m.mem_order)).symm

/-- あ and the output marker U+EE01: the model would begin to write before い. -/
theorem outputMarker_notInjectionFree :
    ¬∀ readingHiragana options, InjectionFree readingHiragana options := by
  intro h
  have hmarks := marks_nil_of_injectionFree (h (utf8 "あ" ++ kZenzOutputBegin ++ utf8 "い") {})
  revert hmarks
  decide

end Mozkey.Zenz.PromptBuilder
