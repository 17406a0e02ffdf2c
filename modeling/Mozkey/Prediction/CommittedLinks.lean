import Mozkey.Infra.GrowingGraph
import Mozkey.Prediction.CommitRedo

/-!
# The links of one commit

The loop over the segments leaves out the links to and from a segment whose fingerprints were seen.
It compares all fingerprints of a segment, but links have to do with each of them, so that a
segment with the full form of another one as its content form may close a loop
(`conversionLinks_acyclic_iff`).
-/

namespace Mozkey.Prediction

open Infra Base Converter

variable {city : City} {a b : UInt64}

/-! ## Next entries -/

section

variable {fps nextFps : List UInt64} {fp : UInt64}

theorem mem_of_mem_insertNextEntry (h : b ∈ insertNextEntry fps fp) : b ∈ fps ∨ b = fp ∧ b ≠ 0 := by
  unfold insertNextEntry at h
  split at h
  · exact .inl h
  · next hfp =>
    rcases List.mem_append.mp (List.mem_of_mem_drop h) with h | h
    · exact .inl (List.mem_filter.mp h).1
    · obtain rfl := List.mem_singleton.mp h
      exact .inr ⟨rfl, hfp⟩

theorem mem_of_mem_foldl_insertNextEntry :
    ∀ {nextFps fps : List UInt64}, b ∈ nextFps.foldl insertNextEntry fps →
      b ∈ fps ∨ b ∈ nextFps ∧ b ≠ 0
  | [], _, h => .inl h
  | fp :: nextFps, fps, h => by
    rw [List.foldl_cons] at h
    rcases mem_of_mem_foldl_insertNextEntry h with h | ⟨h, hb⟩
    · rcases mem_of_mem_insertNextEntry h with h | ⟨rfl, hb⟩
      · exact .inl h
      · exact .inr ⟨List.mem_cons_self, hb⟩
    · exact .inr ⟨List.mem_cons_of_mem _ h, hb⟩

theorem exists_insertNextEntry (hb : b ≠ 0) (fps : List UInt64) :
    ∃ front, insertNextEntry fps b = front ++ [b] := by
  unfold insertNextEntry
  rw [if_neg hb]
  dsimp only
  rw [List.drop_append_of_le_length (by simp [kMaxNextEntriesSize])]
  exact ⟨_, rfl⟩

/-- The last entry stays when one more is inserted. -/
theorem mem_insertNextEntry_of_last (fp : UInt64) : b ∈ insertNextEntry (fps ++ [b]) fp := by
  by_cases hfp : fp = 0
  · simp [insertNextEntry, hfp]
  · by_cases hb : b = fp
    · subst hb
      obtain ⟨front, hfront⟩ := exists_insertNextEntry hfp (fps ++ [b])
      simp [hfront]
    · have hkept : (fps ++ [b]).filter (· ≠ fp) = fps.filter (· ≠ fp) ++ [b] := by simp [hb]
      unfold insertNextEntry
      rw [if_neg hfp, hkept]
      dsimp only
      rw [List.append_assoc,
        List.drop_append_of_le_length (by simp only [List.length_append, List.length_cons,
          List.length_nil, kMaxNextEntriesSize]; omega)]
      simp

theorem mem_foldl_insertNextEntry (hsize : nextFps.length ≤ 2) (hmem : b ∈ nextFps) (hb : b ≠ 0) :
    b ∈ nextFps.foldl insertNextEntry fps := by
  match nextFps, hsize with
  | [fp], _ =>
    obtain rfl := List.mem_singleton.mp hmem
    obtain ⟨front, hfront⟩ := exists_insertNextEntry hb fps
    simp [hfront]
  | [fp, fp'], _ =>
    rcases List.mem_cons.mp hmem with rfl | hmem
    · obtain ⟨front, hfront⟩ := exists_insertNextEntry hb fps
      show b ∈ insertNextEntry (insertNextEntry fps b) fp'
      rw [hfront]
      exact mem_insertNextEntry_of_last fp'
    · obtain rfl := List.mem_singleton.mp hmem
      obtain ⟨front, hfront⟩ := exists_insertNextEntry hb (insertNextEntry fps fp)
      simp [hfront]

end

/-! ## Links that are added -/

namespace UserHistoryStorage

/-- The entry under `a` has a link to `b`. -/
def HasLink (storage : UserHistoryStorage city) (a b : UInt64) : Prop :=
  ∃ e ∈ storage.lookup a, b ∈ e.nextEntryFps

end UserHistoryStorage

open AcceptedWrite

/-- One of the calls sets a link that was not there. -/
def AddsLink (state : Learning city) (ws : List HistoryWrite) (a b : UInt64) : Prop :=
  ∃ before w after, ws = before ++ w :: after ∧
    ¬(before.foldl insert state).storage.HasLink a b ∧
    (insert (before.foldl insert state) w).storage.HasLink a b

/-- One of the calls is accepted for the entry under `a`, with a link to `b`. -/
def Links (city : City) (ws : List HistoryWrite) (a b : UInt64) : Prop :=
  ∃ w ∈ ws, w.accept.map (fun w => w.fp city) = some a ∧ b ∈ w.nextFps ∧ b ≠ 0

section

variable {state : Learning city} {ws ws' : List HistoryWrite} {w : AcceptedWrite}
  {w' : HistoryWrite}

theorem nextFps_of_accept (h : w'.accept = some w) : w.nextFps = w'.nextFps := by
  unfold HistoryWrite.accept at h
  dsimp only at h
  split_ifs at h
  rw [← Option.some.inj h]

theorem hasLink_of_apply (h : (w.apply state).storage.HasLink a b) :
    state.storage.HasLink a b ∨ w.fp city = a ∧ b ∈ w.nextFps ∧ b ≠ 0 := by
  obtain ⟨e, he, hb⟩ := h
  by_cases hfp : w.fp city = a
  · subst hfp
    obtain rfl := Option.some.inj (RecencyMap.get?_insert_self.symm.trans he)
    rcases mem_of_mem_foldl_insertNextEntry hb with hb | hb
    · cases hold : state.storage.lookup (w.fp city) with
      | none => simp [hold] at hb
      | some old => exact .inl ⟨old, hold, by simpa [hold] using hb⟩
    · exact .inr ⟨rfl, hb⟩
  · exact .inl ⟨e, RecencyMap.get?_of_insert (Ne.symm hfp) he, hb⟩

theorem hasLink_apply (hsize : w.nextFps.length ≤ 2) (hmem : b ∈ w.nextFps) (hb : b ≠ 0) :
    (w.apply state).storage.HasLink (w.fp city) b :=
  ⟨_, RecencyMap.get?_insert_self, mem_foldl_insertNextEntry hsize hmem hb⟩

theorem AddsLink.append (h : AddsLink state ws a b) (ws' : List HistoryWrite) :
    AddsLink state (ws ++ ws') a b := by
  obtain ⟨before, w, after, rfl, hlink⟩ := h
  exact ⟨before, w, after ++ ws', by simp, hlink⟩

/-- A link that is there behind the calls was added by one of them. -/
theorem addsLink_of_hasLink (hnew : ¬state.storage.HasLink a b)
    (h : (ws.foldl insert state).storage.HasLink a b) : AddsLink state ws a b := by
  induction ws using List.reverseRecOn with
  | nil => exact absurd h hnew
  | append_singleton ws w ih =>
    by_cases hlink : (ws.foldl insert state).storage.HasLink a b
    · exact (ih hlink).append [w]
    · exact ⟨ws, w, [], rfl, hlink, by simpa using h⟩

theorem AddsLink.links (h : AddsLink state ws a b) : Links city ws a b := by
  obtain ⟨before, w, after, rfl, hnot, hlink⟩ := h
  rw [insert] at hlink
  cases hw : w.accept with
  | none => exact absurd (by rwa [hw] at hlink) hnot
  | some accepted =>
    rw [hw] at hlink
    rcases hasLink_of_apply hlink with hlink | ⟨hfp, hb⟩
    · exact absurd hlink hnot
    · exact ⟨w, by simp, by simp [hw, hfp], nextFps_of_accept hw ▸ hb⟩

theorem Links.addsLink (hsize : ∀ w ∈ ws, w.nextFps.length ≤ 2)
    (hnew : ¬state.storage.HasLink a b) (h : Links city ws a b) : AddsLink state ws a b := by
  obtain ⟨w, hw, hfp, hmem, hb⟩ := h
  obtain ⟨accepted, haccept, rfl⟩ := Option.map_eq_some_iff.mp hfp
  obtain ⟨before, after, rfl⟩ := List.append_of_mem hw
  have hlink : ((before ++ [w]).foldl insert state).storage.HasLink (accepted.fp city) b := by
    rw [List.foldl_append]
    show (insert _ w).storage.HasLink _ b
    rw [insert, haccept]
    rw [← nextFps_of_accept haccept] at hmem
    exact hasLink_apply (nextFps_of_accept haccept ▸ hsize w hw) hmem hb
  simpa using (addsLink_of_hasLink hnew hlink).append after

theorem links_append : Links city (ws ++ ws') a b ↔ Links city ws a b ∨ Links city ws' a b := by
  simp [Links, or_and_right, exists_or]

end

/-! ## The rounds of the loop -/

/-- The entry that the segment is inserted as, if it is accepted. -/
def SegmentForLearning.entryFp (city : City) (segment : SegmentForLearning) : Option UInt64 :=
  ({ key := segment.key, value := segment.value, description := segment.description
     lastAccessTime := 0 } : HistoryWrite).accept.map (fun w => w.fp city)

local instance lawfulBEqFps : LawfulBEq (List UInt64) := inferInstance

/-- The links that the rounds set, from the segments after the ones with the fingerprints `seen`:
from the entry of a segment to the forms of the next one, when both have new fingerprints. -/
def linkRounds (city : City) :
    List (List UInt64) → List SegmentForLearning → List (UInt64 × List UInt64)
  | seen, segment :: next :: rest =>
    (if segment.fps city ∈ seen ∨ next.fps city ∈ segment.fps city :: seen then []
      else (segment.entryFp city).toList.map (·, (next.fps city).filter (· ≠ 0))) ++
        linkRounds city (segment.fps city :: seen) (next :: rest)
  | _, _ => []

section

variable {segment next : SegmentForLearning} {segments : List SegmentForLearning}
  {prevValue : Bytes} {nextFps : List UInt64} {allowPartialMatch : Bool} {now : Nat}

theorem nextFps_closeBracketWrite {key value description : Bytes} {w : HistoryWrite}
    (h : closeBracketWrite key value description now = some w) : w.nextFps = [] := by
  unfold closeBracketWrite at h
  split at h
  · rw [← Option.some.inj h]
  · cases h

/-- The calls for one segment have no links, but for the one for the whole segment. -/
theorem mem_segmentWrites {w : HistoryWrite}
    (h : w ∈ segmentWrites segment prevValue nextFps allowPartialMatch now) :
    w.nextFps = [] ∨ w.nextFps = nextFps ∧ w.key = segment.key ∧ w.value = segment.value ∧
      w.description = segment.description := by
  unfold segmentWrites at h
  rcases List.mem_append.mp h with h | h
  · rcases List.mem_append.mp h with h | h
    · split at h
      · exact .inl (by rw [List.mem_singleton.mp h])
      · cases h
    · exact .inr (by rw [List.mem_singleton.mp h]; exact ⟨rfl, rfl, rfl, rfl⟩)
  · rcases Option.or_eq_some_iff.mp (Option.mem_toList.mp h) with h | ⟨_, h⟩
    · exact .inl (nextFps_closeBracketWrite h)
    · split at h
      · exact .inl (nextFps_closeBracketWrite h)
      · cases h

theorem map_fp_accept {w : HistoryWrite} (h : w.key = segment.key ∧ w.value = segment.value ∧
    w.description = segment.description) :
    w.accept.map (fun w => w.fp city) = segment.entryFp city := by
  unfold SegmentForLearning.entryFp HistoryWrite.accept
  simp only [h]
  split_ifs
  all_goals rfl

theorem links_segmentWrites :
    Links city (segmentWrites segment prevValue nextFps allowPartialMatch now) a b ↔
      segment.entryFp city = some a ∧ b ∈ nextFps ∧ b ≠ 0 := by
  constructor
  · rintro ⟨w, hw, hfp, hmem, hb⟩
    rcases mem_segmentWrites hw with hnil | ⟨hnext, hforms⟩
    · simp [hnil] at hmem
    · exact ⟨map_fp_accept hforms ▸ hfp, hnext ▸ hmem, hb⟩
  · rintro ⟨hfp, hmem, hb⟩
    refine ⟨_, List.mem_append_left _ (List.mem_append_right _ (List.mem_singleton_self _)), ?_,
      hmem, hb⟩
    rw [← hfp]
    exact map_fp_accept ⟨rfl, rfl, rfl⟩

theorem length_fps_le (segment : SegmentForLearning) : (segment.fps city).length ≤ 2 := by
  unfold SegmentForLearning.fps
  split <;> simp

theorem length_nextFps_segmentsWrites {seen : List (List UInt64)} {thisWasSeen : Bool} :
    ∀ w ∈ segmentsWrites city now allowPartialMatch seen thisWasSeen prevValue segments,
      w.nextFps.length ≤ 2 := by
  induction segments generalizing seen thisWasSeen prevValue allowPartialMatch with
  | nil => exact fun w hw => by cases hw
  | cons segment rest ih =>
    intro w hw
    rcases List.mem_append.mp hw with hw | hw
    · rcases mem_segmentWrites hw with h | ⟨h, _⟩
      · simp [h]
      · rw [h]
        split
        · simp
        · cases rest with
          | nil => simp
          | cons next rest => exact length_fps_le next
    · exact ih w hw

/-- One round after the other, the calls set the links of the rounds. -/
theorem links_segmentsWrites (seen : List (List UInt64)) :
    Links city (segmentsWrites city now allowPartialMatch (segment.fps city :: seen)
      (segment.fps city ∈ seen) prevValue (segment :: segments)) a b ↔
        Edge (linkRounds city seen (segment :: segments)) a b := by
  induction segments generalizing segment seen prevValue allowPartialMatch with
  | nil =>
    rw [segmentsWrites, links_append, links_segmentWrites]
    simp [segmentsWrites, linkRounds, Links, Edge]
  | cons next rest ih =>
    rw [segmentsWrites, links_append, links_segmentWrites, linkRounds, edge_append]
    refine or_congr ?_ (ih _)
    by_cases hseen : segment.fps city ∈ seen ∨ next.fps city ∈ segment.fps city :: seen
    · rw [if_pos hseen, if_pos (by rwa [Bool.or_eq_true, decide_eq_true_eq, decide_eq_true_eq])]
      simp [Edge]
    · rw [if_neg hseen, if_neg (by rwa [Bool.or_eq_true, decide_eq_true_eq, decide_eq_true_eq])]
      cases segment.entryFp city with
      | none => simp [Edge]
      | some fp =>
        rw [Option.toList_some, List.map_singleton, edge_singleton]
        rw [Option.some.injEq, @eq_comm _ fp, List.mem_filter]
        simp

theorem links_conversionWrites {segments : SegmentsForLearning} :
    Links city (conversionWrites city segments now) a b ↔
      Edge (linkRounds city [] segments.conversionSegments) a b := by
  unfold conversionWrites
  dsimp only
  rw [links_append]
  cases segments.conversionSegments with
  | nil => simp [segmentsWrites, linkRounds, Links, Edge]
  | cons segment rest =>
    have hwhole : ∀ w : HistoryWrite, w.nextFps = [] → ¬Links city [w] a b := by
      rintro w hw ⟨w', hmem, -, hb, -⟩
      simp [List.mem_singleton.mp hmem, hw] at hb
    rw [or_iff_right]
    · exact links_segmentsWrites []
    · split
      · exact hwhole _ rfl
      · simp [Links]

/-- A round sets links from a segment to forms of the next one. -/
theorem edge_linkRounds {seen : List (List UInt64)} (h : Edge (linkRounds city seen segments) a b) :
    ∃ before segment next after, segments = before ++ segment :: next :: after ∧
      segment.entryFp city = some a ∧ b ∈ next.fps city := by
  induction segments generalizing seen with
  | nil => simp [linkRounds, Edge] at h
  | cons segment rest ih =>
    cases rest with
    | nil => simp [linkRounds, Edge] at h
    | cons next rest =>
      rw [linkRounds, edge_append] at h
      rcases h with h | h
      · split_ifs at h
        · simp [Edge] at h
        · cases hfp : segment.entryFp city with
          | none => simp [hfp, Edge] at h
          | some fp =>
            rw [hfp, Option.toList_some, List.map_singleton, edge_singleton] at h
            exact ⟨[], segment, next, rest, rfl, by rw [hfp, h.1], (List.mem_filter.mp h.2).1⟩
      · obtain ⟨before, segment', next', after, heq, hforms⟩ := ih h
        exact ⟨segment :: before, segment', next', after, by rw [heq]; rfl, hforms⟩

end

/-! ## Loops -/

/-- There are no links from an entry of these segments to a form of one. -/
def Unlinked (segments : List SegmentForLearning) (storage : UserHistoryStorage city) : Prop :=
  ∀ segment ∈ segments, ∀ a, segment.entryFp city = some a →
    ∀ next ∈ segments, ∀ b ∈ next.fps city, ¬storage.HasLink a b

/-- **The links of one commit form a loop** just when a round sets a link to a form of the next
segment from which the rounds before led to the segment itself. The fingerprints of such a next
segment are new, though one of them is not. -/
theorem conversionLinks_acyclic_iff (segments : SegmentsForLearning) (now : Nat)
    (state : Learning city) (h : Unlinked segments.conversionSegments state.storage) :
    ((∀ a b, AddsLink state (conversionWrites city segments now) a b →
        ∃ before segment next after,
          segments.conversionSegments = before ++ segment :: next :: after ∧
            segment.entryFp city = some a ∧ b ∈ next.fps city) ∧
      ∀ a, ¬Relation.TransGen (AddsLink state (conversionWrites city segments now)) a a) ↔
        NeverLeadsBack (linkRounds city [] segments.conversionSegments) := by
  have hsize : ∀ w ∈ conversionWrites city segments now, w.nextFps.length ≤ 2 := by
    intro w hw
    rcases List.mem_append.mp hw with hw | hw
    · split at hw
      · simp [List.mem_singleton.mp hw]
      · cases hw
    · exact length_nextFps_segmentsWrites w hw
  have hadds : AddsLink state (conversionWrites city segments now) =
      Edge (linkRounds city [] segments.conversionSegments) := by
    funext a b
    refine propext ⟨fun hadds => links_conversionWrites.mp hadds.links, fun hedge => ?_⟩
    obtain ⟨before, segment, next, after, heq, hfp, hb⟩ := edge_linkRounds hedge
    refine Links.addsLink hsize ?_ (links_conversionWrites.mpr hedge)
    exact h segment (by simp [heq]) a hfp next (by simp [heq]) b hb
  rw [hadds, ← acyclic_iff]
  exact and_iff_right fun a b hedge => edge_linkRounds hedge

/-- Nothing was learned. -/
def newLearning : Learning shortCity := { storage := .empty shortCity 8 (Nat.succ_pos 7) }

theorem unlinked_newLearning (segments : List SegmentForLearning) :
    Unlinked segments newLearning.storage := by
  rintro _ _ _ _ _ _ _ _ ⟨e, he, _⟩
  cases he

def abSegments : SegmentsForLearning where
  conversionSegmentsKey := utf8 "ab"
  conversionSegmentsValue := utf8 "AB"
  conversionSegments :=
    [{ key := utf8 "a", value := utf8 "A", contentKey := utf8 "a", contentValue := utf8 "A" },
      { keyBegin := 1, valueBegin := 1, key := utf8 "b", value := utf8 "B"
        contentKey := utf8 "b", contentValue := utf8 "B" }]

theorem conversionLinks_acyclic_ab : ¬∃ a,
    Relation.TransGen (AddsLink newLearning (conversionWrites shortCity abSegments 7)) a a := by
  refine not_exists.mpr
    ((conversionLinks_acyclic_iff abSegments 7 newLearning (unlinked_newLearning _)).mpr ?_).2
  have hrounds : linkRounds shortCity [] abSegments.conversionSegments =
      [(abcFp "a" "A", [abcFp "b" "B"])] := by decide +kernel
  rw [hrounds]
  intro before round after heq b hb hback
  obtain rfl : before = [] := by
    cases before with
    | nil => rfl
    | cons first before => simp at heq
  obtain ⟨rfl, -⟩ : round = (abcFp "a" "A", [abcFp "b" "B"]) ∧ after = [] := by
    simpa using heq.symm
  rcases hback.cases_head with heq | ⟨_, ⟨_, hmem, _⟩, _⟩
  · exact absurd ((List.mem_singleton.mp hb).symm.trans heq) (by decide +kernel)
  · cases hmem

/-- "東京" is committed, and "東京は" behind it. -/
def tokyoSegments : SegmentsForLearning where
  conversionSegmentsKey := utf8 "とうきょうとうきょうは"
  conversionSegmentsValue := utf8 "東京東京は"
  conversionSegments :=
    [{ key := utf8 "とうきょう", value := utf8 "東京"
       contentKey := utf8 "とうきょう", contentValue := utf8 "東京" },
      { keyBegin := 15, valueBegin := 6, key := utf8 "とうきょうは", value := utf8 "東京は"
        contentKey := utf8 "とうきょう", contentValue := utf8 "東京" }]

theorem tokyo_linked_to_itself :
    Unlinked tokyoSegments.conversionSegments newLearning.storage ∧
      AddsLink newLearning (conversionWrites shortCity tokyoSegments 7)
        (abcFp "とうきょう" "東京") (abcFp "とうきょう" "東京") := by
  refine ⟨unlinked_newLearning _, addsLink_of_hasLink ?_ ?_⟩
  · rintro ⟨e, he, _⟩
    cases he
  · have hlink : (((conversionWrites shortCity tokyoSegments 7).foldl insert
        newLearning).storage.lookup (abcFp "とうきょう" "東京")).any fun e =>
          abcFp "とうきょう" "東京" ∈ e.nextEntryFps := by decide +kernel
    obtain ⟨e, he, hmem⟩ := (Option.any_eq_true _ _).mp hlink
    exact ⟨e, he, of_decide_eq_true hmem⟩

/-! ## Commits without loops -/

end Mozkey.Prediction
