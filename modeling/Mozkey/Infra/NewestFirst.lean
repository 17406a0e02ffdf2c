import Mathlib.Data.List.Sort
import Mathlib.Data.List.Dedup
import Mozkey.Infra.LowerBound

/-!
# Entries with a time, the newest first

A stable sort by time, and of the entries of a key the first. For two lists that have every key
once, this is the newer entry of every key.

* `filter_newestFirst` — the sort keeps to the entries that are asked for
* `distinct_newestFirst` — of two lists the newer entry of every key is left
-/

namespace Infra

variable {α β κ : Type} (key : α → κ) (time : α → Nat)

def newestFirst (l : List α) : List α := l.insertionSort fun a b => time b ≤ time a

/-- Of the entries of a key only the first is left, and none of a key that was seen. -/
def distinct [DecidableEq κ] : List κ → List α → List α
  | _, [] => []
  | seen, a :: l => if key a ∈ seen then distinct seen l else a :: distinct (key a :: seen) l

/-- The entries of two lists, of the entries of a key the newer one, or the first list's own. -/
def newerOf [DecidableEq κ] (own other : List α) : List α :=
  newestFirst time (own.filter (fun a => ∀ b ∈ other, key b = key a → time b ≤ time a) ++
    other.filter (fun b => ∀ a ∈ own, key a = key b → time a < time b))

variable {key time} {l l' own other : List α} {a b : α}

@[simp] theorem distinct_nil [DecidableEq κ] (seen : List κ) : distinct key seen [] = [] := rfl

theorem distinct_cons [DecidableEq κ] (seen : List κ) (a : α) (l : List α) :
    distinct key seen (a :: l) =
      if key a ∈ seen then distinct key seen l else a :: distinct key (key a :: seen) l := rfl

/-! ## The stable sort -/

theorem pairwise_newestFirst (l : List α) :
    (newestFirst time l).Pairwise fun a b => time b ≤ time a := by
  have htotal : Std.Total fun a b : α => time b ≤ time a := ⟨fun a b => Nat.le_total _ _⟩
  have htrans : IsTrans α fun a b => time b ≤ time a := ⟨fun _ _ _ h h' => Nat.le_trans h' h⟩
  exact List.pairwise_insertionSort _ l

theorem perm_newestFirst (l : List α) : (newestFirst time l).Perm l :=
  List.perm_insertionSort _ l

theorem mem_newestFirst : a ∈ newestFirst time l ↔ a ∈ l := (perm_newestFirst l).mem_iff

theorem newestFirst_of_pairwise (h : l.Pairwise fun a b => time b ≤ time a) :
    newestFirst time l = l := by
  have htrans : IsTrans α fun a b => time b ≤ time a := ⟨fun _ _ _ h h' => Nat.le_trans h' h⟩
  exact h.insertionSort_eq

theorem map_newestFirst {time' : β → Nat} {f : α → β} (h : ∀ a, time' (f a) = time a)
    (l : List α) : (newestFirst time l).map f = newestFirst time' (l.map f) := by
  refine List.map_insertionSort _ _ f l fun a _ b _ => ?_
  rw [h, h]

theorem orderedInsert_of_newest (h : ∀ b ∈ l, time b ≤ time a) :
    l.orderedInsert (fun a b => time b ≤ time a) a = a :: l := by
  cases l with
  | nil => rfl
  | cons b l => exact List.orderedInsert_cons_of_le _ l (h b List.mem_cons_self)

theorem filter_orderedInsert (p : α → Bool) (a : α) : ∀ {l : List α},
    (l.Pairwise fun a b => time b ≤ time a) →
    (l.orderedInsert (fun a b => time b ≤ time a) a).filter p =
      if p a then (l.filter p).orderedInsert (fun a b => time b ≤ time a) a else l.filter p
  | [], _ => by
    rw [List.orderedInsert_nil, List.filter_cons]
    rfl
  | b :: l, h => by
    obtain ⟨hb, hl⟩ := List.pairwise_cons.mp h
    by_cases hab : time b ≤ time a
    · have hnewest : ∀ c ∈ (b :: l).filter p, time c ≤ time a := by
        intro c hc
        obtain rfl | hc' := List.mem_cons.mp (List.mem_filter.mp hc).1
        · exact hab
        · exact (hb c hc').trans hab
      rw [List.orderedInsert_cons_of_le _ l hab, List.filter_cons, orderedInsert_of_newest hnewest]
    · rw [List.orderedInsert_of_not_le _ l hab, List.filter_cons, List.filter_cons,
        filter_orderedInsert p a hl]
      split
      · split
        · exact (List.orderedInsert_of_not_le (fun a b => time b ≤ time a) _ hab).symm
        · rfl
      · rfl

/-- **The entries that are asked for are sorted alone.** -/
theorem filter_newestFirst (p : α → Bool) : ∀ l : List α,
    (newestFirst time l).filter p = newestFirst time (l.filter p)
  | [] => rfl
  | a :: l => by
    have hsorted : (newestFirst time l).Pairwise fun a b => time b ≤ time a :=
      pairwise_newestFirst l
    have hrest := filter_newestFirst p l
    unfold newestFirst at hsorted hrest ⊢
    rw [List.insertionSort_cons, filter_orderedInsert p a hsorted, hrest, List.filter_cons]
    split
    · simp
    · rfl

/-- What has a time comes before what has none. -/
theorem partitioned_newestFirst (l : List α) :
    Partitioned (fun a => time a ≠ 0) (newestFirst time l) := by
  refine (pairwise_newestFirst l).imp fun hle hne => ?_
  rw [decide_eq_true_eq] at hne ⊢
  omega

/-! ## The first entry of every key -/

section Distinct

variable [DecidableEq κ] {seen : List κ}

theorem distinct_sublist : ∀ (seen : List κ) (l : List α), (distinct key seen l).Sublist l
  | _, [] => List.Sublist.slnil
  | seen, a :: l => by
    rw [distinct_cons]
    split
    · exact (distinct_sublist seen l).cons a
    · exact (distinct_sublist _ l).cons_cons a

theorem distinct_append : ∀ (seen : List κ) (l l' : List α), ∃ seen',
    distinct key seen (l ++ l') = distinct key seen l ++ distinct key seen' l'
  | seen, [], _ => ⟨seen, rfl⟩
  | seen, a :: l, l' => by
    rw [List.cons_append, distinct_cons, distinct_cons]
    split
    · exact distinct_append seen l l'
    · obtain ⟨seen', h⟩ := distinct_append (key a :: seen) l l'
      exact ⟨seen', by rw [h, List.cons_append]⟩

theorem map_distinct {key' : β → κ} {f : α → β} (h : ∀ a, key' (f a) = key a) :
    ∀ (seen : List κ) (l : List α), (distinct key seen l).map f = distinct key' seen (l.map f)
  | _, [] => rfl
  | seen, a :: l => by
    rw [List.map_cons, distinct_cons, distinct_cons, h]
    split
    · exact map_distinct h seen l
    · simp [map_distinct h _ l]

theorem mem_map_distinct {k : κ} : ∀ (seen : List κ) (l : List α),
    k ∈ (distinct key seen l).map key ↔ k ∈ l.map key ∧ k ∉ seen
  | _, [] => by simp
  | seen, a :: l => by
    rw [distinct_cons]
    split
    · next hseen =>
      rw [mem_map_distinct seen l, List.map_cons, List.mem_cons]
      refine ⟨fun h => ⟨Or.inr h.1, h.2⟩, fun h => ⟨?_, h.2⟩⟩
      obtain rfl | hk := h.1
      · exact absurd hseen h.2
      · exact hk
    · next hseen =>
      rw [List.map_cons, List.mem_cons, mem_map_distinct _ l, List.map_cons, List.mem_cons,
        List.mem_cons, not_or]
      by_cases hk : k = key a
      · rw [hk]
        exact iff_of_true (Or.inl rfl) ⟨Or.inl rfl, hseen⟩
      · simp [hk]

theorem nodup_map_distinct : ∀ (seen : List κ) (l : List α),
    ((distinct key seen l).map key).Nodup
  | _, [] => List.nodup_nil
  | seen, a :: l => by
    rw [distinct_cons]
    split
    · exact nodup_map_distinct seen l
    · rw [List.map_cons, List.nodup_cons, mem_map_distinct]
      exact ⟨fun h => h.2 List.mem_cons_self, nodup_map_distinct _ l⟩

/-- A filter that says of every entry whether its key was seen before it. -/
theorem distinct_eq_filter {p : α → Bool} : ∀ (seen : List κ) {l : List α},
    (∀ before a after, l = before ++ a :: after →
      (p a = true ↔ key a ∉ seen ∧ key a ∉ before.map key)) →
    distinct key seen l = l.filter p
  | _, [], _ => rfl
  | seen, a :: l, h => by
    have ha := h [] a l rfl
    rw [distinct_cons, List.filter_cons]
    split
    · next hseen =>
      rw [if_neg (fun hp => (ha.mp hp).1 hseen)]
      refine distinct_eq_filter seen fun before b after hl => ?_
      rw [h (a :: before) b after (by rw [hl, List.cons_append]), List.map_cons, List.mem_cons]
      refine ⟨fun hb => ⟨hb.1, fun hmem => hb.2 (Or.inr hmem)⟩, fun hb => ⟨hb.1, ?_⟩⟩
      rintro (heq | hmem)
      · exact hb.1 (heq ▸ hseen)
      · exact hb.2 hmem
    · next hseen =>
      rw [if_pos (ha.mpr ⟨hseen, List.not_mem_nil⟩)]
      congr 1
      refine distinct_eq_filter _ fun before b after hl => ?_
      rw [h (a :: before) b after (by rw [hl, List.cons_append]), List.map_cons, List.mem_cons,
        List.mem_cons]
      tauto

end Distinct

/-! ## Two lists that have every key once -/

/-- The entries of two lists with the list they are from. -/
def tagged (own other : List α) : List (Bool × α) := own.map (true, ·) ++ other.map (false, ·)

/-- The entry is not replaced by one of the other list. -/
def Prevails (key : α → κ) (time : α → Nat) (own other : List α) (x : Bool × α) : Prop :=
  match x.1 with
  | true => ∀ b ∈ other, key b = key x.2 → time b ≤ time x.2
  | false => ∀ a ∈ own, key a = key x.2 → time a < time x.2

instance [DecidableEq κ] : DecidablePred (Prevails key time own other) := fun ⟨fromOwn, _⟩ =>
  match fromOwn with
  | true => inferInstanceAs (Decidable (∀ _ ∈ _, _ → _))
  | false => inferInstanceAs (Decidable (∀ _ ∈ _, _ → _))

theorem mem_tagged {x : Bool × α} :
    x ∈ tagged own other ↔ x.1 = true ∧ x.2 ∈ own ∨ x.1 = false ∧ x.2 ∈ other := by
  obtain ⟨fromOwn, a⟩ := x
  cases fromOwn <;> simp [tagged]

theorem nodup_tagged (hown : (own.map key).Nodup) (hother : (other.map key).Nodup) :
    (tagged own other).Nodup := by
  have hmap : ∀ (fromOwn : Bool) {l : List α}, (l.map key).Nodup →
      (l.map (fromOwn, ·)).Nodup := by
    intro fromOwn l h
    exact (List.Nodup.of_map key h).map fun _ _ heq => (Prod.mk.inj heq).2
  refine (hmap true hown).append (hmap false hother) fun x hx hx' => ?_
  obtain ⟨a, -, rfl⟩ := List.mem_map.mp hx
  obtain ⟨b, -, heq⟩ := List.mem_map.mp hx'
  cases heq

theorem not_mem_before {before after : List α} (hnodup : (before ++ a :: after).Nodup)
    (h : [a, b].Sublist (before ++ a :: after)) : b ∉ before := by
  induction before with
  | nil => exact List.not_mem_nil
  | cons c before ih =>
    obtain ⟨hc, hrest⟩ := List.nodup_cons.mp hnodup
    have hne : a ≠ c := by
      intro heq
      exact hc (heq ▸ List.mem_append_right _ List.mem_cons_self)
    have hsub := List.Sublist.of_cons_of_ne hne h
    have hb : b ∈ before ++ a :: after := hsub.subset (List.mem_cons_of_mem _ List.mem_cons_self)
    simpa [not_or] using ⟨fun heq => hc (heq ▸ hb), ih hrest hsub⟩

/-- Of two entries of a key the first is the one that prevails. -/
theorem prevails_iff (hown : (own.map key).Nodup) (hother : (other.map key).Nodup)
    {x : Bool × α} {before after : List (Bool × α)}
    (h : newestFirst (fun y => time y.2) (tagged own other) = before ++ x :: after) :
    Prevails key time own other x ↔ key x.2 ∉ before.map fun y => key y.2 := by
  have hsorted : (before ++ x :: after).Pairwise fun y z => time z.2 ≤ time y.2 :=
    h ▸ pairwise_newestFirst (tagged own other)
  have hperm : (before ++ x :: after).Perm (tagged own other) := h ▸ perm_newestFirst _
  have hnodup : (before ++ x :: after).Nodup := hperm.nodup_iff.mpr (nodup_tagged hown hother)
  have hbefore : ∀ z ∈ before, time x.2 ≤ time z.2 := fun z hz =>
    (List.pairwise_append.mp hsorted).2.2 z hz x List.mem_cons_self
  have hafter : ∀ z ∈ after, time z.2 ≤ time x.2 :=
    (List.pairwise_cons.mp (List.pairwise_append.mp hsorted).2.1).1
  have hdisjoint : x ∉ before := fun hx =>
    (List.nodup_append.mp hnodup).2.2 x hx x List.mem_cons_self rfl
  -- an entry of the first list stays before the other's, when both have the same time
  have hstable : ∀ {u v : α}, u ∈ own → v ∈ other → time v ≤ time u →
      [(true, u), (false, v)].Sublist (before ++ x :: after) := by
    intro u v hu hv hle
    rw [← h]
    refine List.pair_sublist_insertionSort hle ?_
    exact List.Sublist.append (List.singleton_sublist.mpr (List.mem_map_of_mem hu))
      (List.singleton_sublist.mpr (List.mem_map_of_mem hv))
  have hmem : ∀ {z : Bool × α}, z ∈ tagged own other → z ∉ before → z ≠ x → z ∈ after := by
    intro z hz hnot hne
    obtain hz' | hz' := List.mem_append.mp (hperm.mem_iff.mpr hz)
    · exact absurd hz' hnot
    · exact (List.mem_cons.mp hz').resolve_left hne
  have hx := mem_tagged.mp (hperm.mem_iff.mp (List.mem_append_right _ List.mem_cons_self))
  have hkeys : ∀ {z : Bool × α}, z ∈ before → key z.2 = key x.2 → z.1 = x.1 → False := by
    intro z hz hkey htag
    have hz' := mem_tagged.mp (hperm.mem_iff.mp (List.mem_append_left _ hz))
    have heq : z.2 = x.2 := by
      obtain hx | hx := hx
      · obtain hz' | hz' := hz'
        · exact List.inj_on_of_nodup_map hown hz'.2 hx.2 hkey
        · simp [hx.1, hz'.1] at htag
      · obtain hz' | hz' := hz'
        · simp [hx.1, hz'.1] at htag
        · exact List.inj_on_of_nodup_map hother hz'.2 hx.2 hkey
    exact hdisjoint (Prod.ext htag heq ▸ hz)
  obtain ⟨fromOwn, a⟩ := x
  rw [List.mem_map, not_exists]
  cases fromOwn with
  | true =>
    have ha : a ∈ own := by
      obtain hx | hx := hx
      · exact hx.2
      · cases hx.1
    constructor
    · rintro hprevails ⟨fromOwn, b⟩ ⟨hz, hkey⟩
      cases fromOwn with
      | true => exact hkeys hz hkey rfl
      | false =>
        obtain hz' | hz' := mem_tagged.mp (hperm.mem_iff.mp (List.mem_append_left _ hz))
        · cases hz'.1
        · exact not_mem_before hnodup (hstable ha hz'.2 (hprevails b hz'.2 hkey)) hz
    · intro hnone b hb hkey
      refine hafter (false, b) (hmem (mem_tagged.mpr (Or.inr ⟨rfl, hb⟩)) ?_ ?_)
      · exact fun hz => hnone _ ⟨hz, hkey⟩
      · exact fun heq => by cases heq
  | false =>
    have ha : a ∈ other := by
      obtain hx | hx := hx
      · cases hx.1
      · exact hx.2
    constructor
    · rintro hprevails ⟨fromOwn, b⟩ ⟨hz, hkey⟩
      cases fromOwn with
      | false => exact hkeys hz hkey rfl
      | true =>
        obtain hz' | hz' := mem_tagged.mp (hperm.mem_iff.mp (List.mem_append_left _ hz))
        · exact absurd (hbefore _ hz) (Nat.not_le.mpr (hprevails b hz'.2 hkey))
        · cases hz'.1
    · intro hnone b hb hkey
      by_contra hle
      have hz : (true, b) ∉ before := fun hz => hnone _ ⟨hz, hkey⟩
      have hz' := hmem (mem_tagged.mpr (Or.inl ⟨rfl, hb⟩)) hz (fun heq => by cases heq)
      obtain ⟨first, last, rfl⟩ := List.append_of_mem hz'
      have hsub := hstable hb ha (Nat.not_lt.mp hle)
      have hsplit : before ++ (false, a) :: (first ++ (true, b) :: last) =
          (before ++ (false, a) :: first) ++ (true, b) :: last := by simp
      rw [hsplit] at hsub hnodup
      exact not_mem_before hnodup hsub (List.mem_append_right _ List.mem_cons_self)

/-- **Of two lists, the newer entry of every key is the first.** -/
theorem distinct_newestFirst [DecidableEq κ] (hown : (own.map key).Nodup)
    (hother : (other.map key).Nodup) :
    distinct key [] (newestFirst time (own ++ other)) = newerOf key time own other := by
  have htagged : (tagged own other).map Prod.snd = own ++ other := by
    simp [tagged, Function.comp_def]
  have hfilter : (tagged own other).filter (fun x => Prevails key time own other x) =
      (own.filter (fun a => ∀ b ∈ other, key b = key a → time b ≤ time a)).map (true, ·) ++
        (other.filter (fun b => ∀ a ∈ own, key a = key b → time a < time b)).map (false, ·) := by
    rw [tagged, List.filter_append, List.filter_map, List.filter_map]
    rfl
  have hsort : (newestFirst (fun x : Bool × α => time x.2) (tagged own other)).map Prod.snd =
      newestFirst time (own ++ other) := by
    rw [map_newestFirst fun _ => rfl, htagged]
  have hfirst : distinct (fun x : Bool × α => key x.2) []
      (newestFirst (fun x => time x.2) (tagged own other)) =
      (newestFirst (fun x => time x.2) (tagged own other)).filter
        (fun x => Prevails key time own other x) := by
    refine distinct_eq_filter [] fun before x after h => ?_
    rw [decide_eq_true_eq, prevails_iff hown hother h]
    simp
  have hmap : ∀ l : List (Bool × α), (distinct (fun x : Bool × α => key x.2) [] l).map Prod.snd =
      distinct key [] (l.map Prod.snd) :=
    map_distinct (fun _ => rfl) []
  rw [← hsort, ← hmap, hfirst, filter_newestFirst, hfilter, map_newestFirst fun _ => rfl, newerOf,
    List.map_append, List.map_map, List.map_map]
  simp [Function.comp_def]

end Infra
