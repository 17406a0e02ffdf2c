import Mozkey.Converter.RankingGuardEffects

/-!
# The law of the ranking guards

* `OnlyDemotes` — the guards raise word costs of the conversion, and never the user's own words
* `rankingGuards_onlyDemote_iff` — **exactly when no word of the user dictionary is hit by a guard
  that does not look at the attributes**
-/

namespace Mozkey.Converter

open Infra Base NodeAttribute

variable {pm : PosMatcher} {connector : TransitionCost} {historyKey : Bytes} {l l' : Lattice}
  {b i : Nat}

/-! ## The words of a lattice after some raises -/

namespace Lattice.SameButCosts

theorem symm (h : l.SameButCosts l') : l'.SameButCosts l :=
  ⟨h.key.symm, h.bosId.symm, h.inserted.symm⟩

theorem exists_inserted (h : l.SameButCosts l') {e : Nat × Node} (he : l.inserted[i]? = some e) :
    ∃ e', l'.inserted[i]? = some e' ∧ costless e' = costless e := by
  have hi := h.getElem? i
  rw [he, Option.map_some] at hi
  exact Option.map_eq_some_iff.mp hi

theorem conversionWord (h : l.SameButCosts l') (hi : ConversionWord l b i) :
    ConversionWord l' b i := by
  obtain ⟨e, he, hnor, hb⟩ := hi
  obtain ⟨e', he', heq⟩ := h.exists_inserted he
  have hnode : e'.2.nodeType = e.2.nodeType := congrArg (fun x => x.2.nodeType) heq
  have hpos : e'.1 = e.1 := congrArg (fun x => x.1) heq
  exact ⟨e', he', hnode.trans hnor, hpos ▸ hb⟩

theorem userWord (h : l.SameButCosts l') (hi : UserWord l i) : UserWord l' i := by
  obtain ⟨e, he, huser⟩ := hi
  obtain ⟨e', he', heq⟩ := h.exists_inserted he
  have hnode : e'.2.has USER_DICTIONARY = e.2.has USER_DICTIONARY :=
    congrArg (fun x => x.2.has USER_DICTIONARY) heq
  exact ⟨e', he', hnode.trans huser⟩

end Lattice.SameButCosts

/-! ## One guard -/

/-- What every guard may raise. -/
def Fit (pm : PosMatcher) (historyKey : Bytes) (l : Lattice) (i : Nat) : Prop :=
  ConversionWord l historyKey.length i ∧
    (UserWord l i → uncheckedHit pm historyKey l (.node i) = true)

theorem Fit.of_sameButCosts (h : l.SameButCosts l') (hi : Fit pm historyKey l' i) :
    Fit pm historyKey l i :=
  ⟨h.symm.conversionWord hi.1, fun huser => by
    rw [← h.uncheckedHit]
    exact hi.2 (h.userWord huser)⟩

variable {guard : Bytes → Lattice → Scoring}

theorem CarefulGuard.fit (h : CarefulGuard guard historyKey l) :
    (guard historyKey l).Follows l (Fit pm historyKey l) :=
  h.imp fun _ _ _ hi => ⟨hi.1, fun huser => absurd huser hi.2⟩

theorem HitGuard.fit {hit : NodeId → Bool} {penalty : Int}
    (h : HitGuard guard hit penalty historyKey l)
    (hhit : ∀ v, hit v = true → uncheckedHit pm historyKey l v = true) :
    (guard historyKey l).Follows l (Fit pm historyKey l) :=
  h.follows.imp fun i p hr hi => ⟨hi, fun _ => hhit _ ((h.raised i p).mp hr).1⟩

theorem rankingGuards_fit {isConversion resized : Bool} (hkey : l.key.length < 2 ^ 16) :
    ∀ guard ∈ rankingGuards pm connector isConversion resized,
      (guard historyKey l).Follows l (Fit pm historyKey l) := by
  intro guard hguard
  rw [rankingGuards, List.mem_append] at hguard
  rcases hguard with hguard | hguard
  · simp only [List.mem_cons, List.not_mem_nil, or_false] at hguard
    rcases hguard with rfl | rfl | rfl | rfl | rfl | rfl | rfl | rfl
    · exact careful_applyFunctionalKanaGuard.fit
    · exact careful_applyContextualRecompositionScorer.fit
    · exact hit_applySahenShitaiGuard.fit fun v hv => by simp [uncheckedHit, hv]
    · exact careful_applySahenShitaContentHijackGuard.fit
    · exact hit_applyAdministrativeRitsuGuard.fit fun v hv => by simp [uncheckedHit, hv]
    · exact careful_applyPlaceSuffixGuard.fit
    · exact hit_applyAdverbialNiGuard.fit fun v hv => by simp [uncheckedHit, hv]
    · exact hit_applyGrammarLikeProperNounGuard.fit fun v hv => by simp [uncheckedHit, hv]
  · split at hguard
    · rw [List.mem_singleton.mp hguard]
      exact (careful_applyShortCompoundSplitGuard hkey).fit
    · cases hguard

/-! ## All guards -/

/-- What guards may raise that are applied one after the other. -/
def AllFit (pm : PosMatcher) (historyKey : Bytes) (guards : List (Bytes → Lattice → Scoring))
    (l : Lattice) : Prop :=
  ∀ l', l.SameButCosts l' → ∀ guard ∈ guards,
    (guard historyKey l').Follows l' (Fit pm historyKey l')

theorem AllFit.tail {guards : List (Bytes → Lattice → Scoring)}
    (h : AllFit pm historyKey (guard :: guards) l) (hl : l.SameButCosts l') :
    AllFit pm historyKey guards l' :=
  fun k hk g hg => h k (hl.trans hk) g (List.mem_cons_of_mem _ hg)

theorem applyGuards_follows : ∀ {guards : List (Bytes → Lattice → Scoring)} {l : Lattice},
    AllFit pm historyKey guards l →
      (applyGuards historyKey guards l).1
        = l.raiseAll (applyGuards historyKey guards l).2.flatten ∧
      ∀ raised ∈ (applyGuards historyKey guards l).2, (raised.map Prod.fst).Nodup ∧
        ∀ r ∈ raised, Fit pm historyKey l r.1 ∧ 0 ≤ r.2
  | [], l, _ => ⟨rfl, fun raised h => absurd h List.not_mem_nil⟩
  | guard :: guards, l, h => by
    have hs := h l (.refl l) guard List.mem_cons_self
    obtain ⟨hlattice, hraised⟩ := applyGuards_follows (h.tail hs.sameButCosts)
    simp only [applyGuards]
    refine ⟨?_, fun raised hmem => ?_⟩
    · simp [Lattice.raiseAll_append, ← hs.lattice, hlattice]
    · rcases List.mem_cons.mp hmem with rfl | hmem
      · exact ⟨hs.once, hs.fit⟩
      · refine ⟨(hraised raised hmem).1, fun r hr => ?_⟩
        obtain ⟨hfit, hpos⟩ := (hraised raised hmem).2 r hr
        exact ⟨hfit.of_sameButCosts hs.sameButCosts, hpos⟩

/-- Each guard has its turn. -/
theorem exists_turn : ∀ {guards : List (Bytes → Lattice → Scoring)} {l : Lattice},
    AllFit pm historyKey guards l → ∀ {guard}, guard ∈ guards →
      ∃ k, l.SameButCosts k ∧
        (guard historyKey k).raised ∈ (applyGuards historyKey guards l).2
  | guard :: guards, l, h, g, hg => by
    have hs := h l (.refl l) guard List.mem_cons_self
    simp only [applyGuards]
    rcases List.mem_cons.mp hg with rfl | hg
    · exact ⟨l, .refl l, List.mem_cons_self⟩
    · obtain ⟨k, hk, hmem⟩ := exists_turn (h.tail hs.sameButCosts) hg
      exact ⟨k, hs.sameButCosts.trans hk, List.mem_cons_of_mem _ hmem⟩

theorem HitGuard.exists_raised {guards : List (Bytes → Lattice → Scoring)}
    (hfit : AllFit pm historyKey guards l) (hmem : guard ∈ guards) {hit : Lattice → NodeId → Bool}
    {penalty : Int} (h : ∀ k, HitGuard guard (hit k) penalty historyKey k) (hpenalty : 0 < penalty)
    (hblind : ∀ k, l.SameButCosts k → hit k (.node i) = hit l (.node i))
    (hhit : hit l (.node i) = true) :
    ∃ raised ∈ (applyGuards historyKey guards l).2, ∃ p, 0 < p ∧ (i, p) ∈ raised := by
  obtain ⟨k, hk, hraised⟩ := exists_turn hfit hmem
  exact ⟨_, hraised, penalty, hpenalty,
    ((h k).raised i penalty).mpr ⟨(hblind k hk).trans hhit, rfl⟩⟩

/-- A node that is hit is raised. -/
theorem exists_raised {isConversion resized : Bool} (hkey : l.key.length < 2 ^ 16)
    (hhit : uncheckedHit pm historyKey l (.node i) = true) :
    ∃ raised ∈ (applyGuards historyKey (rankingGuards pm connector isConversion resized) l).2,
      ∃ p, 0 < p ∧ (i, p) ∈ raised := by
  have hfit : AllFit pm historyKey (rankingGuards pm connector isConversion resized) l :=
    fun k hk => rankingGuards_fit (by rwa [hk.key])
  simp only [uncheckedHit, Bool.or_eq_true] at hhit
  rcases hhit with ((hhit | hhit) | hhit) | hhit
  · exact HitGuard.exists_raised hfit (by simp [rankingGuards])
      (fun k => hit_applySahenShitaiGuard) (by decide) (fun k hk => hk.sahenShitaiHit _) hhit
  · exact HitGuard.exists_raised hfit (by simp [rankingGuards])
      (fun k => hit_applyAdministrativeRitsuGuard) (by decide)
      (fun k hk => hk.administrativeRitsuHit _) hhit
  · exact HitGuard.exists_raised hfit (by simp [rankingGuards])
      (fun k => hit_applyAdverbialNiGuard) (by decide) (fun k hk => hk.adverbialNiHit _) hhit
  · exact HitGuard.exists_raised hfit (by simp [rankingGuards])
      (fun k => hit_applyGrammarLikeProperNounGuard) (by decide)
      (fun k hk => hk.grammarLikeProperNounHit _) hhit

/-! ## The law -/

structure OnlyDemotes (historyKey : Bytes) (l l' : Lattice) (raised : List (List (Nat × Int))) :
    Prop where
  key : l'.key = l.key ∧ l'.bosId = l.bosId
  /-- No node is added or removed, and no field changes but the word cost, which does not fall. -/
  length : l'.inserted.length = l.inserted.length
  costs : ∀ (i : Nat) (e : Nat × Node), l.inserted[i]? = some e →
    ∃ w, e.2.wcost ≤ w ∧ l'.inserted[i]? = some (e.1, { e.2 with wcost := w })
  /-- Who is changed. -/
  changed : ∀ (i : Nat) (e e' : Nat × Node), l.inserted[i]? = some e →
    l'.inserted[i]? = some e' → e'.2.wcost ≠ e.2.wcost →
      e.2.nodeType = .nor ∧ historyKey.length ≤ e.1 ∧ e.2.has USER_DICTIONARY = false
  /-- Each guard raises a node at most once. -/
  once : ∀ r ∈ raised, (r.map Prod.fst).Nodup

/-- **The guards only demote, and never the user's own words exactly when none is hit.** -/
theorem rankingGuards_onlyDemote_iff (pm : PosMatcher) (connector : TransitionCost)
    (isConversion resized : Bool) (historyKey : Bytes) {l : Lattice}
    (hkey : l.key.length < 2 ^ 16) :
    OnlyDemotes historyKey l
        (applyGuards historyKey (rankingGuards pm connector isConversion resized) l).1
        (applyGuards historyKey (rankingGuards pm connector isConversion resized) l).2 ↔
      ∀ (i : Nat) (e : Nat × Node), l.inserted[i]? = some e →
        e.2.has USER_DICTIONARY = true → uncheckedHit pm historyKey l (.node i) = false := by
  have hfit : AllFit pm historyKey (rankingGuards pm connector isConversion resized) l :=
    fun k hk => rankingGuards_fit (by rwa [hk.key])
  obtain ⟨hlattice, hraised⟩ := applyGuards_follows hfit
  have hnonneg : ∀ r ∈ (applyGuards historyKey
      (rankingGuards pm connector isConversion resized) l).2.flatten, 0 ≤ r.2 := by
    intro r hr
    obtain ⟨raised, hmem, hr⟩ := List.mem_flatten.mp hr
    exact ((hraised raised hmem).2 r hr).2
  have hsame := Lattice.sameButCosts_raiseAll (applyGuards historyKey
    (rankingGuards pm connector isConversion resized) l).2.flatten l
  rw [hlattice]
  constructor
  · intro h i e he huser
    by_contra hhit
    rw [Bool.not_eq_false] at hhit
    obtain ⟨raised, hmem, p, hpos, hp⟩ := exists_raised hkey hhit
    have hle := Lattice.le_total hnonneg (List.mem_flatten.mpr ⟨raised, hmem, hp⟩)
    have hchanged := h.changed i e _ he (by rw [Lattice.getElem?_raiseAll, he, Option.map_some]) (by
      simp only
      omega)
    rw [huser] at hchanged
    cases hchanged.2.2
  · intro h
    refine ⟨⟨hsame.key, hsame.bosId⟩, hsame.length, fun i e he => ?_,
      fun i e e' he he' hne => ?_, fun r hr => (hraised r hr).1⟩
    · refine ⟨_, ?_, by rw [Lattice.getElem?_raiseAll, he, Option.map_some]⟩
      have := Lattice.total_nonneg hnonneg i
      omega
    · -- A node that changed is among the raised ones.
      rw [Lattice.getElem?_raiseAll, he, Option.map_some, Option.some.injEq] at he'
      subst he'
      have hmem : i ∈ ((applyGuards historyKey
          (rankingGuards pm connector isConversion resized) l).2.flatten).map Prod.fst := by
        by_contra hnot
        rw [Lattice.total_of_not_mem hnot] at hne
        exact hne (Int.add_zero _)
      obtain ⟨r, hr, rfl⟩ := List.mem_map.mp hmem
      obtain ⟨raised, hmem, hr⟩ := List.mem_flatten.mp hr
      obtain ⟨⟨⟨e', he', hnor, hb⟩, huser⟩, _⟩ := (hraised raised hmem).2 r hr
      obtain rfl := Option.some.inj (he.symm.trans he')
      refine ⟨hnor, hb, ?_⟩
      by_contra hdict
      rw [Bool.not_eq_false] at hdict
      have := huser ⟨e, he, hdict⟩
      simp [h _ e he hdict] at this

/-- 確認, committed, and したい after it, for which the user registered 死体. -/
def withUserWord (attributes : UInt32) : Lattice :=
  ((Lattice.setKey (utf8 "かくにんしたい") 0).insert 0
      { key := utf8 "かくにん", value := utf8 "確認", lid := 1, rid := 1, nodeType := .his }
      (by decide +kernel)).insert 12
    { key := utf8 "したい", value := utf8 "死体", wcost := 5000, attributes := attributes }
    (by decide +kernel)

/-- Only 確認 forms a verb with する. -/
def sahenNoun : PosMatcher := { isUnknown := fun id => id = 1 }

theorem rankingGuards_onlyDemote_ordinaryWord :
    OnlyDemotes (utf8 "かくにん") (withUserWord 0)
        (applyGuards (utf8 "かくにん") (rankingGuards sahenNoun (fun _ _ => 0) true false)
          (withUserWord 0)).1
        (applyGuards (utf8 "かくにん") (rankingGuards sahenNoun (fun _ _ => 0) true false)
          (withUserWord 0)).2 ↔
      ∀ (i : Nat) (e : Nat × Node), (withUserWord 0).inserted[i]? = some e →
        e.2.has USER_DICTIONARY = true →
          uncheckedHit sahenNoun (utf8 "かくにん") (withUserWord 0) (.node i) = false :=
  rankingGuards_onlyDemote_iff _ _ _ _ _ (by decide +kernel)

/-- The word of the user is demoted by 1800. -/
theorem not_onlyDemotes_userWord :
    ¬ OnlyDemotes (utf8 "かくにん") (withUserWord USER_DICTIONARY)
      (applyGuards (utf8 "かくにん") (rankingGuards sahenNoun (fun _ _ => 0) true false)
        (withUserWord USER_DICTIONARY)).1
      (applyGuards (utf8 "かくにん") (rankingGuards sahenNoun (fun _ _ => 0) true false)
        (withUserWord USER_DICTIONARY)).2 := by
  intro h
  have hraised : ((applyGuards (utf8 "かくにん") (rankingGuards sahenNoun (fun _ _ => 0) true false)
      (withUserWord USER_DICTIONARY)).1.inserted[1]?).map (fun e => e.2.wcost) = some 6800 := by
    decide +kernel
  obtain ⟨e', he', hcost⟩ := Option.map_eq_some_iff.mp hraised
  have huser := h.changed 1 _ e' rfl he' (by
    rw [hcost]
    decide +kernel)
  exact absurd huser.2.2 (by decide +kernel)

end Mozkey.Converter
