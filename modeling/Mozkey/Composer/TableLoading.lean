import Mozkey.Composer.Table
import Mozkey.Infra.PrefixRewriting

/-!
# Whether a table is loaded

The check of a new rule rewrites its pending text by the rules of the table, until the input of the
new rule comes up. It does not see other loops, and nothing is checked of a rule without a pending
text, so a rule that was harmless can become part of a loop later on.

* `loadFromString_returns_iff` — a text is loaded if and only if no check comes to a key that comes
  back, or that begins with a key which is rewritten to itself with something behind it
-/

namespace Mozkey.Composer

open Infra Base

variable {table : Table}

/-! ## How far a lookup looks -/

theorem Table.normalize_length (table : Table) (s : Bytes) :
    (table.normalize s).length = s.length := by
  unfold Table.normalize
  split
  · rfl
  · exact lowerString_length _ s (Nat.le_refl _)

theorem Table.normalize_front (table : Table) (n : Nat) (u w w' : Bytes)
    (h : 6 * n + 3 ≤ u.length) :
    FrontAgrees n (table.normalize (u ++ w)) (table.normalize (u ++ w')) := by
  unfold Table.normalize
  split
  · exact char32s_front n u w w' (by omega)
  · obtain ⟨front, x, x', hx, hx', hlen⟩ := lowerString_front w w' _ u (Nat.le_refl _)
    rw [hx, hx']
    exact char32s_front n front x x' (by omega)

/-- **A long enough front of a key decides which rule is found.** What is behind it is left alone,
or taken as a whole. -/
theorem Table.exists_lookUpPrefix_front (table : Table) : ∃ width, ∀ u w w' : Bytes,
    width ≤ u.length →
      (table.lookUpPrefix (u ++ w)).entry = (table.lookUpPrefix (u ++ w')).entry ∧
        ((table.lookUpPrefix (u ++ w)).keyLength = (table.lookUpPrefix (u ++ w')).keyLength ∧
            (table.lookUpPrefix (u ++ w)).keyLength < u.length ∨
          (table.lookUpPrefix (u ++ w)).keyLength = (u ++ w).length ∧
            (table.lookUpPrefix (u ++ w')).keyLength = (u ++ w').length) := by
  obtain ⟨depth, hdepth⟩ := table.entries.exists_depth
  refine ⟨6 * depth + 4, fun u w w' hwidth => ?_⟩
  have hfront := table.normalize_front depth u w w' (by omega)
  have hfound := hdepth _ _ hfront.chars
  have hle := Trie.lookUpPrefix_length_le_depth hdepth
    ((char32s (table.normalize (u ++ w))).map (·.1))
  unfold Table.lookUpPrefix
  dsimp only
  rw [← hfound]
  refine ⟨rfl, ?_⟩
  rcases hfront.bytes _ hle with ⟨heq, -, hsix⟩ | ⟨hall, hall'⟩
  · exact Or.inl ⟨heq, by omega⟩
  · rw [Table.normalize_length] at hall hall'
    exact Or.inr ⟨hall, hall'⟩

theorem Table.exists_pending_bound (table : Table) : ∃ bound, ∀ key entry,
    (table.lookUpPrefix key).entry = some entry → entry.pending.length ≤ bound := by
  obtain ⟨bound, hbound⟩ := table.entries.exists_bound fun entry : Entry => entry.pending.length
  exact ⟨bound, fun key entry h => hbound _ entry h⟩

/-! ## The check of a rule -/

theorem loopingStep_of_start {input key : Bytes} (h : input <+: key) :
    table.loopingStep input key = .inr true := by
  rw [Table.loopingStep, if_pos (List.isPrefixOf_iff_prefix.mpr h)]

theorem loopingStep_of_none {input key : Bytes} (h : ¬input <+: key)
    (hentry : (table.lookUpPrefix key).entry = none) :
    table.loopingStep input key = .inr false := by
  rw [Table.loopingStep, if_neg (fun hp => h (List.isPrefixOf_iff_prefix.mp hp))]
  dsimp only
  rw [hentry]

theorem loopingStep_of_some {input key : Bytes} {entry : Entry} (h : ¬input <+: key)
    (hentry : (table.lookUpPrefix key).entry = some entry) :
    table.loopingStep input key =
      if (entry.pending ++ key.drop (table.lookUpPrefix key).keyLength).isEmpty then .inr false
      else .inl (entry.pending ++ key.drop (table.lookUpPrefix key).keyLength) := by
  rw [Table.loopingStep, if_neg (fun hp => h (List.isPrefixOf_iff_prefix.mp hp))]
  dsimp only
  rw [hentry]

/-- **The check looks only so far into a key.** -/
theorem Table.exists_windowed (table : Table) (input : Bytes) :
    ∃ width bound, Windowed (table.loopingStep input) width bound := by
  obtain ⟨width, hwidth⟩ := table.exists_lookUpPrefix_front
  obtain ⟨bound, hbound⟩ := table.exists_pending_bound
  have hstart : ∀ u w : Bytes, input.length ≤ u.length → (input <+: u ++ w ↔ input <+: u) := by
    intro u w hlen
    constructor
    · intro hp
      exact List.prefix_of_prefix_length_le hp (List.prefix_append u w) hlen
    · intro hp
      exact hp.trans (List.prefix_append u w)
  have hlook : ∀ u w : Bytes, width ≤ u.length →
      (table.lookUpPrefix (u ++ w)).entry = (table.lookUpPrefix u).entry ∧
        ((table.lookUpPrefix (u ++ w)).keyLength = (table.lookUpPrefix u).keyLength ∧
            (table.lookUpPrefix (u ++ w)).keyLength < u.length ∨
          (table.lookUpPrefix (u ++ w)).keyLength = (u ++ w).length ∧
            (table.lookUpPrefix u).keyLength = u.length) := by
    intro u w hlen
    have hfront := hwidth u w [] hlen
    rwa [List.append_nil] at hfront
  refine ⟨max width input.length, bound, ?_, ?_⟩
  · intro u v w hlen hstep
    obtain ⟨hentry, hbytes⟩ := hlook u w (by omega)
    by_cases hp : input <+: u
    · simp [loopingStep_of_start hp] at hstep
    · have hp' : ¬input <+: u ++ w := fun h => hp ((hstart u w (by omega)).mp h)
      cases he : (table.lookUpPrefix u).entry with
      | none =>
        simp [loopingStep_of_none hp he] at hstep
      | some entry =>
        rw [loopingStep_of_some hp he] at hstep
        rw [he] at hentry
        rw [loopingStep_of_some hp' hentry]
        split at hstep
        · cases hstep
        · rw [Sum.inl.injEq] at hstep
          rcases hbytes with ⟨heq, hlt⟩ | ⟨hall, hall'⟩
          · -- the rule takes its bytes from the front
            refine Or.inl ?_
            have hdrop : entry.pending ++ (u ++ w).drop (table.lookUpPrefix (u ++ w)).keyLength
                = v ++ w := by
              rw [List.drop_append_of_le_length (by omega), ← List.append_assoc, heq, hstep]
            rw [hdrop, if_neg]
            rw [List.isEmpty_iff, List.append_eq_nil_iff, ← hstep]
            rintro ⟨hv, -⟩
            simp at hv
            omega
          · -- an ill-formed key is taken as a whole
            have hv : entry.pending = v := by
              simpa [hall'] using hstep
            refine Or.inr ⟨?_, by rw [← hv]; exact hbound u entry he⟩
            rw [hall, List.drop_length, List.append_nil, hv, if_neg]
            next hne =>
              simpa [hall', hv] using hne
  · intro u r w hlen hstep
    obtain ⟨hentry, hbytes⟩ := hlook u w (by omega)
    by_cases hp : input <+: u
    · exact ⟨true, loopingStep_of_start ((hstart u w (by omega)).mpr hp)⟩
    · have hp' : ¬input <+: u ++ w := fun h => hp ((hstart u w (by omega)).mp h)
      cases he : (table.lookUpPrefix u).entry with
      | none => exact ⟨false, loopingStep_of_none hp' (hentry.trans he)⟩
      | some entry =>
        rw [loopingStep_of_some hp he] at hstep
        rw [loopingStep_of_some hp' (hentry.trans he)]
        split at hstep
        · next hempty =>
          rw [List.isEmpty_iff, List.append_eq_nil_iff, List.drop_eq_nil_iff] at hempty
          rcases hbytes with ⟨heq, hlt⟩ | ⟨hall, -⟩
          · omega
          · refine ⟨false, ?_⟩
            simp [hall, hempty.1]
        · cases hstep

/-! ## Adding a rule -/

/-- The table, the input and the pending text that are checked, if anything is. -/
def Table.check (table : Table) (rule : Rule) : Option (Table × Bytes × Bytes) :=
  let (table', input, pending) := table.register rule
  if rule.isTooLong || input.isEmpty || pending.isEmpty then none
  else some (table', input, pending)

/-- What the rules make of the pending text does not come back, and does not begin with a key that
feeds itself. -/
def Table.Settles (table : Table) (rule : Rule) : Prop :=
  ∀ table' input pending, table.check rule = some (table', input, pending) →
    ∀ key, Reaches (table'.loopingStep input) pending key →
      ¬Recurs (table'.loopingStep input) key ∧
        ∀ front, front <+: key → ¬Feeds (table'.loopingStep input) front

theorem addOneRule_of_check_none {rule : Rule} (h : table.check rule = none) (fuel : Nat) :
    ∃ result, table.addOneRule fuel rule = some result := by
  unfold Table.check at h
  unfold Table.addOneRule
  dsimp only at h ⊢
  by_cases hlong : rule.isTooLong = true
  · exact ⟨_, if_pos hlong⟩
  · rw [if_neg hlong]
    rw [Bool.not_eq_true] at hlong
    rw [hlong, Bool.false_or] at h
    split at h
    · next hempty =>
      simp [Table.isLoopingEntry, hempty]
    · cases h

theorem addOneRule_of_check_some {rule : Rule} {table' : Table} {input pending : Bytes}
    (h : table.check rule = some (table', input, pending)) (fuel : Nat) :
    table.addOneRule fuel rule =
      match run (table'.loopingStep input) fuel pending with
      | none => none
      | some true => some (table', false)
      | some false =>
        some (table'.insert ⟨input, rule.output, pending, rule.attributes⟩, true) := by
  unfold Table.check at h
  unfold Table.addOneRule
  dsimp only at h ⊢
  split at h
  · cases h
  · next hcheck =>
    rw [Bool.or_eq_true, Bool.or_eq_true, not_or, not_or] at hcheck
    obtain ⟨⟨hlong, hinput⟩, hpending⟩ := hcheck
    rw [Option.some.injEq, Prod.mk.injEq, Prod.mk.injEq] at h
    obtain ⟨rfl, rfl, rfl⟩ := h
    have hloops : (table.register rule).1.isLoopingEntry fuel (table.register rule).2.1
        (table.register rule).2.2 = run ((table.register rule).1.loopingStep
          (table.register rule).2.1) fuel (table.register rule).2.2 :=
      if_neg (by simp [hinput, hpending])
    rcases hrun : run ((table.register rule).1.loopingStep (table.register rule).2.1) fuel
      (table.register rule).2.2 with _ | _ | _ <;> simp only [if_neg hlong, hloops, hrun]

/-- **The check of a rule ends if and only if the pending text settles.** -/
theorem addOneRule_returns_iff {rule : Rule} :
    (∃ fuel result, table.addOneRule fuel rule = some result) ↔ table.Settles rule := by
  cases hcheck : table.check rule with
  | none =>
    constructor
    · intro _ table' input pending h
      simp [hcheck] at h
    · intro _
      exact ⟨0, addOneRule_of_check_none hcheck 0⟩
  | some checked =>
    obtain ⟨table', input, pending⟩ := checked
    have hfinite : Finite UInt8 := 
      Finite.of_injective UInt8.toFin fun _ _ h => UInt8.toFin_inj.mp h
    obtain ⟨width, bound, hwin⟩ := table'.exists_windowed input
    have hterm : (∃ fuel result, table.addOneRule fuel rule = some result) ↔
        Terminates (table'.loopingStep input) pending := by
      constructor
      · rintro ⟨fuel, result, h⟩
        rw [addOneRule_of_check_some hcheck] at h
        cases hrun : run (table'.loopingStep input) fuel pending with
        | none =>
          simp [hrun] at h
        | some looping => exact ⟨fuel, looping, hrun⟩
      · rintro ⟨fuel, looping, hrun⟩
        refine ⟨fuel, ?_⟩
        rw [addOneRule_of_check_some hcheck, hrun]
        cases looping with
        | true => exact ⟨_, rfl⟩
        | false => exact ⟨_, rfl⟩
    rw [hterm, terminates_iff_not_feeding hwin]
    constructor
    · intro h table'' input' pending' hcheck'
      rw [hcheck, Option.some.injEq, Prod.mk.injEq, Prod.mk.injEq] at hcheck'
      obtain ⟨rfl, rfl, rfl⟩ := hcheck'
      exact h
    · intro h
      exact h table' input pending hcheck

theorem addOneRule_mono {fuel fuel' : Nat} {rule : Rule} {result : Table × Bool}
    (h : table.addOneRule fuel rule = some result) (hle : fuel ≤ fuel') :
    table.addOneRule fuel' rule = some result := by
  cases hcheck : table.check rule with
  | none =>
    unfold Table.check at hcheck
    unfold Table.addOneRule at h ⊢
    dsimp only at hcheck h ⊢
    by_cases hlong : rule.isTooLong = true
    · rwa [if_pos hlong] at h ⊢
    · rw [if_neg hlong] at h ⊢
      rw [Bool.not_eq_true] at hlong
      rw [hlong, Bool.false_or] at hcheck
      split at hcheck
      · next hempty => rwa [Table.isLoopingEntry, if_pos hempty] at h ⊢
      · cases hcheck
  | some checked =>
    obtain ⟨table', input, pending⟩ := checked
    rw [addOneRule_of_check_some hcheck] at h ⊢
    cases hrun : run (table'.loopingStep input) fuel pending with
    | none =>
      simp [hrun] at h
    | some looping =>
      rw [hrun] at h
      rw [run_mono hrun hle]
      exact h

/-! ## Loading a table -/

/-- A rule for a new chunk is added twice, with the prefix of new chunks first. -/
def Rule.calls (rule : Rule) : List Rule :=
  if rule.attributes.newChunk then
    [{ rule with escapedInput := kNewChunkPrefix ++ rule.escapedInput, attributes := {} }, rule]
  else [rule]

def Table.addCalls (fuel : Nat) : Table → List Rule → Option Table
  | table, [] => some table
  | table, rule :: rules =>
    match table.addOneRule fuel rule with
    | none => none
    | some (table', _) => table'.addCalls fuel rules

/-- Adding the rules one after another comes to a table and the rule that is added next. -/
inductive ReachesCall : Table → List Rule → Table → Rule → Prop where
  | here {table : Table} {rule : Rule} {rules : List Rule} :
    ReachesCall table (rule :: rules) table rule
  | later {table table' table'' : Table} {fuel : Nat} {added : Bool} {rule rule' : Rule}
    {rules : List Rule} : table.addOneRule fuel rule = some (table', added) →
    ReachesCall table' rules table'' rule' → ReachesCall table (rule :: rules) table'' rule'

theorem addCalls_mono : ∀ {fuel fuel' : Nat} {rules : List Rule} {table table' : Table},
    table.addCalls fuel rules = some table' → fuel ≤ fuel' →
    table.addCalls fuel' rules = some table'
  | _, _, [], _, _, h, _ => h
  | fuel, fuel', rule :: rules, table, table', h, hle => by
    rw [Table.addCalls] at h ⊢
    cases hadd : table.addOneRule fuel rule with
    | none =>
      simp [hadd] at h
    | some result =>
      rw [hadd] at h
      rw [addOneRule_mono hadd hle]
      exact addCalls_mono h hle

theorem addCalls_returns_iff : ∀ (rules : List Rule) (table : Table),
    (∃ fuel table', table.addCalls fuel rules = some table') ↔
      ∀ table' rule, ReachesCall table rules table' rule → table'.Settles rule
  | [], table => by
    constructor
    · intro _ table' rule h
      cases h
    · intro _
      exact ⟨0, table, rfl⟩
  | rule :: rules, table => by
    constructor
    · rintro ⟨fuel, table'', h⟩ table' rule' hcall
      rw [Table.addCalls] at h
      cases hadd : table.addOneRule fuel rule with
      | none =>
        simp [hadd] at h
      | some result =>
        obtain ⟨next, added⟩ := result
        rw [hadd] at h
        cases hcall with
        | here => exact addOneRule_returns_iff.mp ⟨fuel, _, hadd⟩
        | @later _ next' _ fuel' added' _ _ _ hadd' hrest =>
          -- the same table whatever the fuel
          have hsame := addOneRule_mono hadd (Nat.le_max_left fuel fuel')
          rw [addOneRule_mono hadd' (Nat.le_max_right fuel fuel'), Option.some.injEq,
            Prod.mk.injEq] at hsame
          rw [hsame.1] at hrest
          exact (addCalls_returns_iff rules next).mp ⟨fuel, table'', h⟩ table' rule' hrest
    · intro h
      obtain ⟨fuel, ⟨next, added⟩, hadd⟩ := addOneRule_returns_iff.mpr (h table rule .here)
      obtain ⟨fuel', table', hrest⟩ := (addCalls_returns_iff rules next).mpr
        fun table' rule' hcall => h table' rule' (.later hadd hcall)
      refine ⟨max fuel fuel', table', ?_⟩
      rw [Table.addCalls, addOneRule_mono hadd (Nat.le_max_left fuel fuel')]
      exact addCalls_mono hrest (Nat.le_max_right fuel fuel')

theorem addCalls_append (fuel : Nat) (rules' : List Rule) : ∀ (rules : List Rule) (table : Table),
    table.addCalls fuel (rules ++ rules') =
      (table.addCalls fuel rules).bind fun table' => table'.addCalls fuel rules'
  | [], _ => rfl
  | rule :: rules, table => by
    rw [List.cons_append, Table.addCalls, Table.addCalls]
    cases table.addOneRule fuel rule with
    | none => rfl
    | some result => exact addCalls_append fuel rules' rules result.1

theorem addRuleWithAttributes_eq (fuel : Nat) (rule : Rule) (table : Table) :
    (table.addRuleWithAttributes fuel rule).map (·.1) = table.addCalls fuel rule.calls := by
  have hone : ∀ (table : Table) (rule : Rule),
      (table.addOneRule fuel rule).map (·.1) = table.addCalls fuel [rule] := by
    intro table rule
    rw [Table.addCalls]
    cases table.addOneRule fuel rule <;> rfl
  unfold Table.addRuleWithAttributes Rule.calls
  split
  · rw [Table.addCalls]
    cases table.addOneRule fuel
        { escapedInput := kNewChunkPrefix ++ rule.escapedInput, output := rule.output,
          escapedPending := rule.escapedPending } with
    | none => rfl
    | some result => exact hone result.1 rule
  · exact hone table rule

theorem addRules_eq_addCalls (fuel : Nat) : ∀ (rules : List Rule) (table : Table),
    table.addRules fuel rules = table.addCalls fuel (rules.flatMap Rule.calls)
  | [], _ => rfl
  | rule :: rules, table => by
    rw [List.flatMap_cons, addCalls_append, ← addRuleWithAttributes_eq, Table.addRules]
    cases table.addRuleWithAttributes fuel rule with
    | none => rfl
    | some result => exact addRules_eq_addCalls fuel rules result.1

/-- **A text is loaded if and only if the pending text of every rule settles in the table that the
rules in front of it have built.** -/
theorem loadFromString_returns_iff (table : Table) (text : Bytes) :
    (∃ fuel table', table.loadFromString fuel text = some table') ↔
      ∀ table' rule, ReachesCall table ((parseRules text).flatMap Rule.calls) table' rule →
        table'.Settles rule := by
  rw [← addCalls_returns_iff]
  unfold Table.loadFromString
  simp only [addRules_eq_addCalls]

/-! ## A loop among the rules of a table -/

/-- `x` comes back as soon as `y` is a rule. Nothing is checked when `y` is added, and `z` is
checked in vain. -/
def loopingRules : Bytes := utf8 "x\t\tyx\ny\tq\nz\t\tx\n"

theorem loopingRules_calls : (parseRules loopingRules).flatMap Rule.calls =
    [⟨utf8 "x", [], utf8 "yx", {}⟩, ⟨utf8 "y", utf8 "q", [], {}⟩,
      ⟨utf8 "z", [], utf8 "x", {}⟩] := by
  decide

/-- **The load of a table does not end.** -/
theorem loopingRules_not_loaded :
    ¬∀ table text, ∃ fuel table', Table.loadFromString fuel table text = some table' := by
  intro h
  obtain ⟨fuel, table', hload⟩ := h Table.new loopingRules
  rw [Table.loadFromString, addRules_eq_addCalls, loopingRules_calls] at hload
  have hsettles := (addCalls_returns_iff _ _).mp ⟨fuel, table', hload⟩ _ _
    (.later (show Table.new.addOneRule 2 _ = some (_, _) from rfl)
      (.later (show Table.addOneRule 2 _ _ = some (_, _) from rfl) .here))
  refine (hsettles _ (utf8 "z") (utf8 "x") rfl (utf8 "x") .refl).1 ⟨2, by decide, ?_⟩
  decide

end Mozkey.Composer
