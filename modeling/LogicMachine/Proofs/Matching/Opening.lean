import LogicMachine.Proofs.Code.Solving
import LogicMachine.Proofs.Code.Validity
import LogicMachine.Proofs.Matching.Patterns

/-!
# The code in front of the goals

A clause keeps the level to cut back to, reports its entry and matches its head
before it comes to its goals.  The draft at that point tells where the code of
the head ends and which slots the variables of the head have got.
-/

namespace LogicMachine

/-! ## The variables of a head -/

/-- The variables have slots. -/
def Draft.Covers (draft : Draft) (names : List String) : Prop :=
  ∀ name ∈ names, name = Term.anonymous ∨
    ∃ slot, draft.slots.lookup name = some slot

/-- Slots of variables stay theirs. -/
def Draft.KeepsSlots (before after : Draft) : Prop :=
  ∀ name slot, before.slots.lookup name = some slot →
    ∃ later, after.slots.lookup name = some later

theorem Draft.slots_emitted (draft : Draft) (items : List Item) :
    (draft.emitted items).slots = draft.slots :=
  rfl

/-- The variables have slots, or stand in a compound that was put off. -/
def Draft.CoversBut (draft : Draft) (names : List String)
    (patterns : List Pattern) : Prop :=
  ∀ name ∈ names, name = Term.anonymous ∨
    (∃ slot, draft.slots.lookup name = some slot) ∨
      ∃ pattern ∈ patterns, name ∈ Term.varsOf pattern.args

theorem Shape.vars_constant {term : Term} {functor : Functor}
    (decided : of term = .ok (.constant functor)) : term.vars = [] := by
  cases term with
  | atom name => rfl
  | var name =>
      simp only [of] at decided
      split at decided <;> cases decided
  | compound name args =>
      simp only [of] at decided
      split at decided
      · split at decided <;> cases decided
      · split at decided
        case isTrue empty =>
          rw [List.isEmpty_iff.mp empty]
          rfl
        case isFalse => cases decided

theorem Shape.vars_compound {term : Term} {functor : Option Functor}
    {args : List Term} (decided : of term = .ok (.compound functor args)) :
    term.vars = Term.varsOf args := by
  cases term with
  | atom name => cases decided
  | var name =>
      simp only [of] at decided
      split at decided <;> cases decided
  | compound name inner =>
      simp only [of] at decided
      split at decided
      · split at decided <;> cases decided
        rfl
      · split at decided <;> cases decided
        rfl

namespace Draft.KeepsSlots

theorem refl (draft : Draft) : draft.KeepsSlots draft :=
  fun _ slot found => ⟨slot, found⟩

theorem trans {first second third : Draft} (left : first.KeepsSlots second)
    (right : second.KeepsSlots third) : first.KeepsSlots third := by
  intro name slot found
  obtain ⟨later, again⟩ := left name slot found
  exact right name later again

theorem withVariable (draft : Draft) (name : String) :
    draft.KeepsSlots (draft.withVariable name) := by
  intro other slot found
  simp only [Draft.withVariable, List.lookup_cons]
  split
  · exact ⟨_, rfl⟩
  · exact ⟨slot, found⟩

/-- Labels and code make no difference. -/
theorem of_slots {before middle after : Draft}
    (keeps : before.KeepsSlots middle) (same : after.slots = middle.slots) :
    before.KeepsSlots after := by
  intro name slot found
  rw [same]
  exact keeps name slot found

theorem covers {before after : Draft} (keeps : before.KeepsSlots after)
    {names : List String} {patterns : List Pattern}
    (covers : before.CoversBut names patterns) :
    after.CoversBut names patterns := by
  intro name member
  rcases covers name member with same | ⟨slot, found⟩ | inner
  · exact .inl same
  · exact .inr (.inl (keeps name slot found))
  · exact .inr (.inr inner)

end Draft.KeepsSlots

namespace Draft.CoversBut

variable {draft : Draft} {names others : List String}
  {patterns more : List Pattern}

theorem append (first : draft.CoversBut names patterns)
    (second : draft.CoversBut others more) :
    draft.CoversBut (names ++ others) (patterns ++ more) := by
  intro name member
  rcases List.mem_append.mp member with left | right
  · rcases first name left with same | found | ⟨pattern, inner, occurs⟩
    · exact .inl same
    · exact .inr (.inl found)
    · exact .inr (.inr ⟨pattern, List.mem_append_left _ inner, occurs⟩)
  · rcases second name right with same | found | ⟨pattern, inner, occurs⟩
    · exact .inl same
    · exact .inr (.inl found)
    · exact .inr (.inr ⟨pattern, List.mem_append_right _ inner, occurs⟩)

theorem known {name : String} {slot : Local}
    (found : draft.slots.lookup name = some slot) :
    draft.CoversBut [name] patterns := by
  intro other member
  cases List.mem_singleton.mp member
  exact .inr (.inl ⟨slot, found⟩)

theorem nil : draft.CoversBut [] patterns := nofun

end Draft.CoversBut

theorem Draft.lookup_withVariable (draft : Draft) (name : String) :
    (draft.withVariable name).slots.lookup name = some draft.nextLocal := by
  simp [withVariable]

namespace Slot

variable {naming : Naming} {draft after : Draft}

theorem Planned.keepsSlots {term : Term} {slot : Slot}
    (planned : Planned naming draft term slot after) :
    draft.KeepsSlots after := by
  cases planned with
  | first => exact .withVariable _ _
  | _ => exact .refl _

theorem Planned.coversVars {term : Term} {slot : Slot}
    (planned : Planned naming draft term slot after) :
    after.CoversBut term.vars (ClauseM.postponed [slot]) := by
  cases planned with
  | void =>
      intro name member
      exact .inl (List.mem_singleton.mp member)
  | first => exact .known (Draft.lookup_withVariable _ _)
  | again _ found => exact .known found
  | constant decided =>
      rw [Shape.vars_constant decided]
      exact .nil
  | nested decided =>
      rw [Shape.vars_compound decided]
      exact fun name member =>
        .inr (.inr ⟨_, List.mem_singleton.mpr rfl, member⟩)

theorem PlannedAll.keepsSlots {terms : List Term} {slots : List Slot}
    (planned : PlannedAll naming draft terms slots after) :
    draft.KeepsSlots after := by
  induction planned with
  | nil => exact .refl _
  | cons first _ ih => exact first.keepsSlots.trans ih

theorem PlannedAll.coversVars {terms : List Term} {slots : List Slot}
    (planned : PlannedAll naming draft terms slots after) :
    after.CoversBut (Term.varsOf terms) (ClauseM.postponed slots) := by
  induction planned with
  | nil => exact .nil
  | cons first rest ih =>
      rw [Term.varsOf, ClauseM.postponed_cons]
      exact (rest.keepsSlots.covers first.coversVars).append ih

end Slot

namespace ClauseM

variable {naming : Naming} {draft after : Draft}

theorem Works.keepsSlots {slots : Local × Local}
    (works : Works draft slots after) : draft.KeepsSlots after := by
  cases works <;> exact .refl _

theorem Matches.keepsSlots {pattern : Pattern} {text : List Item}
    {inner : List Pattern}
    (matched : Matches naming draft pattern text inner after) :
    draft.KeepsSlots after := by
  obtain ⟨subject, cursor, ready, slots, reserved, id, works, planned, -, rfl,
    rfl, rfl⟩ := matched
  exact (works.keepsSlots.trans planned.keepsSlots).of_slots
    (Draft.slots_emitted _ _)

theorem Matches.coversVars {pattern : Pattern} {text : List Item}
    {inner : List Pattern}
    (matched : Matches naming draft pattern text inner after) :
    after.CoversBut (Term.varsOf pattern.args) inner := by
  obtain ⟨subject, cursor, ready, slots, reserved, id, works, planned, -, rfl,
    rfl, rfl⟩ := matched
  exact planned.coversVars

theorem MatchesArgument.keepsSlots {index : Nat} {term : Term}
    {text : List Item} {inner : List Pattern}
    (matched : MatchesArgument naming draft index term text inner after) :
    draft.KeepsSlots after := by
  cases matched with
  | void => exact .refl _
  | first => exact .of_slots (.withVariable _ _) (Draft.slots_emitted _ _)
  | again => exact .of_slots (.refl _) (Draft.slots_emitted _ _)
  | constant _ _ works =>
      exact works.keepsSlots.of_slots (Draft.slots_emitted _ _)
  | compound _ matched =>
      obtain ⟨matched⟩ := matched
      exact matched.keepsSlots

theorem MatchesArgument.coversVars {index : Nat} {term : Term}
    {text : List Item} {inner : List Pattern}
    (matched : MatchesArgument naming draft index term text inner after) :
    after.CoversBut term.vars inner := by
  cases matched with
  | void =>
      intro name member
      exact .inl (List.mem_singleton.mp member)
  | first => exact .known (Draft.lookup_withVariable _ _)
  | again _ found => exact .known found
  | constant decided =>
      rw [Shape.vars_constant decided]
      exact .nil
  | compound decided matched =>
      obtain ⟨matched⟩ := matched
      rw [Shape.vars_compound decided]
      exact matched.coversVars

theorem MatchesArguments.keepsSlots {index : Nat} {terms : List Term}
    {text : List Item} {inner : List Pattern}
    (matched : MatchesArguments naming draft index terms text inner after) :
    draft.KeepsSlots after := by
  induction matched with
  | nil => exact .refl _
  | cons first _ ih => exact first.keepsSlots.trans ih

theorem MatchesArguments.coversVars {index : Nat} {terms : List Term}
    {text : List Item} {inner : List Pattern}
    (matched : MatchesArguments naming draft index terms text inner after) :
    after.CoversBut (Term.varsOf terms) inner := by
  induction matched with
  | nil => exact .nil
  | cons first rest ih =>
      rw [Term.varsOf]
      exact (rest.keepsSlots.covers first.coversVars).append ih

theorem MatchesPostponed.coversVars {patterns : List Pattern} {text : List Item}
    (matched : MatchesPostponed naming draft patterns text after) :
    draft.KeepsSlots after ∧
      ∀ pattern ∈ patterns, after.Covers (Term.varsOf pattern.args) := by
  induction matched with
  | nil => exact ⟨.refl _, nofun⟩
  | cons first _ ih =>
      obtain ⟨first⟩ := first
      obtain ⟨keeps, covers⟩ := ih
      refine ⟨first.keepsSlots.trans keeps, fun pattern member => ?_⟩
      rcases List.mem_cons.mp member with rfl | later
      · intro name occurs
        rcases keeps.covers first.coversVars name occurs with
          same | found | ⟨inner, listed, deeper⟩
        · exact .inl same
        · exact .inr found
        · exact covers inner (List.mem_append_right _ listed) name deeper
      · exact covers pattern (List.mem_append_left _ later)

/-- All variables of the head have slots. -/
theorem MatchesHead.coversVars {head : Goal} {text : List Item}
    (matched : MatchesHead naming draft head text after) :
    after.Covers head.vars := by
  obtain ⟨first, second⟩ := matched
  obtain ⟨keeps, covers⟩ := second.coversVars
  intro name occurs
  rcases keeps.covers first.coversVars name occurs with
    same | found | ⟨inner, listed, deeper⟩
  · exact .inl same
  · exact .inr found
  · exact covers inner listed name deeper

end ClauseM

/-! ## The text in front of the goals -/

/-- Compiles what a clause does before its first goal. -/
def ClauseM.openRule {m : Type → Type} [Linker m] (rule : Rule)
    (trace : Bool) : ClauseM m Unit := do
  compileCutLevel rule
  if trace then
    let functor ← intern (.ofGoal rule.head)
    emit [.operand .trace functor.index]
  compileHead rule.head

namespace Rule

/-- The draft of a clause before its first goal, for given names. -/
def opened (rule : Rule) (trace : Bool) (naming : Naming) :
    Except Fault Draft :=
  ((ClauseM.openRule rule trace : ClauseM PlanM Unit) .empty naming).map
    Prod.snd

/-- The draft of a clause that keeps the level to cut back to, if it has to. -/
def levelled (rule : Rule) : Draft :=
  if rule.hasCut then .withCutLevel else .empty

/-- The draft of a clause before its head. -/
def started (rule : Rule) (traced : Option FunctorId) : Draft :=
  rule.levelled.emitted (reportText .trace traced)

/-- The text before the head. -/
def prelude (rule : Rule) (traced : Option FunctorId) : List Item :=
  keepLevel rule.hasCut ++ reportText .trace traced

/-- The parts of the text of a clause. -/
structure Layout (rule : Rule) (trace : Bool) (naming : Naming)
    (after : Draft) where
  traced : Option FunctorId
  head : List Item
  opened : Draft
  goals : List Item
  ended : Draft
  known : ∀ id, traced = some id →
    naming.number? (.ofGoal rule.head) = some id
  matched : ClauseM.MatchesHead naming (rule.started traced) rule.head head
    opened
  isOpened : rule.opened trace naming = .ok opened
  solved : Draft.Solves naming opened rule.goals goals ended
  contains : after.assembler.Contains (rule.prelude traced ++ head ++
    (goals ++ reportText .endTrace traced))
  size : opened.assembler.words.size = textSize (rule.prelude traced ++ head)
  locals : opened.assembler.locals ≤ after.assembler.locals
  few : after.assembler.locals ≤
    textSize (rule.prelude traced ++ head ++
      (goals ++ reportText .endTrace traced))

/-- The text after the head. -/
def Layout.body {rule : Rule} {trace : Bool} {naming : Naming} {after : Draft}
    (layout : rule.Layout trace naming after) : List Item :=
  layout.goals ++ reportText .endTrace layout.traced

theorem writes_started (rule : Rule) (traced : Option FunctorId) :
    ∃ bound, Draft.empty.Writes bound (rule.prelude traced)
      (rule.started traced) := by
  have kept : ∃ bound, Draft.empty.Writes bound (keepLevel rule.hasCut)
      rule.levelled := by
    unfold levelled
    cases rule.hasCut with
    | true => exact ⟨3, Draft.writes_withCutLevel⟩
    | false => exact ⟨0, .nil _⟩
  obtain ⟨bound, first⟩ := kept
  obtain ⟨more, second⟩ := Draft.writes_report rule.levelled .trace traced
  exact ⟨bound + more, first.append second⟩

/-- No slot is given out for a term before the head. -/
theorem arranges_started (rule : Rule) (traced : Option FunctorId) :
    (rule.started traced).Arranges [] [] := by
  refine Draft.Arranges.emitted ?_ _
  unfold levelled
  cases rule.hasCut <;> exact ⟨⟨nofun, nofun, nofun⟩, nofun, nofun⟩

theorem laid_started (rule : Rule) (traced : Option FunctorId) :
    (rule.started traced).Laid ∧ (rule.hasCut = true →
      (rule.started traced).cutLevel = some ⟨0⟩) := by
  have later := Draft.Later.emitted rule.levelled (reportText .trace traced)
  have levelled : rule.levelled.Laid ∧ (rule.hasCut = true →
      rule.levelled.cutLevel = some ⟨0⟩) := by
    unfold Rule.levelled
    cases rule.hasCut with
    | true => exact ⟨Draft.laid_withCutLevel, fun _ => rfl⟩
    | false => exact ⟨Draft.laid_empty, nofun⟩
  exact ⟨later.laid levelled.1, fun cuts => later.cut _ (levelled.2 cuts)⟩

end Rule

namespace ClauseM

open Draft

variable {naming : Naming}

namespace Plans

variable {α : Type} {plan : ClauseM PlanM α} {draft : Draft} {proper : Prop}

theorem and {first second : α → Draft → Prop}
    (plans : Plans plan draft naming proper first)
    (also : Plans plan draft naming proper second) :
    Plans plan draft naming proper
      (fun value after => first value after ∧ second value after) := by
  unfold Plans at plans also ⊢
  cases ran : plan draft naming with
  | error fault =>
      rw [ran] at plans
      exact plans
  | ok result =>
      rw [ran] at plans also
      exact ⟨plans, also⟩

/-- What was compiled, if anything. -/
theorem ran : Plans plan draft naming False
    (fun value after => plan draft naming = .ok (value, after)) := by
  unfold Plans
  cases plan draft naming with
  | error fault => exact fun _ => id
  | ok result => exact rfl

end Plans

theorem compileCutLevel_levelled (rule : Rule) :
    Plans (compileCutLevel rule) .empty naming False
      (fun _ after => after = rule.levelled) := by
  unfold compileCutLevel
  cases cuts : rule.hasCut with
  | true =>
      have isLevelled : rule.levelled = .withCutLevel := by
        rw [Rule.levelled, if_pos cuts]
      rw [Rule.hasCut] at cuts
      rw [if_pos cuts, isLevelled]
      exact rfl
  | false =>
      have isLevelled : rule.levelled = .empty := by
        rw [Rule.levelled, if_neg (by simp [cuts])]
      rw [Rule.hasCut] at cuts
      rw [if_neg (by simp [cuts]), isLevelled]
      exact rfl

/-- The head and the goals of a clause, and the report of its exit. -/
theorem compileBody_layout (rule : Rule) (trace : Bool)
    {traced : Option FunctorId}
    (known : ∀ id, traced = some id →
      naming.number? (.ofGoal rule.head) = some id)
    (opens : ∀ opened, (compileHead rule.head : ClauseM PlanM Unit)
      (rule.started traced) naming = .ok ((), opened) →
        rule.opened trace naming = .ok opened)
    {last : ClauseM PlanM Unit}
    (ends : last = emit (reportText .endTrace traced)) :
    Plans (do
        compileHead rule.head
        for goal in rule.goals do
          compileGoal goal
        last) (rule.started traced) naming False
      (fun _ after => Nonempty (rule.Layout trace naming after)) := by
  obtain ⟨laid, cuts⟩ := rule.laid_started traced
  refine (((compileHead_matches rule.head).and .ran).and
    (compileHead_passes rule.head laid)).bind ?_
  rintro _ opened ⟨⟨⟨head, matched⟩, ran⟩, ⟨_, passes⟩⟩
  refine (compileGoals_solves rule.goals).loosen.bind ?_
  rintro _ ended ⟨goals, solved⟩
  rw [ends]
  refine Plans.emit.imp id ?_
  rintro _ _ rfl
  obtain ⟨_, first⟩ := rule.writes_started traced
  obtain ⟨_, second⟩ := matched.writes
  have third := solved.writes
  obtain ⟨_, fourth⟩ := writes_report ended .endTrace traced
  have front := ((first.append second).text [] text_empty).contains
  have whole := (first.append second).append (third.append fourth)
  refine ⟨⟨traced, head, opened, goals, ended, known,
    matched, opens opened ran, solved, (whole.text [] text_empty).contains,
    front.size_eq, ?_, ?_⟩⟩
  · rw [locals_emitted]
    exact (solved.passes rule.head.arity (passes.laid laid)
      fun hasCut => ⟨_, passes.cut _ (cuts hasCut)⟩).grows
  · exact Nat.le_trans whole.locals (Nat.le_of_eq (Nat.zero_add _))

theorem compileRule_layout (rule : Rule) (trace : Bool) :
    Plans (compileRule rule trace) .empty naming False
      (fun _ after => Nonempty (rule.Layout trace naming after)) := by
  refine ((compileCutLevel_levelled rule).and .ran).bind ?_
  rintro _ _ ⟨rfl, levelled⟩
  cases trace with
  | true =>
      refine Plans.bind (Plans.map some Plans.intern) ?_
      rintro _ _ ⟨functor, rfl, known, rfl⟩
      refine Plans.emit.bind ?_
      rintro _ _ rfl
      refine @compileBody_layout _ rule true (some functor) ?_ ?_ _ rfl
      · rintro _ ⟨⟩
        exact known
      · intro opened ran
        have shape : (openRule rule true : ClauseM PlanM Unit) .empty naming =
            ((compileCutLevel rule : ClauseM PlanM Unit) .empty naming >>=
              fun result =>
                (intern (.ofGoal rule.head) : ClauseM PlanM FunctorId) result.2
                    naming >>= fun result =>
                  (compileHead rule.head : ClauseM PlanM Unit)
                    (result.2.emitted [.operand .trace result.1.index])
                      naming) :=
          rfl
        have interned : (intern (.ofGoal rule.head) :
            ClauseM PlanM FunctorId) rule.levelled naming =
              .ok (functor, rule.levelled) := by
          show (PlanM.look (naming.number? (.ofGoal rule.head)) naming >>=
            fun id => .ok (id, rule.levelled)) = _
          rw [known]
          rfl
        rw [Rule.opened, shape, levelled]
        show Except.map _ ((intern (.ofGoal rule.head) :
          ClauseM PlanM FunctorId) rule.levelled naming >>= _) = _
        rw [interned]
        show Except.map _ ((compileHead rule.head : ClauseM PlanM Unit)
          (rule.started (some functor)) naming) = _
        rw [ran]
        rfl
  | false =>
      refine Plans.bind Plans.returned ?_
      rintro _ _ ⟨rfl, rfl⟩
      have unreported : (pure () : ClauseM PlanM Unit) =
          emit (reportText .endTrace none) := rfl
      refine @compileBody_layout _ rule false none nofun ?_ _ unreported
      intro opened ran
      have shape : (openRule rule false : ClauseM PlanM Unit) .empty naming =
          ((compileCutLevel rule : ClauseM PlanM Unit) .empty naming >>=
            fun result =>
              (compileHead rule.head : ClauseM PlanM Unit) result.2 naming) :=
        rfl
      rw [Rule.opened, shape, levelled]
      show Except.map _ ((compileHead rule.head : ClauseM PlanM Unit)
        (rule.started none) naming) = _
      rw [ran]
      rfl

end ClauseM

/-- Code that a rule was compiled to holds the text of the rule. -/
theorem Program.Compiled.layout {program : Program} {rule : Rule}
    {trace : Bool} {words : List UInt32}
    (compiled : program.Compiled rule trace words) {position : Nat}
    (stands : program.HasWords position words) :
    ∃ (draft : Draft) (layout : rule.Layout trace program.naming draft)
      (place : Label → Nat),
      words.length = textSize (Assembler.clauseText draft.assembler.locals
        rule.head.arity
        (rule.prelude layout.traced ++ layout.head ++ layout.body)) ∧
      program.Holds place position
        (Assembler.clauseText draft.assembler.locals rule.head.arity
          (rule.prelude layout.traced ++ layout.head ++ layout.body)) := by
  obtain ⟨before, after, -, compiles, keeps⟩ := compiled
  have advances := ProgramM.compile_advances rule trace before
  rw [compiles] at advances
  have code := advances.2 program.naming (program.names_naming.earlier keeps)
  simp only [Rule.code, Rule.draft] at code
  cases planned : (ClauseM.compileRule rule trace : ClauseM PlanM Unit) .empty
      program.naming with
  | error fault =>
      rw [planned] at code
      cases code
  | ok result =>
      obtain ⟨⟨⟩, draft⟩ := result
      rw [planned] at code
      have finished : draft.assembler.clause rule.head.arity = .ok words := code
      obtain ⟨layout⟩ := (ClauseM.compileRule_layout rule trace).of_ok planned
      exact ⟨draft, layout, _, layout.contains.length_clause finished,
        layout.contains.holds_clause finished stands⟩

end LogicMachine
