import LogicMachine.Proofs.Control.Texts

/-!
# The texts of goals

The text of a goal builds the arguments, pushes them and calls the predicate.
The text of a cut loads the level that the clause was entered at and commits to
it.
-/

namespace LogicMachine

variable [Atoms]

namespace Draft

/-- The built term is in a slot that was set aside for a term. -/
def OwnsBuilt (draft : Draft) : Built → Prop
  | .slot place => draft.Owns place
  | .constant functor => Atoms.includes functor

theorem OwnsBuilt.later {before after : Draft} {value : Built}
    (owns : before.OwnsBuilt value) (later : before.Later after) :
    after.OwnsBuilt value := by
  cases value with
  | slot place => exact later.owns place owns
  | constant functor => exact owns

theorem OwnsBuilt.keeps {draft : Draft} {value : Built}
    (owns : draft.OwnsBuilt value) {desk : Desk}
    (keeps : ∀ slot, draft.Owns slot → desk.Keeps slot) :
    desk.KeepsBuilt value := by
  cases value with
  | slot place => exact keeps place owns
  | constant functor => exact owns

/-- Writing a text that builds terms. -/
theorem Plays.of_builds {arity bound : Nat} {before reserved : Draft}
    {items : List Item} (later : before.Later reserved)
    (writes : before.Writes bound items (reserved.emitted items))
    (builds : ∀ desk : Desk, desk.Sound → Serves before reserved desk →
      ∀ (setting : Setting) (place : Label → Nat),
        desk.Builds setting place items) :
    before.Plays arity items (reserved.emitted items) where
  toLater := later.trans (.emitted reserved items)
  writes := ⟨bound, writes⟩
  carries := fun desk sound _ serves setting place =>
    builds desk sound (serves.left (.emitted reserved items)) setting place
      _ desk.stable_anything

/-- The text builds a term.  A named variable has a slot of its own, and a new
one is made when it is first met. -/
structure Renders (arity : Nat) (before : Draft) (term : Term)
    (text : List Item) (value : Built) (after : Draft) : Prop where
  plays : before.Plays arity text after
  owns : after.OwnsBuilt value
  named : ∀ name, term = .var name → name ≠ Term.anonymous →
    ∃ slot, value = .slot slot ∧ after.slots.lookup name = some slot
  first : ∀ name, term = .var name → name ≠ Term.anonymous →
    before.slots.lookup name = none →
      value = .slot before.nextLocal ∧
        text = Item.freshVariable (some before.nextLocal)

/-- The text builds terms, from left to right. -/
structure RendersAll (arity : Nat) (before : Draft) (terms : List Term)
    (text : List Item) (values : List Built) (after : Draft) : Prop where
  plays : before.Plays arity text after
  length : values.length = terms.length
  owns : ∀ value ∈ values, after.OwnsBuilt value
  named : ∀ (index : Nat) name, terms[index]? = some (.var name) →
    name ≠ Term.anonymous → ∃ slot, values[index]? = some (.slot slot) ∧
      after.slots.lookup name = some slot
  first : ∀ name, terms = [.var name] → name ≠ Term.anonymous →
    before.slots.lookup name = none →
      values = [.slot before.nextLocal] ∧
        text = Item.freshVariable (some before.nextLocal)
  none : terms = [] → text = []

theorem Renders.of_closed {arity : Nat} {before after : Draft} {term : Term}
    {text : List Item} {value : Built} (plays : before.Plays arity text after)
    (owns : after.OwnsBuilt value) (closed : ∀ name, term ≠ .var name) :
    before.Renders arity term text value after :=
  ⟨plays, owns, fun name same => absurd same (closed name),
    fun name same => absurd same (closed name)⟩

theorem RendersAll.nil {arity : Nat} (draft : Draft) :
    draft.RendersAll arity [] [] [] draft :=
  ⟨.nil draft, rfl, by simp, by simp, by simp, fun _ => rfl⟩

theorem Renders.cons {arity : Nat} {before middle after : Draft} {term : Term}
    {terms : List Term} {text more : List Item} {value : Built}
    {values : List Built} (first : before.Renders arity term text value middle)
    (rest : middle.RendersAll arity terms more values after) :
    before.RendersAll arity (term :: terms) (text ++ more) (value :: values)
      after where
  plays := first.plays.append rest.plays
  length := by rw [List.length_cons, List.length_cons, rest.length]
  owns := by
    intro other member
    rcases List.mem_cons.mp member with rfl | inside
    · exact first.owns.later rest.plays.toLater
    · exact rest.owns other inside
  named := by
    intro index name found isNamed
    cases index with
    | zero =>
        obtain ⟨slot, same, known⟩ :=
          first.named name (Option.some.inj found) isNamed
        exact ⟨slot, congrArg some same,
          rest.plays.toLater.slots name slot known⟩
    | succ index => exact rest.named index name found isNamed
  first := by
    rintro name ⟨⟩ isNamed unknown
    obtain ⟨same, isFresh⟩ := first.first name rfl isNamed unknown
    rw [same, isFresh, rest.none rfl, List.append_nil,
      List.length_eq_zero_iff.mp rest.length]
    exact ⟨rfl, rfl⟩
  none := by simp

theorem freshVariable_plays {arity : Nat} {before draft : Draft} {slot : Local}
    (later : before.Later draft) (reserves : before.Reserves draft)
    (locals : draft.assembler.locals ≤ before.assembler.locals + 1)
    (owns : draft.Owns slot) (isNew : ¬ before.Owns slot) :
    before.Plays arity (Item.freshVariable (some slot))
        (draft.emitted (Item.freshVariable (some slot))) ∧
      (draft.emitted (Item.freshVariable (some slot))).Owns slot := by
  refine ⟨.of_builds later (.emit_plain reserves rfl rfl (Nat.le_refl 11) ?_)
    ?_, (Later.emitted draft _).owns slot owns⟩
  · exact Nat.le_trans locals
      (Nat.add_le_add_left (ClauseM.textSize_plain_pos _ _) _)
  · intro desk sound serves setting place
    refine Desk.builds_freshVariable sound ?_
    rintro given ⟨⟩
    exact serves.frees slot owns isNew

theorem compoundItems_plays {arity : Nat} {draft : Draft}
    (functor : Option FunctorId) {values : List Built} (laid : draft.Laid)
    (owns : ∀ value ∈ values, draft.OwnsBuilt value) :
    draft.Plays arity (Built.compoundItems draft.nextLocal functor values)
      (draft.withLocal.emitted
        (Built.compoundItems draft.nextLocal functor values)) := by
  refine .of_builds (Later.withLocal draft)
    (ClauseM.Writes.compoundItems _ functor values (.withLocal draft)
      (Nat.le_refl _)) ?_
  intro desk sound serves setting place
  refine Desk.builds_compoundItems sound
    (serves.frees _ (Later.owns_next laid) draft.not_owns_next) functor ?_
  intro value member
  exact ((owns value member).later (Later.withLocal draft)).keeps serves.keeps

/-- The text that makes terms builds them. -/
theorem Composes.renders {naming : Naming} (atomic : naming.Atomic) {arity : Nat}
    {draft after : Draft} {terms : List Term} {text : List Item}
    {values : List Built} (makes : Composes naming draft terms text values after)
    (laid : draft.Laid) : draft.RendersAll arity terms text values after := by
  induction makes with
  | nil => exact .nil _
  | @void draft _ _ _ _ _ ih =>
      obtain ⟨plays, owns⟩ := @freshVariable_plays _ arity _ _ draft.nextLocal
        (Later.withLocal draft) (.withLocal draft) (Nat.le_refl _)
        (Later.owns_next laid) draft.not_owns_next
      refine Renders.cons ⟨plays, owns, ?_, ?_⟩ (ih (plays.laid laid))
      all_goals
        rintro _ ⟨⟩ named
        exact absurd rfl named
  | @first draft name _ _ _ _ named unknown _ ih =>
      have next := Later.owns_next laid
      obtain ⟨plays, owns⟩ := @freshVariable_plays _ arity _ _ draft.nextLocal
        (Later.withVariable unknown) (.withVariable draft name)
        (Nat.le_refl _) ⟨next.inside, next.apart, next.notCut⟩
        draft.not_owns_next
      refine Renders.cons ⟨plays, owns, ?_, ?_⟩ (ih (plays.laid laid))
      · rintro _ ⟨⟩ _
        refine ⟨_, rfl, ?_⟩
        show (draft.withVariable name).slots.lookup name = _
        simp [Draft.withVariable]
      · rintro _ ⟨⟩ _ _
        exact ⟨rfl, rfl⟩
  | @again draft name slot _ _ _ _ _ known _ ih =>
      have owns : draft.OwnsBuilt (.slot slot) := laid.named _ _ known
      refine Renders.cons ⟨.nil draft, owns, ?_, ?_⟩ (ih laid)
      · rintro _ ⟨⟩ _
        exact ⟨_, rfl, known⟩
      · rintro _ ⟨⟩ _ unknown
        rw [unknown] at known
        cases known
  | @constant draft _ _ id _ _ _ _ decided numbered _ ih =>
      have owns : draft.OwnsBuilt (.constant id) :=
        atomic (Shape.arity_of_constant decided) numbered
      refine Renders.cons (.of_closed (.nil draft) owns ?_) (ih laid)
      rintro name rfl
      rcases Shape.of_var name with same | same <;> cases same.symm.trans decided
  | @compound _ _ _ _ _ _ id _ _ _ _ _ decided _ _ _ ihInner ih =>
      have inner := ihInner laid
      have laidMiddle := inner.plays.laid laid
      have whole := inner.plays.append
        (compoundItems_plays id laidMiddle inner.owns)
      refine Renders.cons (.of_closed whole
        ((Later.emitted _ _).owns _ (Later.owns_next laidMiddle)) ?_)
        (ih (whole.laid laid))
      rintro name rfl
      rcases Shape.of_var name with same | same <;> cases same.symm.trans decided

/-! ## Goals -/

theorem Solves.later {naming : Naming} (atomic : naming.Atomic)
    {draft after : Draft} {goals : List Goal} {text : List Item}
    (solves : Solves naming draft goals text after) (laid : draft.Laid) :
    draft.Later after := by
  induction solves with
  | nil => exact .refl _
  | @cut draft _ _ slot _ _ _ _ _ ih =>
      have first := Later.emitted draft
        [Item.onLocal .loadLocal slot, .plain .cut]
      exact first.trans (ih (first.laid laid))
  | skip _ _ _ ih => exact ih laid
  | @call _ goal _ _ _ values entry _ _ _ makes _ _ ih =>
      have renders := @Composes.renders _ naming atomic goal.arity _ _ _ _ _ makes
        laid
      have first := renders.plays.toLater.trans (.emitted _
        (values.reverse.flatMap Built.push ++ [.operand .call entry.toUInt32]))
      exact first.trans (ih (first.laid laid))

end Draft

/-! ## Clauses -/

namespace Rule

/-- The parts of the text of a clause, and the slots that they use. -/
structure Script (rule : Rule) (naming : Naming) where
  traced : Option FunctorId
  started : Draft
  head : List Item
  ready : Draft
  body : List Item
  ended : Draft
  laid : started.Laid
  cutLevel : rule.hasCut = true → started.cutLevel = some ⟨0⟩
  plays : started.Plays rule.head.arity head ready
  takes : ∀ earlier name, ClauseM.EndsWith rule.head earlier name →
    started.Takes rule.head.arity name earlier.length head ready
  unnamed : ∀ name, name ∉ Term.varsOf rule.head.args →
    ready.slots.lookup name = none
  solves : Draft.Solves naming ready rule.goals body ended
  later : ready.Later ended

namespace Script

variable {rule : Rule} {naming : Naming}

def text (script : rule.Script naming) : List Item :=
  keepLevel rule.hasCut ++ reportText .trace script.traced ++ script.head ++
    script.body ++ reportText .endTrace script.traced

/-- The number of slots. -/
def locals (script : rule.Script naming) : Nat :=
  script.ended.assembler.locals

end Script

end Rule

namespace ClauseM

open Draft

variable {naming : Naming}

omit [Atoms] in
theorem compileCutLevel_starts (rule : Rule) :
    Plans (compileCutLevel rule) .empty naming False
      (fun _ after => after.Laid ∧ after.slots = [] ∧
        (rule.hasCut = true → after.cutLevel = some ⟨0⟩) ∧
        ∃ bound, Draft.empty.Writes bound (keepLevel rule.hasCut) after) := by
  unfold compileCutLevel
  cases cuts : rule.hasCut with
  | true =>
      rw [Rule.hasCut] at cuts
      rw [if_pos cuts]
      exact ⟨laid_withCutLevel, rfl, fun _ => rfl, 3, writes_withCutLevel⟩
  | false =>
      rw [Rule.hasCut] at cuts
      rw [if_neg (by simp [cuts])]
      exact ⟨laid_empty, rfl, nofun, 0, .nil _⟩

/-- The head and the goals of a clause, and the report of its exit. -/
theorem compileBody_script (rule : Rule) (atomic : naming.Atomic)
    {draft : Draft} {traced : Option FunctorId} {last : ClauseM PlanM Unit}
    (laid : draft.Laid) (bare : draft.slots = [])
    (cutLevel : rule.hasCut = true → draft.cutLevel = some ⟨0⟩)
    (ends : last = emit (reportText .endTrace traced))
    {bound : Nat} (writes : Draft.empty.Writes bound
      (keepLevel rule.hasCut ++ reportText .trace traced) draft) :
    Plans (do
        compileHead rule.head
        for goal in rule.goals do
          compileGoal goal
        last) draft naming False
      (fun _ after => ∃ script : rule.Script naming,
        after = script.ended.emitted (reportText .endTrace script.traced) ∧
          ∃ bound, Draft.empty.Writes bound script.text after) := by
  have unknown (name : String) : draft.slots.lookup name = none := by
    rw [bare]
    rfl
  refine ((compileHead_plays rule.head atomic laid).and_all fun name absent =>
    compileHead_unnamed (unknown name) absent).bind ?_
  rintro _ ready ⟨⟨head, plays, takes⟩, unnamed⟩
  refine (compileGoals_solves rule.goals).loosen.bind ?_
  rintro _ ended ⟨body, solves⟩
  rw [ends]
  refine Plans.emit.imp id ?_
  rintro _ _ rfl
  obtain ⟨few, first⟩ := plays.writes
  have second := solves.writes
  obtain ⟨more, third⟩ := writes_report ended .endTrace traced
  exact ⟨⟨traced, draft, head, ready, body, ended, laid, cutLevel, plays,
    fun earlier name ends => takes earlier name ends (unknown name), unnamed,
    solves, solves.later atomic (plays.laid laid)⟩, rfl, _,
    ((writes.append first).append second).append third⟩

theorem compileRule_script (rule : Rule) (atomic : naming.Atomic)
    (trace : Bool) :
    Plans (compileRule rule trace) .empty naming False
      (fun _ after => ∃ script : rule.Script naming,
        after = script.ended.emitted (reportText .endTrace script.traced) ∧
          ∃ bound, Draft.empty.Writes bound script.text after) := by
  refine (compileCutLevel_starts rule).bind ?_
  rintro _ started ⟨laid, bare, cutLevel, bound, writes⟩
  cases trace with
  | true =>
      refine Plans.bind (Plans.map some Plans.intern) ?_
      rintro _ later ⟨functor, rfl, known, rfl⟩
      refine Plans.emit.bind ?_
      rintro _ _ rfl
      obtain ⟨more, reports⟩ := writes_report later .trace (some functor)
      have emits := Later.emitted later (reportText .trace (some functor))
      exact @compileBody_script _ _ rule atomic _ (some functor) _
        (emits.laid laid) bare cutLevel rfl _ (writes.append reports)
  | false =>
      refine Plans.bind Plans.returned ?_
      rintro _ later ⟨rfl, rfl⟩
      have unreported : (pure () : ClauseM PlanM Unit) =
          emit (reportText .endTrace none) := rfl
      refine @compileBody_script _ _ rule atomic _ none _ laid bare cutLevel unreported
        bound ?_
      rwa [reportText, List.append_nil]

end ClauseM

namespace Program

/-- Code that a rule was compiled to holds the text of the rule. -/
theorem Compiled.script {program : Program} {rule : Rule} {trace : Bool}
    {words : List UInt32} (compiled : program.Compiled rule trace words)
    (atomic : program.naming.Atomic) {position : Nat} (stands : program.HasWords position words) :
    ∃ (script : rule.Script program.naming) (place : Label → Nat),
      words.length = textSize
        (Assembler.clauseText script.locals rule.head.arity script.text) ∧
      script.locals ≤ textSize script.text ∧
      program.Holds place position
        (Assembler.clauseText script.locals rule.head.arity script.text) := by
  obtain ⟨before, after, -, compiles, keeps⟩ := compiled
  have advances := ProgramM.compile_advances rule trace before
  rw [compiles] at advances
  have code := advances.2 program.naming (program.names_naming.earlier keeps)
  simp only [Rule.code, Rule.draft] at code
  cases planned : (ClauseM.compileRule rule trace : ClauseM PlanM Unit) .empty
      program.naming with
  | error fault =>
      rw [planned] at code
      cases code
  | ok result =>
      obtain ⟨⟨⟩, draft⟩ := result
      rw [planned] at code
      have finished : draft.assembler.clause rule.head.arity = .ok words := code
      obtain ⟨script, isDraft, bound, writes⟩ :=
        (ClauseM.compileRule_script rule atomic trace).of_ok planned
      have contains := (writes.text [] Draft.text_empty).contains
      rw [List.nil_append] at contains
      have holds := contains.holds_clause finished stands
      have length := contains.length_clause finished
      have locals : draft.assembler.locals = script.locals := by
        rw [isDraft]
        exact Draft.locals_emitted _ _
      have few := writes.locals
      rw [locals] at holds length few
      exact ⟨script, _, length, Nat.le_trans few (Nat.le_of_eq (Nat.zero_add _)),
        holds⟩

end Program

end LogicMachine
