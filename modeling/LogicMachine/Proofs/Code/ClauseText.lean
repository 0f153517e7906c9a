import LogicMachine.Proofs.Code.Composing

/-!
# The text of a clause

The goals of a clause need no labels.  If the terms of a clause are proper and
all names are known, the clause has a text, and its size is bounded by the size
of the clause.
-/

namespace LogicMachine

namespace ClauseM

open Draft

variable {draft : Draft} {naming : Naming}

/-! ## Whole clauses -/

theorem compileCutLevel_plans (rule : Rule) {proper : Prop} :
    Plans (compileCutLevel rule) draft naming proper
      (fun _ after => ∃ text, draft.Writes 3 text after) := by
  unfold compileCutLevel
  split
  · apply Plans.newLocal.bind
    rintro slot _ ⟨rfl, rfl⟩
    have writes : draft.Writes 3
        [.plain .loadCutBase, Item.onLocal .storeLocal draft.nextLocal]
        (draft.withLocal.emitted
          [.plain .loadCutBase, Item.onLocal .storeLocal draft.nextLocal]) :=
      .emit_plain (.withLocal draft) rfl rfl (Nat.le_refl 3)
        (Nat.add_le_add_left (by decide : 1 ≤ 3) _)
    have text (items : List Item) (holds : draft.Text items) :=
      writes.text items holds
    exact ⟨_, fun items holds => ⟨(text items holds).contains,
      (text items holds).leads⟩, writes.size, writes.locals⟩
  · exact ⟨[], (Writes.nil draft).mono (Nat.zero_le _)⟩

theorem compileGoals_plans (goals : List Goal) :
    Plans (forIn goals () fun goal _ => do
        compileGoal goal
        return ForInStep.yield ()) draft naming
      (∀ goal ∈ goals, Term.areProper goal.args = true)
      (fun _ after => ∃ text, draft.Writes (goalsBulk goals) text after) := by
  refine (compileGoals_solves goals).imp id ?_
  rintro _ after ⟨text, solves⟩
  exact ⟨text, solves.writes⟩

end ClauseM

namespace Rule

/-- Every list cell in the rule has two arguments. -/
def isProper (rule : Rule) : Bool :=
  Term.areProper rule.head.args &&
    rule.goals.all fun goal => Term.areProper goal.args

/-- A bound on the size of the code of a rule. -/
def bulk (rule : Rule) : Nat :=
  122 * Term.nodesOf rule.head.args + Draft.goalsBulk rule.goals + 12

end Rule

namespace ClauseM

open Draft

variable {draft : Draft} {naming : Naming}

/-- The head and the goals of a clause, and what comes after them. -/
theorem compileBody_plans (rule : Rule) {last : ClauseM PlanM Unit}
    (ends : ∀ draft, Plans last draft naming (rule.isProper = true)
      (fun _ after => ∃ text, draft.Writes 2 text after)) :
    Plans (do
        compileHead rule.head
        for goal in rule.goals do
          compileGoal goal
        last) draft naming (rule.isProper = true)
      (fun _ after => ∃ text, draft.Writes
        (122 * Term.nodesOf rule.head.args + goalsBulk rule.goals + 2) text
        after) := by
  have split : rule.isProper = true → Term.areProper rule.head.args = true ∧
      ∀ goal ∈ rule.goals, Term.areProper goal.args = true := by
    rw [Rule.isProper, Bool.and_eq_true, List.all_eq_true]
    exact id
  refine ((compileHead_plans rule.head).imp (fun proper => (split proper).1)
    fun _ _ => id).bind ?_
  rintro _ middle ⟨text, writes⟩
  refine ((compileGoals_plans rule.goals).imp (fun proper => (split proper).2)
    fun _ _ => id).bind ?_
  rintro _ later ⟨more, writesMore⟩
  refine (ends later).imp id ?_
  rintro _ after ⟨rest, writesRest⟩
  exact ⟨_, (writes.append writesMore).append writesRest⟩

theorem emitTrace_plans (opcode : Opcode) (functor : FunctorId)
    {proper : Prop} :
    Plans (emit [.operand opcode functor.index]) draft naming proper
      (fun _ after => ∃ text, draft.Writes 2 text after) :=
  ⟨_, .emit_plain (.refl draft) rfl rfl (Nat.le_refl 2)
    (Nat.le_add_right _ _)⟩

theorem compileRule_plans (rule : Rule) (trace : Bool) :
    Plans (compileRule rule trace) draft naming (rule.isProper = true)
      (fun _ after => ∃ text, draft.Writes
        (122 * Term.nodesOf rule.head.args + goalsBulk rule.goals + 7) text
        after) := by
  apply (compileCutLevel_plans rule).bind
  rintro _ middle ⟨text, writes⟩
  have finished (first : List Item) {later : Draft}
      (writesFirst : middle.Writes 2 first later) (last : ClauseM PlanM Unit)
      (ends : ∀ draft, Plans last draft naming (rule.isProper = true)
        (fun _ after => ∃ text, draft.Writes 2 text after)) :
      Plans (do
          compileHead rule.head
          for goal in rule.goals do
            compileGoal goal
          last) later naming (rule.isProper = true)
        (fun _ after => ∃ text, draft.Writes
          (122 * Term.nodesOf rule.head.args + goalsBulk rule.goals + 7) text
          after) := by
    refine (compileBody_plans rule ends).imp id ?_
    rintro _ after ⟨more, writesMore⟩
    exact ⟨_, ((writes.append writesFirst).append writesMore).mono (by omega)⟩
  have untraced (draft : Draft) :
      Plans (pure ()) draft naming (rule.isProper = true)
        (fun _ after => ∃ text, draft.Writes 2 text after) :=
    ⟨[], (Writes.nil draft).mono (Nat.zero_le _)⟩
  cases trace with
  | true =>
      refine Plans.bind (Plans.map some Plans.intern) ?_
      rintro _ later ⟨functor, rfl, known, rfl⟩
      apply (emitTrace_plans .trace functor).bind
      rintro _ middle ⟨first, writesFirst⟩
      exact finished first writesFirst _ fun draft => emitTrace_plans _ _
  | false =>
      refine Plans.bind Plans.returned ?_
      rintro _ later ⟨rfl, rfl⟩
      exact finished [] ((Writes.nil _).mono (Nat.zero_le _)) _ untraced

end ClauseM

namespace Rule

/-- A proper rule has code, of a bounded size, whenever all names are known. -/
theorem code_total (rule : Rule) (trace : Bool) {naming : Naming}
    (total : naming.Total) (proper : rule.isProper = true) :
    ∃ words, rule.code trace naming = .ok words ∧
      words.length ≤ rule.bulk := by
  obtain ⟨_, draft, compiled, text, writes⟩ :=
    (ClauseM.compileRule_plans rule trace).exists_ok total proper
  have written := writes.text [] Draft.text_empty
  obtain ⟨body, finished, length⟩ := Assembler.finish_of_text written
  have size := writes.size
  refine ⟨[Opcode.allocate.encode, draft.assembler.locals.toUInt32] ++ body ++
    [Opcode.deallocate.encode, rule.head.arity.toUInt32,
      Opcode.proceed.encode], ?_, ?_⟩
  · simp only [code, Rule.draft, compiled, Except.map]
    show (do
      let body ← draft.assembler.finish
      _ : Except Fault (List UInt32)) = _
    rw [finished]
    rfl
  · simp only [List.nil_append] at length
    simp only [List.length_append, List.length_cons, List.length_nil, length,
      bulk]
    omega

end Rule

end LogicMachine
