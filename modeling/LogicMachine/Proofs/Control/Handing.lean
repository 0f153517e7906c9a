import LogicMachine.Proofs.Control.Calls

/-!
# Handing on levels

While a clause solves its goals one by one, the choice points that it may have to
go back to stay open, and its goals find the level that they are to be given in a
slot of the clause.
-/

namespace LogicMachine

/-- The stack and the trail do not matter. -/
theorem Store.Fresh.of_memory {store memory : Store} {word : Word}
    (fresh : memory.Fresh word) (same : store.memory = memory) :
    store.Fresh word := by
  subst same
  exact fresh

/-- Where the goals of a clause have the level from that they are given. -/
inductive Rule.Hands (rule : Rule) : Prop where
  /-- The clause finds the level first. -/
  | begins {rest : List Goal}
      (goals : rule.goals = Library.levelIs Library.level :: rest)
      (absent : "L" ∉ Term.varsOf rule.head.args)
      (sets : (Functor.ofGoal rule.head).setsLevel = true)
      (levelled : Goal.levelled rest = true)
  /-- The clause is given the level. -/
  | takes {earlier : List Term} (ends : ClauseM.EndsWith rule.head earlier "L")
      (given : (Functor.ofGoal rule.head).takesLevel = true)
      (levelled : Goal.levelled rule.goals = true)
  | neither (none : ∀ goal ∈ rule.goals, goal.takesLevel = false)

namespace Library

theorem rules_of_passesLevel : ∀ rule ∈ rules,
    (Functor.ofGoal rule.head).passesLevel = true → rule ∈ callRules := by
  decide +kernel

theorem rules_of_cutsLevel : ∀ rule ∈ rules,
    (Functor.ofGoal rule.head).cutsLevel = false := by
  decide +kernel

theorem rules_of_findsLevel : ∀ rule ∈ rules,
    (Functor.ofGoal rule.head).findsLevel = false := by
  decide +kernel

theorem modest_of_mem : ∀ {rule : Rule}, rule ∈ rules → rule.Modest := by
  decide +kernel

/-- The clauses that call goals with a level hand it on. -/
theorem hands_level {rule : Rule} (listed : rule ∈ rules)
    (passes : (Functor.ofGoal rule.head).passesLevel = true) :
    rule.Hands := by
  have isCall := rules_of_passesLevel rule listed passes
  simp only [callRules, List.mem_cons, List.not_mem_nil, or_false] at isCall
  rcases isCall with rfl | rfl | rfl | rfl | rfl | rfl
  · exact .begins rfl (by decide) (by decide) (by decide)
  · exact .neither (by decide)
  · have ends : ClauseM.EndsWith (callAt (.compound "," [.var "A", .var "B"])
        level) [.compound "," [.var "A", .var "B"]] "L" :=
      ⟨rfl, by decide, by decide⟩
    exact .takes ends (by decide) (by decide)
  · have ends : ClauseM.EndsWith (callAt (.atom "!") level) [.atom "!"] "L" :=
      ⟨rfl, by decide, by decide⟩
    exact .takes ends (by decide) (by decide)
  · exact .neither (by decide)
  · exact .begins rfl (by decide) (by decide) (by decide)

end Library

variable [Atoms]

namespace Base

variable {base : Base} {setting later : Setting} {call callee : Call}
  {goal : Goal} {goals : List Goal}

theorem Footing.tail (footing : base.Footing setting call (goal :: goals)) :
    base.Footing setting call goals where
  toSpans := footing.toSpans
  cuts := fun guarded cuts => footing.cuts guarded (by simp [cuts])
  answers := footing.answers

/-- A clause has been entered. -/
theorem Starts.footing {memory : Store}
    (starts : base.Starts setting call memory)
    (none : base.guarded → call.functor.findsLevel = false)
    (own : base.guarded → goals.any Goal.isCut = true →
      call.functor.cutsLevel = false) :
    base.Footing setting call goals where
  toSpans := starts.toSpans
  cuts := fun guarded cuts => ⟨own guarded cuts, starts.checkpoints guarded⟩
  answers := fun guarded finds => by
    rw [none guarded] at finds
    cases finds

/-- The goals after a cut. -/
theorem Footing.committed {given : List Goal}
    (footing : base.Footing setting call given)
    (isCut : given.any Goal.isCut = true) (isScoped : base.Scoped call)
    (persists : setting.origin.Persists later.origin)
    (same : base.guarded → later.checkpoints = call.checkpoints) :
    base.Footing later call goals where
  persists := footing.persists.trans persists
  scope := fun guarded => (same guarded).symm ▸ isScoped.within guarded
  cuts := fun guarded _ => ⟨(footing.cuts guarded isCut).1,
    (same guarded).symm ▸ List.suffix_refl _⟩
  answers := fun guarded finds word member fresh =>
    (footing.answers guarded finds word member fresh).persists persists

/-- The goals after a call that has returned. -/
theorem Makes.footing {called : Functor} {words : List Word} {memory : Store}
    (makes : base.Makes setting call called words memory callee)
    (footing : base.Footing setting call goals)
    (returned : base.Footing later callee [])
    (uncut : base.guarded → called.takesLevel = true →
      call.functor.passesLevel = true → goals.any Goal.isCut = false) :
    base.Footing later call goals := by
  have persists := makes.persists.trans returned.persists
  have scope := makes.scope
  refine ⟨⟨footing.persists.trans persists, fun guarded => ?_⟩,
    fun guarded cuts => ?_, fun guarded finds word member fresh =>
      (footing.answers guarded finds word member fresh).persists persists⟩
  · have left := returned.scope guarded
    rw [scope] at left
    split at left
    case isTrue => exact left
    case isFalse => exact (footing.scope guarded).trans left
  · have left := returned.scope guarded
    rw [scope] at left
    split at left
    case isTrue takes =>
      rw [uncut guarded takes (makes.discreet guarded takes)] at cuts
      cases cuts
    case isFalse =>
      obtain ⟨own, still⟩ := footing.cuts guarded cuts
      exact ⟨own, still.trans left⟩

theorem Body.spans {desk : Desk} {position : Nat}
    (body : base.Body setting call desk goals position) :
    base.Spans setting call := by
  obtain @⟨_, _, _, _, _, _, _, _, _, _, _, _, footing, _⟩ := body
  exact footing.toSpans

namespace Levels

variable {draft after : Draft} {desk : Desk}

/-- No cut comes after a goal that takes a level. -/
theorem uncut (levels : base.Levels setting call draft desk (goal :: goals))
    (takes : goal.takesLevel = true)
    (passes : call.functor.passesLevel = true) :
    goals.any Goal.isCut = false := by
  cases levels with
  | outside foreign =>
      rw [foreign] at passes
      cases passes
  | plain none =>
      rw [none goal List.mem_cons_self] at takes
      cases takes
  | known _ _ _ levelled =>
      rw [Goal.levelled, takes] at levelled
      simp only [Bool.not_true, Bool.false_or, Bool.and_eq_true,
        Bool.not_eq_true'] at levelled
      exact levelled.1.2
  | begins => exact absurd takes (by decide)

/-- The goals after one that does not find the level for them. -/
theorem rest (levels : base.Levels setting call draft desk (goal :: goals))
    (drafts : draft.Later after)
    (persists : setting.origin.Persists later.origin)
    (other : ¬ (goal = Library.levelIs Library.level ∧
      draft.slots.lookup "L" = none)) :
    base.Levels later call after desk goals := by
  cases levels with
  | outside foreign => exact .outside foreign
  | plain none =>
      exact .plain fun goal member => none goal (List.mem_cons_of_mem _ member)
  | known named fixed denotes levelled =>
      rw [Goal.levelled, Bool.and_eq_true] at levelled
      exact .known (drafts.slots _ _ named) fixed (denotes.persists persists)
        levelled.2
  | begins unknown => exact absurd ⟨rfl, unknown⟩ other

/-- The goals after one that has found the level for them. -/
theorem found (levels : base.Levels setting call draft desk
      (Library.levelIs Library.level :: goals))
    (unknown : draft.slots.lookup "L" = none) {slot : Local} {word : Word}
    (named : after.slots.lookup "L" = some slot)
    (denotes : base.Denotes later.origin word setting.checkpoints.length) :
    base.Levels later call after (desk.fixing slot.index word) goals := by
  cases levels with
  | outside foreign => exact .outside foreign
  | plain none =>
      exact .plain fun goal member => none goal (List.mem_cons_of_mem _ member)
  | known known =>
      rw [unknown] at known
      cases known
  | begins _ same levelled =>
      rw [same] at denotes
      exact .known named List.mem_cons_self denotes levelled

/-- A goal that takes a level is given the right one. -/
theorem given {arity : Nat} {built : List Item} {values : List Built}
    (levels : base.Levels setting call draft desk (goal :: goals))
    (renders : draft.RendersAll arity goal.args built values after)
    {activity : Activity} (neat : desk.Neat activity)
    (takes : goal.takesLevel = true)
    (passes : call.functor.passesLevel = true) :
    ∃ word, (values.map (Built.wordIn activity.locals)).getLast? = some word ∧
      base.Denotes setting.origin word call.scope.length := by
  cases levels with
  | outside foreign =>
      rw [foreign] at passes
      cases passes
  | plain none =>
      rw [none goal List.mem_cons_self] at takes
      cases takes
  | begins => exact absurd takes (by decide)
  | @known _ slot word named fixed denotes levelled =>
      rw [Goal.levelled, takes] at levelled
      simp only [Bool.not_true, Bool.false_or, Bool.and_eq_true, beq_iff_eq]
        at levelled
      obtain ⟨last, -⟩ := levelled.1
      rw [List.getLast?_eq_getElem?] at last
      obtain ⟨place, found, known⟩ :=
        renders.named _ _ last (by decide)
      cases (renders.plays.toLater.slots _ _ named).symm.trans known
      refine ⟨word, ?_, denotes⟩
      rw [List.getLast?_eq_getElem?, List.length_map, List.getElem?_map,
        renders.length, found]
      show some ((activity.locals[slot.index]?).getD .zero) = some word
      rw [neat.fixed _ _ fixed]
      rfl

end Levels

end Base

end LogicMachine
