import LogicMachine.Proofs.Construction.Terms

/-!
# Compiling the construction of terms

Whatever compiling a term emits, for given numbers of functors, is code that
builds the term.
-/

namespace LogicMachine

/-- The numbers of a naming are those of a functor table. -/
def Naming.NumbersOf (naming : Naming) (table : FunctorTable) : Prop :=
  ∀ functor id, naming.number? functor = some id →
    table.functor id = .ok functor

namespace ClauseM

open Draft

variable {draft : Draft} {naming : Naming} {table : FunctorTable}

theorem buildFresh_builds {before between : Draft} {name : String}
    {slot : Local}
    (builds : before.BuildsTerm table (.var name) (.slot slot)
      (between.emitted (Item.freshVariable (some slot)))
      (Item.freshVariable (some slot)) 1) :
    Plans (buildFresh slot) between naming False (fun value after =>
      ∃ items count, before.BuildsTerm table (.var name) value after items
        count) := by
  apply Plans.emit.bind
  rintro _ _ rfl
  exact ⟨_, _, builds⟩

theorem buildVariable_builds {name : String} (slotted : draft.Slotted)
    (isNamed : name ≠ Term.anonymous) :
    Plans (buildVariable name) draft naming False (fun value after =>
      ∃ items count, draft.BuildsTerm table (.var name) value after items
        count) := by
  apply (occurrence_plans name).bind
  intro occurrence later occurs
  cases occurs with
  | again known => exact ⟨[], 0, .again slotted isNamed known⟩
  | first unknown =>
      have known : (draft.withVariable name).slots.lookup name =
          some draft.nextLocal := by
        simp [Draft.withVariable]
      refine buildFresh_builds
        (.fresh (some name) (.withVariable unknown) rfl ?_ ?_)
      · intro other slot none found
        simp only [Draft.withVariable, List.lookup_cons] at found
        split at found
        case h_1 same =>
          cases found
          exact ⟨congrArg some (eq_of_beq same).symm, rfl⟩
        case h_2 => cases none.symm.trans found
      · intro view cell holds found
        exact .named isNamed (bound_eq_some.mpr ⟨_, known, found⟩)

theorem buildAnonymous_builds :
    Plans (newLocal >>= buildFresh) draft naming False (fun value after =>
      ∃ items count, draft.BuildsTerm table (.var Term.anonymous) value after
        items count) := by
  apply Plans.newLocal.bind
  rintro slot _ ⟨rfl, rfl⟩
  refine buildFresh_builds (.fresh none (.withLocal draft) rfl ?_ ?_)
  · intro other slot none found
    cases none.symm.trans found
  · intro view cell holds found
    exact .anonymous holds

/-- A structure whose arguments have been built. -/
theorem structure_builds {functor : String} {args : List Term} {arity : Nat}
    {values : List Built} {middle : Draft} {items : List Item} {count : Nat}
    (numbers : naming.NumbersOf table) (slotted : draft.Slotted)
    (nonempty : args ≠ []) (isArity : args.length = arity)
    (builds : draft.BuildsTerms table args values middle items count) :
    Plans (do
        let id ← intern ⟨functor, arity⟩
        let slot ← newLocal
        emit (Built.structureItems slot id values)
        return Built.slot slot) middle naming False
      (fun value after => ∃ items count,
        draft.BuildsTerm table (.compound functor args) value after items
          count) := by
  subst isArity
  apply Plans.intern.bind
  rintro id later ⟨known, rfl⟩
  apply Plans.newLocal.bind
  rintro slot _ ⟨rfl, rfl⟩
  apply Plans.emit.bind
  rintro _ _ rfl
  have noLabel := labelsOf_flatMap values labelsOf_write
  have noTarget := targetsOf_flatMap values targetsOf_write
  have functorKnown := numbers _ id known
  rw [← builds.length] at functorKnown
  have assembles := @assembles_structure table functor id values later.nextLocal
    functorKnown builds.below
  refine ⟨_, _, builds.compound slotted nonempty ?_ ?_ ?_ assembles⟩
  · simp [Built.structureItems, Item.top, Item.onLocal, Item.claimHeader,
      noLabel]
  · simp [Built.structureItems, Item.top, Item.onLocal, Item.claimHeader,
      noTarget]
  · rw [builds.length]

theorem pair_builds {head tail : Term} {first second : Built} {middle : Draft}
    {items : List Item} {count : Nat} (slotted : draft.Slotted)
    (builds : draft.BuildsTerms table [head, tail] [first, second] middle items
      count) :
    Plans (do
        let slot ← newLocal
        emit (Built.pairItems slot first second)
        return Built.slot slot) middle naming False
      (fun value after => ∃ items count,
        draft.BuildsTerm table (.compound Term.listFunctor [head, tail]) value
          after items count) := by
  apply Plans.newLocal.bind
  rintro slot _ ⟨rfl, rfl⟩
  apply Plans.emit.bind
  rintro _ _ rfl
  have assembles := @assembles_pair table first second middle.nextLocal
    (builds.below _ List.mem_cons_self)
    (builds.below _ (List.mem_cons_of_mem _ List.mem_cons_self))
  refine ⟨_, _, builds.compound slotted (List.cons_ne_nil _ _) ?_ ?_ ?_
    assembles⟩
  · simp [Built.pairItems, Item.top, Item.onLocal]
  · simp [Built.pairItems, Item.top, Item.onLocal]
  · exact Nat.le_add_left _ _

mutual

/-- Compiling the construction of a term emits code that builds it. -/
theorem build_builds (numbers : naming.NumbersOf table) :
    ∀ (term : Term) (draft : Draft), draft.Slotted →
      Plans (build term) draft naming False (fun value after =>
        ∃ items count, draft.BuildsTerm table term value after items count)
  | .atom name, draft, slotted => by
      rw [build]
      apply Plans.intern.bind
      rintro id _ ⟨known, rfl⟩
      have known := numbers _ id known
      exact ⟨[], 0, .constant (fun _ _ => .atom known) known⟩
  | .var name, draft, slotted => by
      rw [build]
      split
      case isTrue isAnonymous =>
        rw [isAnonymous]
        exact buildAnonymous_builds
      case isFalse isNamed => exact buildVariable_builds slotted isNamed
  | .compound functor [], draft, slotted => by
      rw [build]
      refine accepting_plans (fun _ => id) fun _ => ?_
      apply Plans.intern.bind
      rintro id _ ⟨known, rfl⟩
      have known := numbers _ id known
      exact ⟨[], 0, .constant (fun _ _ => .constant known) known⟩
  | .compound functor [head, tail], draft, slotted => by
      rw [build]
      apply (build_builds numbers head draft slotted).bind
      rintro first middle ⟨items, count, builds⟩
      apply (build_builds numbers tail middle
        (builds.continues.slotted slotted)).bind
      rintro second later ⟨more, others, buildsMore⟩
      have both := BuildsTerms.cons slotted builds
        (.cons (builds.continues.slotted slotted) buildsMore .nil)
      split
      case isTrue isList =>
        rw [isList]
        exact pair_builds slotted both
      case isFalse =>
        exact structure_builds numbers slotted (List.cons_ne_nil _ _) rfl both
  | .compound functor [only], draft, slotted => by
      rw [build]
      · refine accepting_plans (fun _ => id) fun _ => ?_
        apply (buildAll_builds numbers [only] draft slotted).bind
        rintro values middle ⟨items, count, builds⟩
        exact structure_builds numbers slotted (List.cons_ne_nil _ _) rfl builds
      all_goals nofun
  | .compound functor (first :: second :: third :: rest), draft, slotted => by
      rw [build]
      · refine accepting_plans (fun _ => id) fun _ => ?_
        apply (buildAll_builds numbers (first :: second :: third :: rest) draft
          slotted).bind
        rintro values middle ⟨items, count, builds⟩
        exact structure_builds numbers slotted (List.cons_ne_nil _ _) rfl builds
      all_goals nofun

theorem buildAll_builds (numbers : naming.NumbersOf table) :
    ∀ (terms : List Term) (draft : Draft), draft.Slotted →
      Plans (buildAll terms) draft naming False (fun values after =>
        ∃ items count, draft.BuildsTerms table terms values after items count)
  | [], draft, slotted => by
      rw [buildAll]
      exact ⟨[], 0, .nil⟩
  | term :: rest, draft, slotted => by
      rw [buildAll]
      apply (build_builds numbers term draft slotted).bind
      rintro value middle ⟨items, count, builds⟩
      apply (buildAll_builds numbers rest middle
        (builds.continues.slotted slotted)).bind
      rintro values after ⟨more, others, buildsAll⟩
      exact ⟨_, _, .cons slotted builds buildsAll⟩

end

end ClauseM

end LogicMachine
