import LogicMachine.Proofs.Code.HeadText

/-!
# The texts of goals

The arguments of a goal are made one after another, each compound after its own
arguments.  What is made is a constant or stands in a slot.  Then the arguments
are pushed and the predicate is called.  Two relations say which text is written
for which terms and for which goals, so that facts about all such texts can be
proved along them.
-/

namespace LogicMachine

namespace ClauseM

open Draft

variable {draft : Draft} {naming : Naming}

@[simp]
theorem labelsOf_push (value : Built) : labelsOf value.push = [] := by
  cases value <;> rfl

@[simp]
theorem targetsOf_push (value : Built) : targetsOf value.push = [] := by
  cases value <;> rfl

theorem textSize_push (value : Built) : textSize value.push ≤ 3 := by
  cases value <;> simp [Built.push, Item.constant, Item.onLocal]

@[simp]
theorem labelsOf_write (value : Built) : labelsOf value.write = [] := by
  simp [Built.write, Item.top, Item.claimCell]

@[simp]
theorem targetsOf_write (value : Built) : targetsOf value.write = [] := by
  simp [Built.write, Item.top, Item.claimCell]

theorem textSize_write (value : Built) : textSize value.write ≤ 8 := by
  have size := textSize_push value
  simp only [Built.write, Item.top, Item.claimCell, List.cons_append,
    textSize_append, textSize_cons, textSize_nil, Pattern.length_plain]
  omega

section Flat

variable {α : Type} {text : α → List Item} (values : List α)

theorem labelsOf_flatMap (none : ∀ value, labelsOf (text value) = []) :
    labelsOf (values.flatMap text) = [] := by
  induction values with
  | nil => rfl
  | cons value rest ih => rw [List.flatMap_cons, labelsOf_append, none, ih]; rfl

theorem targetsOf_flatMap (none : ∀ value, targetsOf (text value) = []) :
    targetsOf (values.flatMap text) = [] := by
  induction values with
  | nil => rfl
  | cons value rest ih => rw [List.flatMap_cons, targetsOf_append, none, ih]; rfl

theorem textSize_flatMap {bound : Nat}
    (each : ∀ value, textSize (text value) ≤ bound) :
    textSize (values.flatMap text) ≤ bound * values.length := by
  induction values with
  | nil => exact Nat.zero_le _
  | cons value rest ih =>
      have here := each value
      rw [List.flatMap_cons, textSize_append, List.length_cons, Nat.mul_add]
      omega

end Flat

theorem textSize_plain_pos (opcode : Opcode) (rest : List Item) :
    1 ≤ textSize (.plain opcode :: rest) := by
  rw [textSize_cons, Pattern.length_plain]
  exact Nat.le_add_right _ _

end ClauseM

namespace Built

/-- The code in front of the parts of a structure or, without a functor, of a
list pair. -/
def openItems (slot : Local) (functor : Option FunctorId) : List Item :=
  match functor with
  | some functor =>
      [Item.top, .plain .increment, .plain .tagCompound,
        Item.onLocal .storeLocal slot,
        Item.top, Item.onLocal .loadLocal slot, .plain .store] ++
        Item.claimHeader functor
  | none => [Item.top, .plain .tagList, Item.onLocal .storeLocal slot]

/-- Builds a structure or, without a functor, a list pair. -/
def compoundItems (slot : Local) (functor : Option FunctorId)
    (parts : List Built) : List Item :=
  openItems slot functor ++ parts.flatMap write

theorem pairItems_compound (slot : Local) (head tail : Built) :
    pairItems slot head tail = compoundItems slot none [head, tail] := by
  simp [pairItems, compoundItems, openItems]

end Built

namespace ClauseM

open Draft

theorem textSize_compoundItems (slot : Local) (functor : Option FunctorId)
    (parts : List Built) :
    textSize (Built.compoundItems slot functor parts) ≤
      20 + 8 * parts.length := by
  have size := textSize_flatMap parts textSize_write
  have opens : textSize (Built.openItems slot functor) ≤ 20 := by
    cases functor <;>
      simp [Built.openItems, Item.top, Item.onLocal, Item.claimHeader]
  rw [Built.compoundItems, textSize_append]
  omega

theorem Writes.compoundItems {before middle : Draft} (slot : Local)
    (functor : Option FunctorId) (parts : List Built)
    (reserves : before.Reserves middle)
    (locals : middle.assembler.locals ≤ before.assembler.locals + 1) :
    before.Writes (20 + 8 * parts.length)
      (Built.compoundItems slot functor parts)
      (middle.emitted (Built.compoundItems slot functor parts)) := by
  have positive : 1 ≤ textSize (Built.compoundItems slot functor parts) := by
    cases functor <;> exact textSize_plain_pos _ _
  refine Writes.emit_plain reserves ?_ ?_
    (textSize_compoundItems slot functor parts)
    (Nat.le_trans locals (Nat.add_le_add_left positive _))
  · have noLabel := labelsOf_flatMap parts labelsOf_write
    cases functor <;> simp [Built.compoundItems, Built.openItems, Item.top,
      Item.onLocal, Item.claimHeader, noLabel]
  · have noTarget := targetsOf_flatMap parts targetsOf_write
    cases functor <;> simp [Built.compoundItems, Built.openItems, Item.top,
      Item.onLocal, Item.claimHeader, noTarget]

end ClauseM

namespace Draft

/-- The text makes the terms, and leaves them in the given places. -/
inductive Composes (naming : Naming) :
    Draft → List Term → List Item → List Built → Draft → Prop where
  | nil {draft} : Composes naming draft [] [] [] draft
  | void {draft terms more values after}
      (rest : Composes naming
        (draft.withLocal.emitted (Item.freshVariable (some draft.nextLocal)))
        terms more values after) :
      Composes naming draft (.var Term.anonymous :: terms)
        (Item.freshVariable (some draft.nextLocal) ++ more)
        (.slot draft.nextLocal :: values) after
  | first {draft name terms more values after}
      (named : name ≠ Term.anonymous)
      (unknown : draft.slots.lookup name = none)
      (rest : Composes naming
        ((draft.withVariable name).emitted
          (Item.freshVariable (some draft.nextLocal)))
        terms more values after) :
      Composes naming draft (.var name :: terms)
        (Item.freshVariable (some draft.nextLocal) ++ more)
        (.slot draft.nextLocal :: values) after
  | again {draft name slot terms more values after}
      (named : name ≠ Term.anonymous)
      (known : draft.slots.lookup name = some slot)
      (rest : Composes naming draft terms more values after) :
      Composes naming draft (.var name :: terms) more (.slot slot :: values) after
  | constant {draft term functor id terms more values after}
      (decided : Shape.of term = .ok (.constant functor))
      (numbered : naming.number? functor = some id)
      (rest : Composes naming draft terms more values after) :
      Composes naming draft (term :: terms) more (.constant id :: values) after
  | compound {draft term functor args text parts id middle terms more values
        after}
      (decided : Shape.of term = .ok (.compound functor args))
      (inner : Composes naming draft args text parts middle)
      (numbered : functor.map naming.number? = id.map some)
      (rest : Composes naming
        (middle.withLocal.emitted
          (Built.compoundItems middle.nextLocal id parts))
        terms more values after) :
      Composes naming draft (term :: terms)
        (text ++ Built.compoundItems middle.nextLocal id parts ++ more)
        (.slot middle.nextLocal :: values) after

/-- The text makes a term, whatever is made after it. -/
def ComposesFirst (naming : Naming) (draft : Draft) (term : Term)
    (text : List Item) (value : Built) (middle : Draft) : Prop :=
  ∀ {terms more values after}, Composes naming middle terms more values after →
    Composes naming draft (term :: terms) (text ++ more) (value :: values) after

/-- The text of a list of goals. -/
inductive Solves (naming : Naming) :
    Draft → List Goal → List Item → Draft → Prop where
  | nil {draft} : Solves naming draft [] [] draft
  | cut {draft goal goals slot text after} (isCut : goal.isCut = true)
      (known : draft.cutLevel = some slot)
      (rest : Solves naming
        (draft.emitted [Item.onLocal .loadLocal slot, .plain .cut]) goals text
        after) :
      Solves naming draft (goal :: goals)
        ([Item.onLocal .loadLocal slot, .plain .cut] ++ text) after
  /-- Without a level to go back to there is nothing to cut. -/
  | skip {draft goal goals text after} (isCut : goal.isCut = true)
      (unknown : draft.cutLevel = none)
      (rest : Solves naming draft goals text after) :
      Solves naming draft (goal :: goals) text after
  | call {draft goal goals built middle} {values : List Built} {entry : Nat}
      {text after}
      (isCall : goal.isCut = false)
      (makes : Composes naming draft goal.args built values middle)
      (known : naming.start? (.ofGoal goal) = some entry)
      (rest : Solves naming
        (middle.emitted (values.reverse.flatMap Built.push ++
          [.operand .call entry.toUInt32])) goals text after) :
      Solves naming draft (goal :: goals)
        (built ++ (values.reverse.flatMap Built.push ++
          [.operand .call entry.toUInt32]) ++ text) after

section

variable {naming : Naming} {draft after : Draft} {terms : List Term}
  {goals : List Goal} {text : List Item} {values : List Built}

theorem Composes.cutLevel_eq
    (makes : Composes naming draft terms text values after) :
    after.cutLevel = draft.cutLevel := by
  induction makes with
  | nil => rfl
  | compound _ _ _ _ ihInner ih => exact ih.trans ihInner
  | _ => rename_i ih; exact ih

theorem Solves.cutLevel_eq (solves : Solves naming draft goals text after) :
    after.cutLevel = draft.cutLevel := by
  induction solves with
  | nil => rfl
  | cut _ _ _ ih => exact ih
  | skip _ _ _ ih => exact ih
  | call _ makes _ _ ih => exact ih.trans makes.cutLevel_eq

end

/-- All that is made has a place. -/
theorem Composes.length {naming : Naming} {draft after : Draft}
    {terms : List Term} {text : List Item} {values : List Built}
    (makes : Composes naming draft terms text values after) :
    values.length = terms.length := by
  induction makes with
  | nil => rfl
  | compound _ _ _ _ _ ih => exact congrArg (· + 1) ih
  | _ => rename_i ih; exact congrArg (· + 1) ih

/-- The text is bounded by the size of the terms. -/
theorem Composes.writes {naming : Naming} {draft after : Draft}
    {terms : List Term} {text : List Item} {values : List Built}
    (makes : Composes naming draft terms text values after) :
    ∃ bound, draft.Writes bound text after ∧
      bound + 8 * terms.length ≤ 30 * Term.nodesOf terms := by
  have fresh {before : Draft} (draft : Draft) (slot : Local)
      (reserves : before.Reserves draft)
      (locals : draft.assembler.locals ≤ before.assembler.locals + 1) :
      before.Writes 11 (Item.freshVariable (some slot))
        (draft.emitted (Item.freshVariable (some slot))) :=
    .emit_plain reserves rfl rfl (Nat.le_refl 11)
      (Nat.le_trans locals
        (Nat.add_le_add_left (ClauseM.textSize_plain_pos _ _) _))
  induction makes with
  | nil => exact ⟨0, .nil _, Nat.le_refl _⟩
  | @void draft _ _ _ _ _ ih =>
      obtain ⟨bound, writes, fits⟩ := ih
      refine ⟨_, (fresh _ _ (.withLocal draft) (Nat.le_refl _)).append writes,
        ?_⟩
      simp only [Term.nodesOf, Term.nodes, List.length_cons]
      omega
  | @first draft name _ _ _ _ _ _ _ ih =>
      obtain ⟨bound, writes, fits⟩ := ih
      refine ⟨_, (fresh _ _ (.withVariable draft name)
        (Nat.le_refl _)).append writes, ?_⟩
      simp only [Term.nodesOf, Term.nodes, List.length_cons]
      omega
  | again _ _ _ ih =>
      obtain ⟨bound, writes, fits⟩ := ih
      refine ⟨bound, writes, ?_⟩
      simp only [Term.nodesOf, Term.nodes, List.length_cons]
      omega
  | @constant _ term _ _ _ _ _ _ _ _ _ ih =>
      obtain ⟨bound, writes, fits⟩ := ih
      refine ⟨bound, writes, ?_⟩
      have positive := term.nodes_pos
      simp only [Term.nodesOf, List.length_cons]
      omega
  | @compound _ _ _ _ _ parts id middle _ _ _ _ decided inner _ _ ihInner ih =>
      obtain ⟨few, first, fitsInner⟩ := ihInner
      obtain ⟨many, last, fits⟩ := ih
      obtain ⟨-, nodes, -⟩ := Shape.compounds_of decided
      have own := ClauseM.Writes.compoundItems middle.nextLocal id parts
        (.withLocal middle) (Nat.le_refl _)
      have size := inner.length
      refine ⟨_, (first.append own).append last, ?_⟩
      simp only [Term.nodesOf, List.length_cons]
      omega

/-- A bound on the size of the text of goals. -/
def goalsBulk (goals : List Goal) : Nat :=
  (goals.map fun goal => 30 * Term.nodesOf goal.args + 3).sum

/-- The text is bounded by the size of the goals. -/
theorem Solves.writes {naming : Naming} {draft after : Draft}
    {goals : List Goal} {text : List Item}
    (solves : Solves naming draft goals text after) :
    draft.Writes (goalsBulk goals) text after := by
  induction solves with
  | nil => exact .nil _
  | @cut draft goal _ slot _ _ _ _ _ ih =>
      have cuts : draft.Writes 3
          [Item.onLocal .loadLocal slot, .plain .cut]
          (draft.emitted [Item.onLocal .loadLocal slot, .plain .cut]) :=
        .emit_plain (.refl draft) rfl rfl (Nat.le_refl 3) (Nat.le_add_right _ _)
      exact (cuts.append ih).mono (by simp [goalsBulk])
  | skip _ _ _ ih => exact ih.mono (by simp [goalsBulk])
  | @call _ goal _ _ middle values entry _ _ _ makes _ _ ih =>
      obtain ⟨bound, writes, fits⟩ := makes.writes
      have length := makes.length
      have size := ClauseM.textSize_flatMap values.reverse ClauseM.textSize_push
      rw [List.length_reverse] at size
      have calls : middle.Writes (3 * values.length + 2)
          (values.reverse.flatMap Built.push ++ [.operand .call entry.toUInt32])
          (middle.emitted (values.reverse.flatMap Built.push ++
            [.operand .call entry.toUInt32])) := by
        apply Writes.emit_plain (.refl middle)
        · simp [ClauseM.labelsOf_flatMap _ ClauseM.labelsOf_push]
        · simp [ClauseM.targetsOf_flatMap _ ClauseM.targetsOf_push]
        · rw [textSize_append]
          exact Nat.add_le_add_right size _
        · exact Nat.le_add_right _ _
      exact ((writes.append calls).append ih).mono
        (by simp only [goalsBulk, List.map_cons, List.sum_cons]; omega)

end Draft

namespace ClauseM

open Draft

variable {draft : Draft} {naming : Naming}

theorem accepting_plans {plan : Unit → ClauseM PlanM α} {condition : Prop}
    [Decidable condition] {fault : Fault} {proper : Prop}
    {post : α → Draft → Prop} (refuted : condition → ¬ proper)
    (accepted : ¬ condition → Plans (plan ()) draft naming proper post) :
    Plans (if condition then throw fault >>= plan else plan ()) draft naming
      proper post := by
  split
  case isTrue holds => exact fun _ => refuted holds
  case isFalse fails => exact accepted fails

theorem buildFresh_plans (slot : Local) {proper : Prop} :
    Plans (buildFresh slot) draft naming proper
      (fun value after => value = .slot slot ∧
        after = draft.emitted (Item.freshVariable (some slot))) := by
  apply Plans.emit.bind
  rintro _ _ rfl
  exact ⟨rfl, rfl⟩

/-- A compound whose arguments have been made. -/
theorem composesFirst_compound {term : Term} {functor : Option Functor}
    {args : List Term} {text : List Item} {parts : List Built}
    {middle : Draft} {id : Option FunctorId}
    (decided : Shape.of term = .ok (.compound functor args))
    (inner : Composes naming draft args text parts middle)
    (numbered : functor.map naming.number? = id.map some) :
    draft.ComposesFirst naming term
      (text ++ Built.compoundItems middle.nextLocal id parts)
      (.slot middle.nextLocal)
      (middle.withLocal.emitted
        (Built.compoundItems middle.nextLocal id parts)) :=
  Composes.compound decided inner numbered

theorem structure_composes {term : Term} {functor : Functor} {args : List Term}
    (decided : Shape.of term = .ok (.compound (some functor) args))
    {text : List Item} {values : List Built} {middle : Draft} {proper : Prop}
    (inner : Composes naming draft args text values middle) :
    Plans (do
        let id ← intern functor
        let slot ← newLocal
        emit (Built.structureItems slot id values)
        return Built.slot slot) middle naming proper
      (fun value after => ∃ text,
        draft.ComposesFirst naming term text value after) := by
  apply Plans.intern.bind
  rintro id later ⟨known, rfl⟩
  exact ⟨_, @composesFirst_compound _ _ _ _ _ _ _ _ (some id) decided inner
    (congrArg some known)⟩

theorem shape_compound {functor : String} {args : List Term}
    (other : ¬ functor = Term.listFunctor) (nonempty : args ≠ []) :
    Shape.of (.compound functor args) =
      .ok (.compound (some ⟨functor, args.length⟩) args) := by
  rw [Shape.of, if_neg other, if_neg (by simpa using nonempty)]

mutual

theorem build_composes : ∀ (term : Term) (draft : Draft),
    Plans (build term) draft naming (term.isProper = true)
      (fun value after => ∃ text,
        draft.ComposesFirst naming term text value after)
  | .atom name, draft => by
      rw [build]
      apply Plans.intern.bind
      rintro id _ ⟨known, rfl⟩
      exact ⟨[], fun rest => .constant rfl known rest⟩
  | .var name, draft => by
      rw [build]
      split
      case isTrue isAnonymous =>
        apply Plans.newLocal.bind
        rintro _ _ ⟨rfl, rfl⟩
        refine (buildFresh_plans _).imp id ?_
        rintro _ _ ⟨rfl, rfl⟩
        rw [isAnonymous]
        exact ⟨_, .void⟩
      case isFalse isNamed =>
        apply (occurrence_plans name).bind
        intro occurrence later occurs
        cases occurs with
        | first unknown =>
            refine (buildFresh_plans _).imp id ?_
            rintro _ _ ⟨rfl, rfl⟩
            exact ⟨_, .first isNamed unknown⟩
        | again known => exact ⟨[], fun rest => .again isNamed known rest⟩
  | .compound functor [], draft => by
      rw [build]
      apply accepting_plans
      · intro isList isProper
        simp [Term.isProper, isList] at isProper
      · intro other
        apply Plans.intern.bind
        rintro id _ ⟨known, rfl⟩
        have decided : Shape.of (.compound functor []) =
            .ok (.constant (.constant functor)) := by
          rw [Shape.of, if_neg other]
          rfl
        exact ⟨[], fun rest => .constant decided known rest⟩
  | .compound functor [head, tail], draft => by
      have split : (Term.compound functor [head, tail]).isProper = true →
          head.isProper = true ∧ tail.isProper = true := by
        simp [Term.isProper, Term.areProper]
      rw [build]
      refine ((build_composes head draft).imp (fun proper => (split proper).1)
        fun _ _ => id).bind ?_
      rintro first middle ⟨text, makes⟩
      refine ((build_composes tail middle).imp (fun proper => (split proper).2)
        fun _ _ => id).bind ?_
      rintro second later ⟨more, makesMore⟩
      have both := makes (makesMore .nil)
      split
      case isTrue isList =>
        apply Plans.newLocal.bind
        rintro _ _ ⟨rfl, rfl⟩
        apply Plans.emit.bind
        rintro _ _ rfl
        have decided : Shape.of (.compound functor [head, tail]) =
            .ok (.compound none [head, tail]) := by
          rw [Shape.of, if_pos isList]
          rfl
        rw [Built.pairItems_compound]
        exact ⟨_, @composesFirst_compound _ _ _ _ _ _ _ _ none decided both rfl⟩
      case isFalse other =>
        exact structure_composes (shape_compound other (List.cons_ne_nil _ _)) both
  | .compound functor [only], draft => by
      rw [build]
      · apply accepting_plans
        · intro isList isProper
          simp [Term.isProper, isList] at isProper
        · intro other
          refine ((buildAll_composes [only] draft).imp
            (fun proper => Term.areProper_args proper) fun _ _ => id).bind ?_
          rintro values middle ⟨text, makes⟩
          exact structure_composes (shape_compound other (List.cons_ne_nil _ _))
            makes
      all_goals simp
  | .compound functor (first :: second :: third :: more), draft => by
      rw [build]
      · apply accepting_plans
        · intro isList isProper
          simp [Term.isProper, isList] at isProper
        · intro other
          refine ((buildAll_composes (first :: second :: third :: more) draft).imp
            (fun proper => Term.areProper_args proper) fun _ _ => id).bind ?_
          rintro values middle ⟨text, makes⟩
          exact structure_composes (shape_compound other (List.cons_ne_nil _ _))
            makes
      all_goals simp

theorem buildAll_composes : ∀ (terms : List Term) (draft : Draft),
    Plans (buildAll terms) draft naming (Term.areProper terms = true)
      (fun values after => ∃ text,
        Composes naming draft terms text values after)
  | [], draft => by
      rw [buildAll]
      exact ⟨[], .nil⟩
  | term :: rest, draft => by
      rw [buildAll]
      refine ((build_composes term draft).imp
        (fun proper => (Term.areProper_cons proper).1) fun _ _ => id).bind ?_
      rintro value middle ⟨text, makes⟩
      refine ((buildAll_composes rest middle).imp
        (fun proper => (Term.areProper_cons proper).2) fun _ _ => id).bind ?_
      rintro values after ⟨more, makesMore⟩
      exact ⟨_, makes makesMore⟩

end

/-! ## Goals -/

/-- A goal comes first, whatever text the goals after it have. -/
theorem compileGoal_solves (goal : Goal) :
    Plans (compileGoal goal) draft naming (Term.areProper goal.args = true)
      (fun _ middle => ∃ text, ∀ {goals more after},
        Solves naming middle goals more after →
          Solves naming draft (goal :: goals) (text ++ more) after) := by
  unfold compileGoal
  cases isCut : goal.isCut with
  | true =>
      rw [if_pos rfl]
      apply Plans.getting.bind
      rintro _ later ⟨rfl, rfl⟩
      cases known : later.cutLevel with
      | none => exact ⟨[], .skip isCut known⟩
      | some slot => exact ⟨_, .cut isCut known⟩
  | false =>
      rw [if_neg (by simp)]
      apply (buildAll_composes goal.args draft).bind
      rintro values middle ⟨built, makes⟩
      apply Plans.emit.bind
      rintro _ _ rfl
      apply Plans.entryOf.bind
      rintro entry _ ⟨known, rfl⟩
      refine Plans.emit.imp id ?_
      rintro _ _ rfl
      rw [← emitted_append]
      exact ⟨_, fun rest => .call isCut makes known rest⟩

theorem compileGoals_solves (goals : List Goal) :
    Plans (forIn goals () fun goal _ => do
        compileGoal goal
        return ForInStep.yield ()) draft naming
      (∀ goal ∈ goals, Term.areProper goal.args = true)
      (fun _ after => ∃ text, Solves naming draft goals text after) := by
  induction goals generalizing draft with
  | nil =>
      rw [List.forIn_nil]
      exact ⟨[], .nil⟩
  | cons goal rest ih =>
      rw [List.forIn_cons, bind_assoc]
      simp only [pure_bind]
      refine ((compileGoal_solves goal).imp
        (fun proper => proper goal List.mem_cons_self) fun _ _ => id).bind ?_
      rintro _ middle ⟨text, solves⟩
      refine ih.imp (fun proper other member =>
        proper other (List.mem_cons_of_mem _ member)) ?_
      rintro _ after ⟨more, later⟩
      exact ⟨_, solves later⟩

end ClauseM

end LogicMachine
