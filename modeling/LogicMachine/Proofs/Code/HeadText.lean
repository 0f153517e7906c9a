import LogicMachine.Proofs.Code.Text

/-!
# The text of a head

The text that matches a compound is described by the slots that were planned for
its arguments.  The compounds among them are put off.  Each of them is smaller
than the one that it stands in, so all are matched in the end, and the size of
the whole text is bounded by the size of the head.
-/

namespace LogicMachine

/-- Every functor has a number and every predicate an entry. -/
def Naming.Total (naming : Naming) : Prop :=
  ∀ functor, naming.number? functor ≠ none ∧ naming.start? functor ≠ none

namespace Slot

/-- The labels that were set aside for a slot. -/
def labels : Slot → List Label
  | .constant _ read done => [read, done]
  | .void | .first _ | .again _ | .nested _ _ _ => []

/-- How an argument of a compound is planned. -/
inductive Planned (naming : Naming) : Draft → Term → Slot → Draft → Prop where
  | void {draft} : Planned naming draft (.var Term.anonymous) .void draft
  | first {draft name} : name ≠ Term.anonymous →
      draft.slots.lookup name = none →
      Planned naming draft (.var name) (.first draft.nextLocal)
        (draft.withVariable name)
  | again {draft name slot} : name ≠ Term.anonymous →
      draft.slots.lookup name = some slot →
      Planned naming draft (.var name) (.again slot) draft
  | constant {draft term functor id} : Shape.of term = .ok (.constant functor) →
      naming.number? functor = some id →
      Planned naming draft term
        (.constant id draft.nextLabel draft.withLabel.nextLabel)
        draft.withLabel.withLabel
  | nested {draft term functor args} :
      Shape.of term = .ok (.compound functor args) →
      Planned naming draft term (.nested draft.nextLocal functor args)
        draft.withLocal

/-- How the arguments of a compound are planned, from left to right. -/
inductive PlannedAll (naming : Naming) :
    Draft → List Term → List Slot → Draft → Prop where
  | nil {draft} : PlannedAll naming draft [] [] draft
  | cons {draft term slot middle rest slots after} :
      Planned naming draft term slot middle →
      PlannedAll naming middle rest slots after →
      PlannedAll naming draft (term :: rest) (slot :: slots) after

theorem Planned.reserves {naming : Naming} {draft after : Draft}
    {term : Term} {slot : Slot} (planned : Planned naming draft term slot after) :
    draft.Reserves after := by
  cases planned with
  | void => exact .refl _
  | first => exact .withVariable _ _
  | again => exact .refl _
  | constant => exact (Draft.Reserves.withLabel _).trans (.withLabel _)
  | nested => exact .withLocal _

theorem PlannedAll.reserves {naming : Naming} {draft after : Draft}
    {terms : List Term} {slots : List Slot}
    (planned : PlannedAll naming draft terms slots after) :
    draft.Reserves after := by
  induction planned with
  | nil => exact .refl _
  | cons first _ ih => exact first.reserves.trans ih

theorem PlannedAll.length_eq {naming : Naming} {draft after : Draft}
    {terms : List Term} {slots : List Slot}
    (planned : PlannedAll naming draft terms slots after) :
    slots.length = terms.length := by
  induction planned with
  | nil => rfl
  | cons _ _ ih => simp [ih]

theorem Planned.locals_le {naming : Naming} {draft after : Draft}
    {term : Term} {slot : Slot} (planned : Planned naming draft term slot after) :
    after.assembler.locals ≤ draft.assembler.locals + 1 := by
  cases planned <;> simp

theorem PlannedAll.locals_le {naming : Naming} {draft after : Draft}
    {terms : List Term} {slots : List Slot}
    (planned : PlannedAll naming draft terms slots after) :
    after.assembler.locals ≤ draft.assembler.locals + terms.length := by
  induction planned with
  | nil => exact Nat.le_refl _
  | cons first _ ih =>
      have one := first.locals_le
      simp only [List.length_cons]
      omega

theorem Planned.labels_bounds {naming : Naming} {draft after : Draft}
    {term : Term} {slot : Slot} (planned : Planned naming draft term slot after) :
    slot.labels.Nodup ∧ ∀ label ∈ slot.labels,
      draft.assembler.marks.size ≤ label.index ∧
        label.index < after.assembler.marks.size := by
  cases planned with
  | constant =>
      simp only [labels, Draft.nextLabel, Draft.marks_withLabel,
        List.nodup_cons, List.mem_cons, List.not_mem_nil, or_false]
      refine ⟨by simp, ?_⟩
      rintro label (rfl | rfl)
      · exact ⟨Nat.le_refl _, by dsimp only; omega⟩
      · exact ⟨by dsimp only; omega, by dsimp only; omega⟩
  | _ => exact ⟨List.nodup_nil, nofun⟩

/-- The labels of the arguments are new and distinct. -/
theorem PlannedAll.labels_bounds {naming : Naming} {draft after : Draft}
    {terms : List Term} {slots : List Slot}
    (planned : PlannedAll naming draft terms slots after) :
    (slots.flatMap labels).Nodup ∧ ∀ label ∈ slots.flatMap labels,
      draft.assembler.marks.size ≤ label.index ∧
        label.index < after.assembler.marks.size := by
  induction planned with
  | nil => exact ⟨List.nodup_nil, nofun⟩
  | cons first rest ih =>
      have here := first.labels_bounds
      have upto := first.reserves.labels
      have onward := rest.reserves.labels
      refine ⟨?_, ?_⟩
      · rw [List.flatMap_cons, List.nodup_append]
        refine ⟨here.1, ih.1, ?_⟩
        intro label member other later same
        have one := here.2 label member
        have two := ih.2 other later
        rw [same] at one
        omega
      · intro label member
        rw [List.flatMap_cons, List.mem_append] at member
        rcases member with old | new
        · have one := here.2 label old
          omega
        · have two := ih.2 label new
          omega

end Slot

namespace Pattern

/-! ## Labels and sizes of matches -/

@[simp]
theorem labelsOf_source (source : Source) (rest : List Item) :
    labelsOf (source.item :: rest) = labelsOf rest := by
  cases source <;> rfl

@[simp]
theorem targetsOf_source (source : Source) (rest : List Item) :
    targetsOf (source.item :: rest) = targetsOf rest := by
  cases source <;> rfl

@[simp]
theorem length_plain (opcode : Opcode) :
    (Item.plain opcode).codeWords.length = 1 :=
  rfl

@[simp]
theorem length_operand (opcode : Opcode) (value : UInt32) :
    (Item.operand opcode value).codeWords.length = 2 :=
  rfl

@[simp]
theorem length_branch (opcode : Opcode) (target : Label) :
    (Item.branch opcode target).codeWords.length = 2 :=
  rfl

@[simp]
theorem length_mark (label : Label) : (Item.mark label).codeWords.length = 0 :=
  rfl

@[simp]
theorem length_source (source : Source) : source.item.codeWords.length = 2 := by
  cases source <;> rfl

section Slots

variable (subject cursor : Local) (source : Source) (slot : Slot)

@[simp]
theorem labelsOf_writeSlot : labelsOf (writeSlot slot) = [] := by
  cases slot <;> rfl

@[simp]
theorem targetsOf_writeSlot : targetsOf (writeSlot slot) = [] := by
  cases slot <;> rfl

theorem textSize_writeSlot :
    1 ≤ textSize (writeSlot slot) ∧ textSize (writeSlot slot) ≤ 12 := by
  cases slot <;>
    simp [writeSlot, Item.freshVariable, Item.claimCell, Item.constant,
      Item.top, Item.onLocal]

@[simp]
theorem labelsOf_matchConstant (functor : FunctorId) (read done : Label) :
    labelsOf (matchConstant source subject functor read done) =
      [read, done] := by
  simp [matchConstant, takeSubject, compareTag, Item.constant, Item.onLocal]

@[simp]
theorem targetsOf_matchConstant (functor : FunctorId) (read done : Label) :
    targetsOf (matchConstant source subject functor read done) =
      [read, done, done] := by
  simp [matchConstant, takeSubject, compareTag, Item.constant, Item.onLocal]

@[simp]
theorem textSize_matchConstant (functor : FunctorId) (read done : Label) :
    textSize (matchConstant source subject functor read done) = 30 := by
  simp [matchConstant, takeSubject, compareTag, Item.constant, Item.onLocal]

@[simp]
theorem labelsOf_readSlot :
    labelsOf (readSlot subject cursor slot) = slot.labels := by
  cases slot with
  | constant => exact labelsOf_matchConstant ..
  | _ => rfl

theorem targetsOf_readSlot :
    targetsOf (readSlot subject cursor slot) ⊆ slot.labels := by
  cases slot with
  | constant functor read done =>
      simp [readSlot, Slot.labels]
  | _ => exact List.nil_subset _

theorem textSize_readSlot : textSize (readSlot subject cursor slot) ≤ 30 := by
  cases slot with
  | constant => simp [readSlot]
  | _ => simp [readSlot, takeVariable, unifyValue, Item.onLocal]

theorem readSlots_cons (slots : List Slot) :
    readSlots subject cursor (slot :: slots) =
      readSlot subject cursor slot ++
        (if slots = [] then [] else advance cursor) ++
        readSlots subject cursor slots := by
  cases slots with
  | nil => simp [readSlots]
  | cons next rest => simp [readSlots]

theorem labelsOf_advance : labelsOf (advance cursor) = [] :=
  rfl

theorem targetsOf_advance : targetsOf (advance cursor) = [] :=
  rfl

@[simp]
theorem labelsOf_readSlots (slots : List Slot) :
    labelsOf (readSlots subject cursor slots) = slots.flatMap Slot.labels := by
  induction slots with
  | nil => rfl
  | cons slot rest ih =>
      rw [readSlots_cons, labelsOf_append, labelsOf_append, ih,
        labelsOf_readSlot, List.flatMap_cons]
      split <;> simp [labelsOf_advance]

theorem targetsOf_readSlots (slots : List Slot) :
    targetsOf (readSlots subject cursor slots) ⊆
      slots.flatMap Slot.labels := by
  induction slots with
  | nil => exact List.nil_subset _
  | cons slot rest ih =>
      rw [readSlots_cons, targetsOf_append, targetsOf_append,
        List.flatMap_cons]
      have none : targetsOf (if rest = [] then [] else advance cursor) = [] := by
        split <;> rfl
      rw [none, List.append_nil]
      exact List.append_subset.mpr
        ⟨List.subset_append_of_subset_left _ (targetsOf_readSlot ..),
          List.subset_append_of_subset_right _ ih⟩

theorem textSize_readSlots (slots : List Slot) :
    textSize (readSlots subject cursor slots) ≤ 35 * slots.length := by
  induction slots with
  | nil => exact Nat.le_refl _
  | cons slot rest ih =>
      have here := textSize_readSlot subject cursor slot
      have between : textSize (if rest = [] then [] else advance cursor) ≤ 5 := by
        split <;> simp [advance, Item.onLocal]
      rw [readSlots_cons, textSize_append, textSize_append, List.length_cons]
      omega

@[simp]
theorem labelsOf_writeSlots (slots : List Slot) :
    labelsOf (slots.flatMap writeSlot) = [] := by
  induction slots with
  | nil => rfl
  | cons slot rest ih => simp [ih]

@[simp]
theorem targetsOf_writeSlots (slots : List Slot) :
    targetsOf (slots.flatMap writeSlot) = [] := by
  induction slots with
  | nil => rfl
  | cons slot rest ih => simp [ih]

theorem textSize_writeSlots (slots : List Slot) :
    slots.length ≤ textSize (slots.flatMap writeSlot) ∧
      textSize (slots.flatMap writeSlot) ≤ 12 * slots.length := by
  induction slots with
  | nil => exact ⟨Nat.le_refl _, Nat.le_refl _⟩
  | cons slot rest ih =>
      have here := textSize_writeSlot slot
      rw [List.flatMap_cons, textSize_append, List.length_cons]
      omega

end Slots

section Compounds

variable (source : Source) (subject cursor : Local)
  (functor : Option FunctorId) (slots : List Slot) (read fail done : Label)

theorem labelsOf_matchCompound :
    labelsOf (matchCompound source subject cursor functor slots read fail
      done) = read :: (slots.flatMap Slot.labels ++ [fail, done]) := by
  cases functor <;>
    simp [matchCompound, takeSubject, compareTag, writeCompound, readCompound,
      readHeader, Item.onLocal, Item.claimHeader, Item.claimCell, Item.top,
      labelsOf_advance]

theorem targetsOf_matchCompound :
    targetsOf (matchCompound source subject cursor functor slots read fail
      done) ⊆ read :: (slots.flatMap Slot.labels ++ [fail, done]) := by
  have inside := targetsOf_readSlots subject cursor slots
  intro label member
  cases functor with
  | none =>
      simp only [matchCompound, takeSubject, compareTag, writeCompound,
        readCompound, Item.onLocal, Item.claimCell, Item.top,
        List.cons_append, List.nil_append, targetsOf_append, targetsOf_plain,
        targetsOf_operand, targetsOf_branch, targetsOf_mark, targetsOf_nil,
        targetsOf_source, targetsOf_writeSlots, List.mem_append,
        List.mem_cons, List.not_mem_nil] at member ⊢
      grind
  | some functor =>
      simp only [matchCompound, takeSubject, compareTag, writeCompound,
        readCompound, readHeader, Item.onLocal, Item.claimHeader, Item.top,
        List.cons_append, List.nil_append, targetsOf_append, targetsOf_plain,
        targetsOf_operand, targetsOf_branch, targetsOf_mark, targetsOf_nil,
        targetsOf_source, targetsOf_writeSlots, targetsOf_advance,
        List.mem_append, List.mem_cons, List.not_mem_nil] at member ⊢
      grind

theorem textSize_matchCompound :
    slots.length + 2 ≤ textSize (matchCompound source subject cursor functor
        slots read fail done) ∧
      textSize (matchCompound source subject cursor functor slots read fail
        done) ≤ 75 + 47 * slots.length := by
  have written := textSize_writeSlots slots
  have readOut := textSize_readSlots subject cursor slots
  cases functor <;>
    simp only [matchCompound, takeSubject, compareTag, writeCompound,
      readCompound, readHeader, advance, Item.onLocal, Item.claimHeader,
      Item.claimCell, Item.top, List.cons_append, List.nil_append,
      textSize_append, textSize_cons, textSize_nil, length_source,
      length_plain, length_operand, length_branch, length_mark] <;>
    omega

end Compounds

end Pattern

namespace Shape

theorem of_eq_void {term : Term} (decided : of term = .ok .void) :
    term = .var Term.anonymous := by
  cases term with
  | atom name => cases decided
  | var name =>
      simp only [of] at decided
      split at decided
      case isTrue same => rw [same]
      case isFalse => cases decided
  | compound functor args =>
      simp only [of] at decided
      split at decided
      · split at decided <;> cases decided
      · split at decided <;> cases decided

theorem of_eq_variable {term : Term} {name : String}
    (decided : of term = .ok (.variable name)) :
    term = .var name ∧ name ≠ Term.anonymous := by
  cases term with
  | atom other => cases decided
  | var other =>
      simp only [of] at decided
      split at decided
      case isTrue => cases decided
      case isFalse different =>
        cases decided
        exact ⟨rfl, different⟩
  | compound functor args =>
      simp only [of] at decided
      split at decided
      · split at decided <;> cases decided
      · split at decided <;> cases decided

theorem of_var (name : String) :
    of (.var name) = .ok .void ∨ of (.var name) = .ok (.variable name) := by
  simp only [of]
  split
  · exact .inl rfl
  · exact .inr rfl

/-- The compounds of a term are those of its arguments and itself. -/
theorem compounds_of {term : Term} {functor : Option Functor}
    {args : List Term} (decided : of term = .ok (.compound functor args)) :
    term.compounds = Term.compoundsOf args + 1 ∧
      term.nodes = Term.nodesOf args + 1 ∧
      (term.isProper = true → Term.areProper args = true) := by
  cases term with
  | atom other => cases decided
  | var other =>
      simp only [of] at decided
      split at decided <;> cases decided
  | compound name inner =>
      have same : inner = args := by
        simp only [of] at decided
        split at decided
        · split at decided <;> cases decided
          rfl
        · split at decided <;> cases decided
          rfl
      subst same
      refine ⟨rfl, rfl, fun isProper => ?_⟩
      rw [Term.isProper, Bool.and_eq_true] at isProper
      exact isProper.2

end Shape

/-! ## Compounds that are put off -/

namespace Pattern

/-- The number of compounds in a pattern. -/
def compounds (pattern : Pattern) : Nat :=
  Term.compoundsOf pattern.args + 1

/-- A bound on the size of the text that matches a pattern, with the compounds
inside it. -/
def bulk (pattern : Pattern) : Nat :=
  122 * Term.nodesOf pattern.args + 75

def compoundsOf (patterns : List Pattern) : Nat :=
  (patterns.map compounds).sum

def bulkOf (patterns : List Pattern) : Nat :=
  (patterns.map bulk).sum

def AllProper (patterns : List Pattern) : Prop :=
  ∀ pattern ∈ patterns, Term.areProper pattern.args = true

section Lists

variable (pattern : Pattern) (patterns others : List Pattern)

@[simp]
theorem compoundsOf_cons :
    compoundsOf (pattern :: patterns) =
      pattern.compounds + compoundsOf patterns := by
  simp [compoundsOf]

@[simp]
theorem compoundsOf_append :
    compoundsOf (patterns ++ others) =
      compoundsOf patterns + compoundsOf others := by
  simp [compoundsOf]

@[simp]
theorem bulkOf_cons :
    bulkOf (pattern :: patterns) = pattern.bulk + bulkOf patterns := by
  simp [bulkOf]

@[simp]
theorem bulkOf_append :
    bulkOf (patterns ++ others) = bulkOf patterns + bulkOf others := by
  simp [bulkOf]

end Lists

theorem AllProper.append {patterns others : List Pattern}
    (first : AllProper patterns) (second : AllProper others) :
    AllProper (patterns ++ others) := by
  intro pattern member
  rcases List.mem_append.mp member with old | new
  · exact first pattern old
  · exact second pattern new

end Pattern

namespace Slot

open ClauseM (postponed)

/-- The compounds that are put off are among the arguments. -/
theorem PlannedAll.postponed_le {naming : Naming} {draft after : Draft}
    {terms : List Term} {slots : List Slot}
    (planned : PlannedAll naming draft terms slots after) :
    Pattern.compoundsOf (postponed slots) ≤ Term.compoundsOf terms ∧
      47 * terms.length + Pattern.bulkOf (postponed slots) ≤
        122 * Term.nodesOf terms ∧
      (Term.areProper terms = true →
        Pattern.AllProper (postponed slots)) := by
  induction planned with
  | nil => exact ⟨Nat.le_refl _, Nat.le_refl _, fun _ => nofun⟩
  | @cons draft term slot middle rest slots after first _ ih =>
      obtain ⟨fewer, smaller, allProper⟩ := ih
      have positive := term.nodes_pos
      have skipped (none : postponed (slot :: slots) = postponed slots) :
          Pattern.compoundsOf (postponed (slot :: slots)) ≤
              Term.compoundsOf (term :: rest) ∧
            47 * (term :: rest).length +
                Pattern.bulkOf (postponed (slot :: slots)) ≤
              122 * Term.nodesOf (term :: rest) ∧
            (Term.areProper (term :: rest) = true →
              Pattern.AllProper (postponed (slot :: slots))) := by
        rw [none]
        simp only [Term.compoundsOf, Term.nodesOf, List.length_cons]
        exact ⟨by omega, by omega, fun proper => allProper (Term.areProper_cons proper).2⟩
      cases first with
      | void => exact skipped rfl
      | first => exact skipped rfl
      | again => exact skipped rfl
      | constant => exact skipped rfl
      | @nested _ functor args decided =>
          obtain ⟨count, nodes, proper⟩ := Shape.compounds_of decided
          have more : postponed (.nested draft.nextLocal functor args :: slots) =
              ⟨.slot draft.nextLocal, functor, args⟩ :: postponed slots := rfl
          rw [more, Pattern.compoundsOf_cons, Pattern.bulkOf_cons]
          simp only [Term.compoundsOf, Term.nodesOf, List.length_cons,
            Pattern.compounds, Pattern.bulk]
          refine ⟨by omega, by omega, fun isProper => ?_⟩
          intro pattern member
          rcases List.mem_cons.mp member with rfl | later
          · exact proper (Term.areProper_cons isProper).1
          · exact allProper (Term.areProper_cons isProper).2 pattern later

end Slot

namespace ClauseM

open Draft

/-- What compiling leads to.  It only goes wrong if the terms are not proper or
a name is missing. -/
def Plans (plan : ClauseM PlanM α) (draft : Draft) (naming : Naming)
    (proper : Prop) (post : α → Draft → Prop) : Prop :=
  match plan draft naming with
  | .ok (value, after) => post value after
  | .error _ => naming.Total → ¬ proper

namespace Plans

variable {naming : Naming} {draft : Draft} {proper : Prop}

theorem pure {post : α → Draft → Prop} {value : α} (holds : post value draft) :
    Plans (Pure.pure value) draft naming proper post :=
  holds

theorem returned {value : α} :
    Plans (Pure.pure value) draft naming proper
      (fun result after => result = value ∧ after = draft) :=
  ⟨rfl, rfl⟩

theorem getting : Plans get draft naming proper
    (fun found after => found = draft ∧ after = draft) :=
  ⟨rfl, rfl⟩

theorem bind {plan : ClauseM PlanM α} {next : α → ClauseM PlanM β}
    {middle : α → Draft → Prop} {post : β → Draft → Prop}
    (first : Plans plan draft naming proper middle)
    (second : ∀ value later, middle value later →
      Plans (next value) later naming proper post) :
    Plans (plan >>= next) draft naming proper post := by
  have shape : (plan >>= next) draft naming =
      ((plan draft naming) >>= fun result => next result.1 result.2 naming) :=
    rfl
  unfold Plans at first ⊢
  rw [shape]
  cases ran : plan draft naming with
  | error fault =>
      rw [ran] at first
      exact first
  | ok result =>
      rw [ran] at first
      exact second result.1 result.2 first

theorem map {plan : ClauseM PlanM α} (apply : α → β)
    {post : α → Draft → Prop} (plans : Plans plan draft naming proper post) :
    Plans (apply <$> plan) draft naming proper
      (fun result after => ∃ value, result = apply value ∧
        post value after) := by
  show Plans (plan >>= fun value => Pure.pure (apply value)) draft naming
    proper _
  exact plans.bind fun value later holds => ⟨value, rfl, holds⟩

theorem imp {plan : ClauseM PlanM α} {stronger post : α → Draft → Prop}
    {better : Prop} (plans : Plans plan draft naming proper stronger)
    (good : better → proper)
    (weaker : ∀ value after, stronger value after → post value after) :
    Plans plan draft naming better post := by
  unfold Plans at plans ⊢
  cases ran : plan draft naming with
  | error fault =>
      rw [ran] at plans
      exact fun total holds => plans total (good holds)
  | ok result =>
      rw [ran] at plans
      exact weaker _ _ plans

/-- What holds of a run that ended well. -/
theorem of_ok {plan : ClauseM PlanM α} {post : α → Draft → Prop}
    (plans : Plans plan draft naming proper post) {value : α} {after : Draft}
    (ran : plan draft naming = .ok (value, after)) : post value after := by
  unfold Plans at plans
  rw [ran] at plans
  exact plans

theorem exists_ok {plan : ClauseM PlanM α} {post : α → Draft → Prop}
    (plans : Plans plan draft naming proper post) (total : naming.Total)
    (holds : proper) :
    ∃ value after, plan draft naming = .ok (value, after) ∧
      post value after := by
  unfold Plans at plans
  cases ran : plan draft naming with
  | error fault =>
      rw [ran] at plans
      exact absurd holds (plans total)
  | ok result =>
      rw [ran] at plans
      exact ⟨result.1, result.2, rfl, plans⟩

theorem newLocal : Plans newLocal draft naming proper
    fun slot after => slot = draft.nextLocal ∧ after = draft.withLocal :=
  ⟨rfl, rfl⟩

theorem emit {items : List Item} : Plans (emit items) draft naming proper
    fun _ after => after = draft.emitted items :=
  rfl

theorem intern {functor : Functor} : Plans (intern functor) draft naming proper
    fun id after => naming.number? functor = some id ∧ after = draft := by
  have shape : (ClauseM.intern functor : ClauseM PlanM FunctorId) draft naming =
      (PlanM.look (naming.number? functor) naming >>= fun id =>
        .ok (id, draft)) := rfl
  unfold Plans
  rw [shape]
  cases known : naming.number? functor with
  | none => exact fun total => absurd known (total functor).1
  | some id => exact ⟨rfl, rfl⟩

theorem entryOf {functor : Functor} :
    Plans (liftM (Linker.entryOf functor : PlanM Nat)) draft naming proper
      fun entry after =>
        naming.start? functor = some entry ∧ after = draft := by
  have shape : (liftM (Linker.entryOf functor : PlanM Nat) :
      ClauseM PlanM Nat) draft naming =
      (PlanM.look (naming.start? functor) naming >>= fun entry =>
        .ok (entry, draft)) := rfl
  unfold Plans
  rw [shape]
  cases known : naming.start? functor with
  | none => exact fun total => absurd known (total functor).2
  | some entry => exact ⟨rfl, rfl⟩

end Plans

theorem shape_plans (term : Term) {draft : Draft} {naming : Naming} :
    Plans (shape term) draft naming (term.isProper = true)
      (fun shape after => Shape.of term = .ok shape ∧ after = draft) := by
  unfold shape
  cases decided : Shape.of term with
  | ok shape => exact ⟨rfl, rfl⟩
  | error fault =>
      intro _ isProper
      cases term with
      | atom name => cases decided
      | var name =>
          simp only [Shape.of] at decided
          split at decided <;> cases decided
      | compound functor args =>
          simp only [Term.isProper, Bool.and_eq_true, Bool.or_eq_true,
            bne_iff_ne, ne_eq, beq_iff_eq] at isProper
          simp only [Shape.of] at decided
          split at decided
          case isTrue isList =>
            rw [if_pos (isProper.1.resolve_left (fun other => other isList))]
              at decided
            cases decided
          case isFalse => split at decided <;> cases decided

variable {draft : Draft} {naming : Naming}

/-- The slot of a variable. -/
inductive Occurs (draft : Draft) (name : String) :
    Occurrence → Draft → Prop where
  | first : draft.slots.lookup name = none →
      Occurs draft name (.first draft.nextLocal) (draft.withVariable name)
  | again {slot} : draft.slots.lookup name = some slot →
      Occurs draft name (.again slot) draft

theorem occurrence_plans (name : String) {proper : Prop} :
    Plans (occurrence name) draft naming proper (Occurs draft name) := by
  apply Plans.getting.bind
  intro found later same
  rw [same.1, same.2]
  cases known : draft.slots.lookup name with
  | none => exact Occurs.first known
  | some slot => exact Occurs.again known

theorem planSlot_plans (term : Term) :
    Plans (planSlot term) draft naming (term.isProper = true)
      (Slot.Planned naming draft term) := by
  apply (shape_plans term).bind
  rintro shape after ⟨decided, rfl⟩
  cases shape with
  | void =>
      cases Shape.of_eq_void decided
      exact Slot.Planned.void
  | «variable» name =>
      obtain ⟨rfl, named⟩ := Shape.of_eq_variable decided
      apply (occurrence_plans name).bind
      intro occurrence later occurs
      cases occurs with
      | first unknown => exact Slot.Planned.first named unknown
      | again known => exact Slot.Planned.again named known
  | constant functor =>
      apply Plans.intern.bind
      rintro id later ⟨known, rfl⟩
      exact Slot.Planned.constant decided known
  | compound functor args => exact Slot.Planned.nested decided

theorem planSlots_plans (terms : List Term) :
    Plans (terms.mapM planSlot) draft naming (Term.areProper terms = true)
      (Slot.PlannedAll naming draft terms) := by
  induction terms generalizing draft with
  | nil =>
      rw [List.mapM_nil]
      exact Slot.PlannedAll.nil
  | cons term rest ih =>
      rw [List.mapM_cons]
      refine ((planSlot_plans term).imp (fun proper => (Term.areProper_cons proper).1)
        fun _ _ => id).bind fun slot middle planned => ?_
      refine (ih.imp (fun proper => (Term.areProper_cons proper).2)
        fun _ _ => id).bind fun slots after plannedAll => ?_
      exact Slot.PlannedAll.cons planned plannedAll

/-- The two working slots. -/
inductive Works (draft : Draft) : Local × Local → Draft → Prop where
  | fresh : draft.working = none →
      Works draft (draft.nextLocal, draft.withLocal.nextLocal) draft.withWorking
  | again {slots} : draft.working = some slots → Works draft slots draft

theorem working_plans {proper : Prop} :
    Plans working draft naming proper (Works draft) := by
  apply Plans.getting.bind
  intro found later same
  rw [same.1, same.2]
  cases known : draft.working with
  | none => exact Works.fresh known
  | some slots => exact Works.again known

theorem Works.reserves {slots : Local × Local} {after : Draft}
    (works : Works draft slots after) : draft.Reserves after := by
  cases works with
  | fresh => exact .withWorking _
  | again => exact .refl _

theorem Works.locals_le {slots : Local × Local} {after : Draft}
    (works : Works draft slots after) :
    after.assembler.locals ≤ draft.assembler.locals + 2 := by
  cases works <;> simp

/-- The text that matches a compound. -/
structure Matches (naming : Naming) (draft : Draft) (pattern : Pattern)
    (text : List Item) (inner : List Pattern) (after : Draft) where
  subject : Local
  cursor : Local
  ready : Draft
  slots : List Slot
  reserved : Draft
  functor : Option FunctorId
  works : Works draft (subject, cursor) ready
  planned : Slot.PlannedAll naming ready pattern.args slots reserved
  numbered : pattern.functor.map naming.number? = functor.map some
  text_eq : text = Pattern.matchCompound pattern.source subject cursor functor
    slots reserved.nextLabel reserved.withLabel.nextLabel
    reserved.withLabel.withLabel.nextLabel
  inner_eq : inner = postponed slots
  after_eq : after = reserved.withLabel.withLabel.withLabel.emitted text

theorem matchPattern_plans (pattern : Pattern) :
    Plans (matchPattern pattern) draft naming
      (Term.areProper pattern.args = true)
      (fun inner after => ∃ text,
        Nonempty (Matches naming draft pattern text inner after)) := by
  apply working_plans.bind
  rintro ⟨subject, cursor⟩ ready works
  apply (planSlots_plans pattern.args).bind
  intro slots reserved planned
  have written (functor : Option FunctorId)
      (numbered : pattern.functor.map naming.number? = functor.map some) :
      Plans (do
        let read ← newLabel
        let fail ← newLabel
        let done ← newLabel
        emit (Pattern.matchCompound pattern.source subject cursor functor slots
          read fail done)
        return postponed slots) reserved naming
        (Term.areProper pattern.args = true)
        (fun inner after => ∃ text,
          Nonempty (Matches naming draft pattern text inner after)) :=
    ⟨_, ⟨⟨subject, cursor, ready, slots, reserved, functor, works, planned,
      numbered, rfl, rfl, rfl⟩⟩⟩
  cases named : pattern.functor with
  | none =>
      refine Plans.bind Plans.returned ?_
      rintro _ _ ⟨rfl, rfl⟩
      exact written none (by rw [named]; rfl)
  | some functor =>
      refine Plans.bind (Plans.map some Plans.intern) ?_
      rintro _ _ ⟨id, rfl, known, rfl⟩
      exact written (some id) (by rw [named]; exact congrArg some known)

/-- Matching a compound writes a text for it and leaves the compounds inside. -/
theorem Matches.writes {pattern : Pattern} {text : List Item}
    {inner : List Pattern} {after : Draft}
    (matched : Matches naming draft pattern text inner after) :
    ∃ bound, draft.Writes bound text after ∧
      bound + Pattern.bulkOf inner ≤ pattern.bulk := by
  obtain ⟨subject, cursor, ready, slots, reserved, functor, works, planned,
    -, rfl, rfl, rfl⟩ := matched
  have length := planned.length_eq
  have size := Pattern.textSize_matchCompound pattern.source subject cursor
    functor slots reserved.nextLabel reserved.withLabel.nextLabel
    reserved.withLabel.withLabel.nextLabel
  obtain ⟨-, smaller, -⟩ := planned.postponed_le
  refine ⟨75 + 47 * slots.length, ?_, ?_⟩
  · have reserves : draft.Reserves reserved.withLabel.withLabel.withLabel :=
      works.reserves.trans (planned.reserves.trans
        ((Reserves.withLabel _).trans ((Reserves.withLabel _).trans
          (.withLabel _))))
    obtain ⟨distinct, bounds⟩ := planned.labels_bounds
    have before := works.reserves.labels
    have middle := planned.reserves.labels
    apply Writes.emit reserves
    · rw [Pattern.labelsOf_matchCompound]
      simp only [List.nodup_cons, List.mem_append, List.mem_cons,
        List.not_mem_nil, or_false, List.nodup_append, List.nodup_nil]
      refine ⟨?_, distinct, ?_, ?_⟩
      · rintro (old | same | same)
        · have below := (bounds _ old).2
          simp [nextLabel] at below
        · simp [nextLabel] at same
        · simp only [nextLabel, marks_withLabel, Label.mk.injEq] at same
          omega
      · simp [nextLabel]
      · intro label old other new same
        subst same
        have below := (bounds _ old).2
        rcases new with rfl | rfl <;>
          (simp only [nextLabel, marks_withLabel] at below; omega)
    · rw [Pattern.labelsOf_matchCompound]
      intro label member
      simp only [List.mem_cons, List.mem_append, List.not_mem_nil,
        or_false] at member
      simp only [marks_withLabel]
      rcases member with rfl | old | rfl | rfl
      · simp [nextLabel]
        omega
      · have both := bounds _ old
        omega
      · simp [nextLabel]
        omega
      · simp [nextLabel]
        omega
    · rw [Pattern.labelsOf_matchCompound]
      exact Pattern.targetsOf_matchCompound ..
    · exact size.2
    · have few := works.locals_le
      have more := planned.locals_le
      refine Nat.le_trans ?_ (Nat.add_le_add_left size.1 _)
      simp only [locals_withLabel]
      omega
  · rw [Pattern.bulk, length]
    omega

theorem Matches.inner_le {pattern : Pattern} {text : List Item}
    {inner : List Pattern} {after : Draft}
    (matched : Matches naming draft pattern text inner after) :
    Pattern.compoundsOf inner + 1 ≤ pattern.compounds ∧
      (Term.areProper pattern.args = true → Pattern.AllProper inner) := by
  obtain ⟨fewer, -, proper⟩ := matched.planned.postponed_le
  rw [matched.inner_eq, Pattern.compounds]
  exact ⟨by omega, proper⟩

/-- The text that matches one argument of the head. -/
inductive MatchesArgument (naming : Naming) (draft : Draft) (index : Nat) :
    Term → List Item → List Pattern → Draft → Prop where
  | void : MatchesArgument naming draft index (.var Term.anonymous) [] [] draft
  | first {name} : name ≠ Term.anonymous → draft.slots.lookup name = none →
      MatchesArgument naming draft index (.var name)
        (Pattern.takeVariable (.argument index) draft.nextLocal) []
        ((draft.withVariable name).emitted
          (Pattern.takeVariable (.argument index) draft.nextLocal))
  | again {name slot} : name ≠ Term.anonymous →
      draft.slots.lookup name = some slot →
      MatchesArgument naming draft index (.var name)
        (Pattern.unifyValue (.argument index) slot) []
        (draft.emitted (Pattern.unifyValue (.argument index) slot))
  | constant {term functor id subject cursor ready} :
      Shape.of term = .ok (.constant functor) →
      naming.number? functor = some id →
      Works draft (subject, cursor) ready →
      MatchesArgument naming draft index term
        (Pattern.matchConstant (.argument index) subject id ready.nextLabel
          ready.withLabel.nextLabel) []
        (ready.withLabel.withLabel.emitted
          (Pattern.matchConstant (.argument index) subject id ready.nextLabel
            ready.withLabel.nextLabel))
  | compound {term functor args text inner after} :
      Shape.of term = .ok (.compound functor args) →
      Nonempty (Matches naming draft ⟨.argument index, functor, args⟩ text
        inner after) →
      MatchesArgument naming draft index term text inner after

theorem matchArgument_plans (index : Nat) (term : Term) :
    Plans (matchArgument index term) draft naming (term.isProper = true)
      (fun inner after => ∃ text,
        MatchesArgument naming draft index term text inner after) := by
  apply (shape_plans term).bind
  rintro shape after ⟨decided, rfl⟩
  cases shape with
  | void =>
      cases Shape.of_eq_void decided
      exact ⟨_, .void⟩
  | «variable» name =>
      obtain ⟨rfl, named⟩ := Shape.of_eq_variable decided
      apply (occurrence_plans name).bind
      intro occurrence later occurs
      cases occurs with
      | first unknown => exact ⟨_, .first named unknown⟩
      | again known => exact ⟨_, .again named known⟩
  | constant functor =>
      apply Plans.intern.bind
      rintro id later ⟨known, rfl⟩
      apply working_plans.bind
      rintro ⟨subject, cursor⟩ ready works
      exact ⟨_, .constant decided known works⟩
  | compound functor args =>
      refine (matchPattern_plans ⟨.argument index, functor, args⟩).imp
        (Shape.compounds_of decided).2.2 ?_
      rintro inner final ⟨text, matched⟩
      exact ⟨text, .compound decided matched⟩

theorem MatchesArgument.writes {index : Nat} {term : Term}
    {text : List Item} {inner : List Pattern} {after : Draft}
    (matched : MatchesArgument naming draft index term text inner after) :
    ∃ bound, draft.Writes bound text after ∧
      bound + Pattern.bulkOf inner ≤ 122 * term.nodes := by
  have positive := term.nodes_pos
  cases matched with
  | void => exact ⟨0, .nil _, Nat.zero_le _⟩
  | first =>
      refine ⟨5, .emit_plain (.withVariable _ _) rfl rfl ?_ ?_, ?_⟩
      · exact Nat.le_refl 5
      · simp [Pattern.takeVariable, Item.onLocal]
      · simp [Pattern.bulkOf]
        omega
  | again =>
      refine ⟨5, .emit_plain (.refl _) rfl rfl ?_ ?_, ?_⟩
      · exact Nat.le_refl 5
      · exact Nat.le_add_right _ _
      · simp [Pattern.bulkOf]
        omega
  | @constant _ functor id subject cursor ready decided known works =>
      have reserves : draft.Reserves ready.withLabel.withLabel :=
        works.reserves.trans ((Reserves.withLabel _).trans (.withLabel _))
      have before := works.reserves.labels
      refine ⟨30, .emit reserves ?_ ?_ ?_ ?_ ?_, ?_⟩
      · rw [Pattern.labelsOf_matchConstant]
        simp [nextLabel]
      · rw [Pattern.labelsOf_matchConstant]
        intro label member
        simp only [List.mem_cons, List.not_mem_nil, or_false] at member
        simp only [marks_withLabel]
        rcases member with rfl | rfl <;> simp [nextLabel] <;> omega
      · rw [Pattern.targetsOf_matchConstant, Pattern.labelsOf_matchConstant]
        simp
      · exact Nat.le_of_eq (Pattern.textSize_matchConstant ..)
      · have few := works.locals_le
        rw [Pattern.textSize_matchConstant]
        simp only [locals_withLabel]
        omega
      · simp [Pattern.bulkOf]
        omega
  | compound decided matched =>
      obtain ⟨matched⟩ := matched
      obtain ⟨bound, writes, fits⟩ := matched.writes
      obtain ⟨-, nodes, -⟩ := Shape.compounds_of decided
      simp only [Pattern.bulk] at fits
      exact ⟨bound, writes, by omega⟩

theorem MatchesArgument.inner_le {index : Nat} {term : Term}
    {text : List Item} {inner : List Pattern} {after : Draft}
    (matched : MatchesArgument naming draft index term text inner after) :
    Pattern.compoundsOf inner ≤ term.compounds ∧
      (term.isProper = true → Pattern.AllProper inner) := by
  cases matched with
  | compound decided matched =>
      obtain ⟨matched⟩ := matched
      obtain ⟨fewer, proper⟩ := matched.inner_le
      obtain ⟨count, -, inside⟩ := Shape.compounds_of decided
      simp only [Pattern.compounds] at fewer
      exact ⟨by omega, fun isProper => proper (inside isProper)⟩
  | _ => exact ⟨Nat.zero_le _, fun _ => nofun⟩

theorem matchArguments_plans (index : Nat) (terms : List Term) :
    Plans (matchArguments index terms) draft naming
      (Term.areProper terms = true)
      (fun inner after => ∃ bound text, draft.Writes bound text after ∧
        bound + Pattern.bulkOf inner ≤ 122 * Term.nodesOf terms ∧
        Pattern.compoundsOf inner ≤ Term.compoundsOf terms ∧
        (Term.areProper terms = true → Pattern.AllProper inner)) := by
  induction terms generalizing draft index with
  | nil =>
      exact ⟨0, [], .nil _, Nat.le_refl _, Nat.le_refl _, fun _ => nofun⟩
  | cons term rest ih =>
      refine ((matchArgument_plans index term).imp
        (fun proper => (Term.areProper_cons proper).1) fun _ _ => id).bind ?_
      rintro first middle ⟨text, matched⟩
      refine ((ih (index + 1)).imp
        (fun proper => (Term.areProper_cons proper).2) fun _ _ => id).bind ?_
      rintro others after ⟨more, later, writesMore, fitsMore, fewMore, properMore⟩
      obtain ⟨bound, writes, fits⟩ := matched.writes
      obtain ⟨few, proper⟩ := matched.inner_le
      refine ⟨bound + more, text ++ later, writes.append writesMore, ?_, ?_, ?_⟩
      · rw [Pattern.bulkOf_append, Term.nodesOf]
        omega
      · rw [Pattern.compoundsOf_append, Term.compoundsOf]
        omega
      · exact fun isProper => (proper (Term.areProper_cons isProper).1).append
          (properMore (Term.areProper_cons isProper).2)

theorem matchPostponed_plans (count : Nat) (patterns : List Pattern) :
    Plans (matchPostponed count patterns) draft naming
      (Pattern.compoundsOf patterns ≤ count ∧ Pattern.AllProper patterns)
      (fun _ after => ∃ text,
        draft.Writes (Pattern.bulkOf patterns) text after) := by
  induction count generalizing draft patterns with
  | zero =>
      cases patterns with
      | nil => exact ⟨[], .nil _⟩
      | cons pattern rest =>
          intro _ ⟨few, _⟩
          rw [Pattern.compoundsOf_cons, Pattern.compounds] at few
          omega
  | succ count ih =>
      cases patterns with
      | nil => exact ⟨[], .nil _⟩
      | cons pattern rest =>
          refine ((matchPattern_plans pattern).imp
            (fun good => good.2 pattern List.mem_cons_self)
            fun _ _ => id).bind ?_
          rintro inner middle ⟨text, ⟨matched⟩⟩
          obtain ⟨bound, writes, fits⟩ := matched.writes
          obtain ⟨fewer, proper⟩ := matched.inner_le
          refine (ih (rest ++ inner)).imp ?_ ?_
          · intro ⟨few, good⟩
            rw [Pattern.compoundsOf_cons] at few
            rw [Pattern.compoundsOf_append]
            refine ⟨by omega, ?_⟩
            exact Pattern.AllProper.append
              (fun other member => good other (List.mem_cons_of_mem _ member))
              (proper (good pattern List.mem_cons_self))
          · rintro _ after ⟨more, later⟩
            refine ⟨text ++ more, (writes.append later).mono ?_⟩
            rw [Pattern.bulkOf_append, Pattern.bulkOf_cons]
            omega

theorem compileHead_plans (head : Goal) :
    Plans (compileHead head) draft naming (Term.areProper head.args = true)
      (fun _ after => ∃ text,
        draft.Writes (122 * Term.nodesOf head.args) text after) := by
  apply (matchArguments_plans 0 head.args).bind
  rintro patterns middle ⟨bound, text, writes, fits, few, proper⟩
  refine (matchPostponed_plans _ patterns).imp
    (fun isProper => ⟨few, proper isProper⟩) ?_
  rintro _ after ⟨more, later⟩
  exact ⟨text ++ more, (writes.append later).mono fits⟩

end ClauseM

end LogicMachine
