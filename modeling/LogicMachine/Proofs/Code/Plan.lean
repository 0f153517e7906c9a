import LogicMachine.Proofs.Code.Adding

/-!
# Compiling for given names

The code of a clause depends on the program only through the numbers of functors
and the entries of predicates.  A naming gives both without any program, so
compiling for a naming is a function.  Compiling for a program does the same for
the names that the program ends up with.  On the way the program advances: it
numbers functors and makes room for predicates that have no clause yet.
-/

namespace LogicMachine

/-- Numbers for functors and entries for predicates, as far as there are any. -/
structure Naming where
  number? : Functor → Option FunctorId
  start? : Functor → Option Nat

/-- Actions that only look names up. -/
abbrev PlanM := ReaderT Naming (Except Fault)

/-- A name that is needed for a functor.  There is no fault for one that is
missing, because compiling for a program never meets it. -/
def PlanM.look (found : Option α) : PlanM α := fun _ =>
  match found with
  | some name => .ok name
  | none => .error .diverged

instance : Linker PlanM where
  intern := fun functor => do PlanM.look ((← read).number? functor)
  entryOf := fun functor => do PlanM.look ((← read).start? functor)

namespace Program

/-- The naming agrees with the numbers and entries that the program has. -/
structure Names (program : Program) (naming : Naming) : Prop where
  numbers : ∀ (functor : Functor) id,
    program.functors.numbers[functor]? = some id →
      naming.number? functor = some id
  entries : ∀ functor predicate,
    program.predicate? functor = some predicate →
      naming.start? functor = some predicate.entry

theorem Names.earlier {before after : Program} {naming : Naming}
    (names : after.Names naming) (keeps : before.Keeps after) :
    before.Names naming where
  numbers := fun functor id found =>
    names.numbers functor id (keeps.numbers functor id found)
  entries := by
    intro functor predicate found
    obtain ⟨later, present, same⟩ := keeps.entries functor predicate found
    rw [names.entries functor later present, same]

/-- The names that a program has. -/
def naming (program : Program) : Naming where
  number? := fun functor => program.functors.numbers[functor]?
  start? := fun functor => (program.predicate? functor).map Predicate.entry

theorem names_naming (program : Program) : program.Names program.naming := by
  constructor
  · intro functor id found
    simp [naming, found]
  · intro functor predicate found
    simp [naming, found]

/-- The later program has advanced, by dispatch code of so many predicates at
most. -/
structure AdvancesBy (calls : Nat) (before after : Program) : Prop
    extends before.Advances after where
  room : after.top ≤ before.top + dispatchSize * calls

theorem AdvancesBy.refl (program : Program) : AdvancesBy 0 program program :=
  ⟨.refl program, by simp⟩

theorem AdvancesBy.trans {first second third : Program} {few more : Nat}
    (left : AdvancesBy few first second) (right : AdvancesBy more second third) :
    AdvancesBy (few + more) first third where
  toAdvances := left.toAdvances.trans right.toAdvances
  room := by
    have before := left.room
    have after := right.room
    rw [Nat.mul_add]
    omega

theorem AdvancesBy.mono {before after : Program} {few more : Nat}
    (advances : AdvancesBy few before after) (le : few ≤ more) :
    AdvancesBy more before after where
  toAdvances := advances.toAdvances
  room := by
    have enough := Nat.mul_le_mul_left dispatchSize le
    have room := advances.room
    omega

end Program

namespace ClauseM

/-- The code segment has no room for the dispatch code of so many predicates. -/
def Lacks (program : Program) (calls : Nat) (fault : Fault) : Prop :=
  fault = .exhausted .code program.code.size ∧
    program.code.size < program.top + dispatchSize * calls

/-- Compiling for a program does what compiling for its names does, while there
is room for the dispatch code of the predicates that are called. -/
def Realizes (calls : Nat) (action : ClauseM ProgramM α)
    (plan : ClauseM PlanM α) : Prop :=
  ∀ draft program, Ends (action draft program)
    (fun result after => Program.AdvancesBy calls program after ∧
      ∀ naming, after.Names naming → plan draft naming = .ok result)
    (fun fault after => Program.AdvancesBy calls program after ∧
      (Lacks program calls fault ∨
        ∀ naming, after.Names naming → plan draft naming = .error fault))

namespace Realizes

variable {calls few more : Nat}

theorem mono {action : ClauseM ProgramM α} {plan : ClauseM PlanM α}
    (realizes : Realizes few action plan) (le : few ≤ more) :
    Realizes more action plan := by
  intro draft program
  refine (realizes draft program).imp ?_ ?_
  · intro result after ⟨advances, planned⟩
    exact ⟨advances.mono le, planned⟩
  · intro fault after ⟨advances, reason⟩
    refine ⟨advances.mono le, reason.imp_left ?_⟩
    intro ⟨full, short⟩
    have enough := Nat.mul_le_mul_left dispatchSize le
    exact ⟨full, by omega⟩

theorem pure (value : α) :
    Realizes 0 (Pure.pure value) (Pure.pure value) :=
  fun _ program => ⟨.refl program, fun _ _ => rfl⟩

theorem throw (fault : Fault) :
    Realizes 0 (MonadExcept.throw fault : ClauseM ProgramM α)
      (MonadExcept.throw fault) :=
  fun _ program => ⟨.refl program, .inr fun _ _ => rfl⟩

theorem get : Realizes 0 MonadState.get MonadState.get :=
  fun _ program => ⟨.refl program, fun _ _ => rfl⟩

theorem modifying (update : Draft → Draft) :
    Realizes 0 (modify update) (modify update) :=
  fun _ program => ⟨.refl program, fun _ _ => rfl⟩

theorem modifyGet (update : Draft → α × Draft) :
    Realizes 0 (MonadState.modifyGet update) (MonadState.modifyGet update) :=
  fun _ program => ⟨.refl program, fun _ _ => rfl⟩

theorem bind {action : ClauseM ProgramM α} {plan : ClauseM PlanM α}
    {next : α → ClauseM ProgramM β} {nextPlan : α → ClauseM PlanM β}
    (first : Realizes few action plan)
    (second : ∀ value, Realizes more (next value) (nextPlan value)) :
    Realizes (few + more) (action >>= next) (plan >>= nextPlan) := by
  intro draft program
  show Ends ((action draft >>= fun result => next result.1 result.2) program)
    _ _
  rw [ends_bind]
  refine (first draft program).imp ?_ ?_
  · intro ⟨value, later⟩ middle ⟨advances, planned⟩
    have continues (naming : Naming) (names : middle.Names naming) :
        (plan >>= nextPlan) draft naming = nextPlan value later naming := by
      show ((plan draft naming) >>= fun result =>
        nextPlan result.1 result.2 naming) = _
      rw [planned naming names]
      rfl
    refine (second value later middle).imp ?_ ?_
    · intro result after ⟨advancesMore, plannedMore⟩
      refine ⟨advances.trans advancesMore, fun naming names => ?_⟩
      rw [continues naming
        (names.earlier advancesMore.grows.toKeeps)]
      exact plannedMore naming names
    · intro fault after ⟨advancesMore, reason⟩
      refine ⟨advances.trans advancesMore, ?_⟩
      rcases reason with ⟨full, short⟩ | plannedMore
      · have capacity := advances.grows.capacity
        have room := advances.room
        refine .inl ⟨by rw [full, capacity], ?_⟩
        rw [Nat.mul_add]
        omega
      · refine .inr fun naming names => ?_
        rw [continues naming (names.earlier advancesMore.grows.toKeeps)]
        exact plannedMore naming names
  · intro fault after ⟨advances, reason⟩
    refine ⟨advances.mono (Nat.le_add_right _ _), ?_⟩
    rcases reason with ⟨full, short⟩ | planned
    · refine .inl ⟨full, ?_⟩
      rw [Nat.mul_add]
      omega
    · refine .inr fun naming names => ?_
      show ((plan draft naming) >>= fun result =>
        nextPlan result.1 result.2 naming) = _
      rw [planned naming names]
      rfl

/-- A step without calls before others. -/
theorem andThen {action : ClauseM ProgramM α} {plan : ClauseM PlanM α}
    {next : α → ClauseM ProgramM β} {nextPlan : α → ClauseM PlanM β}
    (first : Realizes 0 action plan)
    (second : ∀ value, Realizes calls (next value) (nextPlan value)) :
    Realizes calls (action >>= next) (plan >>= nextPlan) := by
  have both := bind first second
  rwa [Nat.zero_add] at both

theorem map {action : ClauseM ProgramM α} {plan : ClauseM PlanM α}
    (apply : α → β) (realizes : Realizes 0 action plan) :
    Realizes 0 (apply <$> action) (apply <$> plan) :=
  realizes.andThen fun value => pure (apply value)

theorem mapM {apply : α → ClauseM ProgramM β} {plan : α → ClauseM PlanM β}
    (each : ∀ item, Realizes 0 (apply item) (plan item)) (items : List α) :
    Realizes 0 (items.mapM apply) (items.mapM plan) := by
  induction items with
  | nil =>
      rw [List.mapM_nil, List.mapM_nil]
      exact pure []
  | cons item rest ih =>
      rw [List.mapM_cons, List.mapM_cons]
      refine (each item).andThen fun value => ?_
      exact ih.andThen fun values => pure (value :: values)

/-- A loop in which every round makes one call at most. -/
theorem forIn {body : α → ClauseM ProgramM Unit} {plan : α → ClauseM PlanM Unit}
    (each : ∀ item, Realizes 1 (body item) (plan item)) (items : List α) :
    Realizes items.length
      (ForIn.forIn items () fun item _ => do
        body item
        return ForInStep.yield ())
      (ForIn.forIn items () fun item _ => do
        plan item
        return ForInStep.yield ()) := by
  induction items with
  | nil =>
      rw [List.forIn_nil, List.forIn_nil]
      exact pure ()
  | cons item rest ih =>
      rw [List.forIn_cons, List.forIn_cons, List.length_cons, Nat.add_comm,
        bind_assoc, bind_assoc]
      simp only [pure_bind]
      exact bind (each item) fun _ => ih

/-- What follows a test whose failure is a fault. -/
theorem accepting {condition : Prop} [Decidable condition] {fault : Fault}
    {next : Unit → ClauseM ProgramM α} {plan : Unit → ClauseM PlanM α}
    (accepted : Realizes calls (next ()) (plan ())) :
    Realizes calls
      (if condition then MonadExcept.throw fault >>= next else next ())
      (if condition then MonadExcept.throw fault >>= plan else plan ()) := by
  split
  · exact fun _ program => ⟨(Program.AdvancesBy.refl program).mono
      (Nat.zero_le _), .inr fun _ _ => rfl⟩
  · exact accepted

end Realizes

theorem newLocal_realizes : Realizes 0 newLocal newLocal :=
  .modifyGet _

theorem newLabel_realizes : Realizes 0 newLabel newLabel :=
  .modifyGet _

theorem emit_realizes (items : List Item) :
    Realizes 0 (emit items) (emit items) :=
  .modifying _

theorem intern_realizes (functor : Functor) :
    Realizes 0 (intern functor) (intern functor) := by
  intro draft program
  refine ⟨⟨(ProgramM.intern_advances functor program).1, Nat.le_refl _⟩, ?_⟩
  intro naming names
  have number := names.numbers functor _
    (FunctorTable.numbers_intern program.functors functor)
  show ((PlanM.look (naming.number? functor) naming) >>= fun id =>
    Except.ok (id, draft)) = _
  rw [number]
  rfl

theorem entryOf_realizes (functor : Functor) :
    Realizes 1 (liftM (Linker.entryOf functor : ProgramM Nat))
      (liftM (Linker.entryOf functor : PlanM Nat)) := by
  intro draft program
  show Ends ((ProgramM.entryOf functor >>= fun entry =>
    Pure.pure (entry, draft)) program) _ _
  rw [ends_bind]
  simp only [ProgramM.entryOf, ends_bind, ends_get]
  cases known : program.predicate? functor with
  | some predicate =>
      refine ⟨(Program.AdvancesBy.refl program).mono (Nat.zero_le _), ?_⟩
      intro naming names
      show ((PlanM.look (naming.start? functor) naming) >>= fun entry =>
        Except.ok (entry, draft)) = _
      rw [names.entries functor predicate known]
      rfl
  | none =>
      generalize isUndefined : dispatchUndefined = words
      have size : words.length = dispatchSize := by
        rw [← isUndefined]
        rfl
      simp only [ends_bind, ProgramM.append, ends_get]
      refine ProgramM.ends_write (fun fits => ?_) (fun full => ?_)
      · have advances := Program.announced_advances isUndefined.symm
          (program.journal.add (.forwardReference functor program.top)) known
          fits
        refine ⟨⟨advances, ?_⟩, ?_⟩
        · simp [size]
        · intro naming names
          show ((PlanM.look (naming.start? functor) naming) >>= fun entry =>
            Except.ok (entry, draft)) = _
          rw [names.entries functor (.undefined program.top)]
          · rfl
          · exact (Program.predicate?_announced program words functor _
              functor).trans (if_pos rfl)
      · refine ⟨(Program.AdvancesBy.refl program).mono (Nat.zero_le _),
          .inl ⟨rfl, ?_⟩⟩
        rw [size] at full
        omega

theorem shape_realizes (term : Term) :
    Realizes 0 (shape term) (shape term) := by
  unfold shape
  cases Shape.of term with
  | ok shape => exact .pure shape
  | error fault => exact .throw fault

theorem occurrence_realizes (name : String) :
    Realizes 0 (occurrence name) (occurrence name) := by
  refine Realizes.get.andThen fun draft => ?_
  cases draft.slots.lookup name with
  | some slot => exact .pure _
  | none =>
      refine newLocal_realizes.andThen fun slot => ?_
      exact (Realizes.modifying _).andThen fun _ => .pure _

theorem working_realizes : Realizes 0 working working := by
  refine Realizes.get.andThen fun draft => ?_
  cases draft.working with
  | some slots => exact .pure _
  | none =>
      refine newLocal_realizes.andThen fun subject => ?_
      refine newLocal_realizes.andThen fun cursor => ?_
      exact (Realizes.modifying _).andThen fun _ => .pure _

/-! ## The head -/

theorem planSlot_realizes (term : Term) :
    Realizes 0 (planSlot term) (planSlot term) := by
  refine (shape_realizes term).andThen fun shape => ?_
  cases shape with
  | void => exact .pure _
  | «variable» name =>
      refine (occurrence_realizes name).andThen fun occurrence => ?_
      cases occurrence <;> exact .pure _
  | constant functor =>
      refine (intern_realizes functor).andThen fun id => ?_
      refine newLabel_realizes.andThen fun read => ?_
      exact newLabel_realizes.andThen fun done => .pure _
  | compound functor args =>
      exact newLocal_realizes.andThen fun slot => .pure _

theorem emitLabelled_realizes (items : Label → Label → Label → List Item)
    (value : α) :
    Realizes 0
      (do
        let read ← newLabel
        let fail ← newLabel
        let done ← newLabel
        emit (items read fail done)
        return value)
      (do
        let read ← newLabel
        let fail ← newLabel
        let done ← newLabel
        emit (items read fail done)
        return value) := by
  refine newLabel_realizes.andThen fun read => ?_
  refine newLabel_realizes.andThen fun fail => ?_
  refine newLabel_realizes.andThen fun done => ?_
  exact (emit_realizes _).andThen fun _ => .pure _

theorem matchPattern_realizes (pattern : Pattern) :
    Realizes 0 (matchPattern pattern) (matchPattern pattern) := by
  refine working_realizes.andThen fun (subject, cursor) => ?_
  refine (Realizes.mapM planSlot_realizes pattern.args).andThen fun slots => ?_
  cases pattern.functor with
  | some functor =>
      refine ((intern_realizes functor).map some).andThen fun functor => ?_
      exact emitLabelled_realizes _ _
  | none =>
      exact (Realizes.pure none).andThen fun functor =>
        emitLabelled_realizes _ _

theorem matchArgument_realizes (index : Nat) (term : Term) :
    Realizes 0 (matchArgument index term) (matchArgument index term) := by
  refine (shape_realizes term).andThen fun shape => ?_
  cases shape with
  | void => exact .pure _
  | «variable» name =>
      refine (occurrence_realizes name).andThen fun occurrence => ?_
      cases occurrence with
      | first slot => exact (emit_realizes _).andThen fun _ => .pure _
      | again slot => exact (emit_realizes _).andThen fun _ => .pure _
  | constant functor =>
      refine (intern_realizes functor).andThen fun id => ?_
      refine working_realizes.andThen fun (subject, cursor) => ?_
      refine newLabel_realizes.andThen fun read => ?_
      refine newLabel_realizes.andThen fun done => ?_
      exact (emit_realizes _).andThen fun _ => .pure _
  | compound functor args => exact matchPattern_realizes _

theorem matchArguments_realizes (index : Nat) (terms : List Term) :
    Realizes 0 (matchArguments index terms) (matchArguments index terms) := by
  induction terms generalizing index with
  | nil => exact .pure _
  | cons term rest ih =>
      refine (matchArgument_realizes index term).andThen fun inner => ?_
      exact (ih (index + 1)).andThen fun later => .pure _

theorem matchPostponed_realizes (count : Nat) (patterns : List Pattern) :
    Realizes 0 (matchPostponed count patterns)
      (matchPostponed count patterns) := by
  induction count generalizing patterns with
  | zero =>
      cases patterns with
      | nil => exact .pure ()
      | cons pattern rest => exact .throw .diverged
  | succ count ih =>
      cases patterns with
      | nil => exact .pure ()
      | cons pattern rest =>
          exact (matchPattern_realizes pattern).andThen fun inner => ih _

theorem compileHead_realizes (head : Goal) :
    Realizes 0 (compileHead head) (compileHead head) :=
  (matchArguments_realizes 0 head.args).andThen fun patterns =>
    matchPostponed_realizes _ patterns

/-! ## The goals -/

theorem buildFresh_realizes (slot : Local) :
    Realizes 0 (buildFresh slot) (buildFresh slot) :=
  (emit_realizes _).andThen fun _ => .pure _

theorem buildVariable_realizes (name : String) :
    Realizes 0 (buildVariable name) (buildVariable name) := by
  refine (occurrence_realizes name).andThen fun occurrence => ?_
  cases occurrence with
  | first slot => exact buildFresh_realizes slot
  | again slot => exact .pure _

theorem buildStructure_realizes {args : List Term} {functor : Functor}
    (builds : Realizes 0 (buildAll args) (buildAll args)) :
    Realizes 0
      (do
        let values ← buildAll args
        let id ← intern functor
        let slot ← newLocal
        emit (Built.structureItems slot id values)
        return Built.slot slot)
      (do
        let values ← buildAll args
        let id ← intern functor
        let slot ← newLocal
        emit (Built.structureItems slot id values)
        return Built.slot slot) := by
  refine builds.andThen fun values => ?_
  refine (intern_realizes functor).andThen fun id => ?_
  refine newLocal_realizes.andThen fun slot => ?_
  exact (emit_realizes _).andThen fun _ => .pure _

mutual

theorem build_realizes : ∀ term : Term, Realizes 0 (build term) (build term)
  | .atom name => by
      rw [build, build]
      exact (intern_realizes _).andThen fun _ => .pure _
  | .var name => by
      rw [build, build]
      split
      · exact newLocal_realizes.andThen fun slot => buildFresh_realizes slot
      · exact buildVariable_realizes name
  | .compound functor [] => by
      rw [build, build]
      refine Realizes.accepting ?_
      exact (intern_realizes _).andThen fun _ => .pure _
  | .compound functor [head, tail] => by
      rw [build, build]
      refine (build_realizes head).andThen fun first => ?_
      refine (build_realizes tail).andThen fun second => ?_
      split
      · refine newLocal_realizes.andThen fun slot => ?_
        exact (emit_realizes _).andThen fun _ => .pure _
      · refine (intern_realizes _).andThen fun id => ?_
        refine newLocal_realizes.andThen fun slot => ?_
        exact (emit_realizes _).andThen fun _ => .pure _
  | .compound functor [only] => by
      rw [build, build]
      · exact .accepting (buildStructure_realizes (buildAll_realizes [only]))
      all_goals nofun
  | .compound functor (first :: second :: third :: more) => by
      rw [build, build]
      · exact .accepting (buildStructure_realizes
          (buildAll_realizes (first :: second :: third :: more)))
      all_goals nofun

theorem buildAll_realizes :
    ∀ terms : List Term, Realizes 0 (buildAll terms) (buildAll terms)
  | [] => by
      rw [buildAll, buildAll]
      exact .pure []
  | term :: rest => by
      rw [buildAll, buildAll]
      refine (build_realizes term).andThen fun value => ?_
      exact (buildAll_realizes rest).andThen fun values => .pure _

end

theorem compileGoal_realizes (goal : Goal) :
    Realizes 1 (compileGoal goal) (compileGoal goal) := by
  unfold compileGoal
  split
  · refine Realizes.get.andThen fun draft => ?_
    cases draft.cutLevel with
    | some slot => exact (emit_realizes _).mono (Nat.zero_le _)
    | none => exact (Realizes.pure ()).mono (Nat.zero_le _)
  · refine (buildAll_realizes goal.args).andThen fun values => ?_
    refine (emit_realizes _).andThen fun _ => ?_
    exact (entryOf_realizes _).bind fun entry => emit_realizes _

/-! ## Whole clauses -/

theorem compileCutLevel_realizes (rule : Rule) :
    Realizes 0 (compileCutLevel rule) (compileCutLevel rule) := by
  unfold compileCutLevel
  split
  · refine newLocal_realizes.andThen fun slot => ?_
    exact (emit_realizes _).andThen fun _ => .modifying _
  · exact .pure _

/-- The head and the goals of a clause, and what comes after them. -/
theorem compileBody_realizes (rule : Rule) {last : ClauseM ProgramM Unit}
    {lastPlan : ClauseM PlanM Unit} (ends : Realizes 0 last lastPlan) :
    Realizes rule.goals.length
      (do
        compileHead rule.head
        for goal in rule.goals do
          compileGoal goal
        last)
      (do
        compileHead rule.head
        for goal in rule.goals do
          compileGoal goal
        lastPlan) := by
  refine (compileHead_realizes rule.head).andThen fun _ => ?_
  exact (Realizes.forIn compileGoal_realizes rule.goals).bind fun _ => ends

theorem compileRule_realizes (rule : Rule) (trace : Bool) :
    Realizes rule.goals.length (compileRule rule trace)
      (compileRule rule trace) := by
  refine (compileCutLevel_realizes rule).andThen fun _ => ?_
  cases trace with
  | true =>
      refine ((intern_realizes _).map some).andThen fun traced => ?_
      cases traced with
      | some functor =>
          refine (emit_realizes _).andThen fun _ => ?_
          exact compileBody_realizes rule (emit_realizes _)
      | none => exact compileBody_realizes rule (.pure ())
  | false =>
      refine (Realizes.pure none).andThen fun traced => ?_
      cases traced with
      | some functor =>
          refine (emit_realizes _).andThen fun _ => ?_
          exact compileBody_realizes rule (emit_realizes _)
      | none => exact compileBody_realizes rule (.pure ())

end ClauseM

namespace Rule

/-- The code under construction of a clause, for given names. -/
def draft (rule : Rule) (trace : Bool) (naming : Naming) :
    Except Fault Draft :=
  ((ClauseM.compileRule rule trace : ClauseM PlanM Unit) .empty naming).map
    Prod.snd

/-- The code of a clause, for given names. -/
def code (rule : Rule) (trace : Bool) (naming : Naming) :
    Except Fault (List UInt32) := do
  (← rule.draft trace naming).assembler.clause rule.head.arity

end Rule

namespace ProgramM

/-- Compiling a rule advances the program, and the code is that for the names
of the program from then on. -/
theorem compile_advances (rule : Rule) (trace : Bool) (program : Program) :
    Ends (compile rule trace program)
      (fun words after =>
        Program.AdvancesBy rule.goals.length program after ∧
          ∀ naming, after.Names naming → rule.code trace naming = .ok words)
      (fun fault after =>
        Program.AdvancesBy rule.goals.length program after ∧
          (ClauseM.Lacks program rule.goals.length fault ∨
            ∀ naming, after.Names naming →
              rule.code trace naming = .error fault)) := by
  unfold compile
  rw [ends_bind]
  refine (ClauseM.compileRule_realizes rule trace .empty program).imp ?_ ?_
  · intro ⟨⟨⟩, draft⟩ after ⟨advances, planned⟩
    have drafted (naming : Naming) (names : after.Names naming) :
        rule.code trace naming = draft.assembler.clause rule.head.arity := by
      simp only [Rule.code, Rule.draft, planned naming names]
      rfl
    show Ends (ofExcept (draft.assembler.clause rule.head.arity) after) _ _
    cases assembled : draft.assembler.clause rule.head.arity with
    | ok words =>
        refine ⟨advances, fun naming names => ?_⟩
        rw [drafted naming names, assembled]
    | error fault =>
        refine ⟨advances, .inr fun naming names => ?_⟩
        rw [drafted naming names, assembled]
  · intro fault after ⟨advances, reason⟩
    refine ⟨advances, reason.imp_right fun planned naming names => ?_⟩
    simp only [Rule.code, Rule.draft, planned naming names]
    rfl

end ProgramM

end LogicMachine
