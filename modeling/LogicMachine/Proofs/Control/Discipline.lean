import LogicMachine.Proofs.Control.Cutting
import LogicMachine.Proofs.Control.Pending
import LogicMachine.Proofs.Control.Trace

/-!
# Calls and choice points along a run

Each step of a run makes a call, returns from the innermost one, opens, closes or
goes back to choice points, or leaves both calls and choice points alone.
Whatever it does, the calls that are pending then will find their callers as they
left them.
-/

namespace LogicMachine

/-- The machine has returned from a call: it stands behind the call, with the
caller's record and what the caller had on the stack. -/
structure Call.Returned (call : Call) (machine : Machine) : Prop where
  instruction : machine.registers.instruction =
    call.machine.registers.continuation
  environment : machine.registers.environment =
    call.machine.registers.environment
  stacked : machine.store.Stacked call.lower

/-- What a step means to the pending calls and the open choice points.  In a
guarded run more is known about commitments and returns, and in a reserved one
about calls. -/
inductive Outlook.Moves (guarded reserved : Prop) (outlook : Outlook)
    (after : Machine) : Turn → Outlook → Prop where
  | onward {later : Setting}
      (same : later.checkpoints = outlook.setting.checkpoints) :
      Moves guarded reserved outlook after .onward
        { outlook with setting := later }
  | enters {later : Setting} {call : Call} (made : call.machine = after)
      (same : later.checkpoints = outlook.setting.checkpoints)
      (entered : Base.Enters call)
      (modest : reserved → call.functor.takesLevel = true →
        ∃ caller others, outlook.calls = caller :: others ∧
          caller.functor.passesLevel = true) :
      Moves guarded reserved outlook after .enters
        ⟨later, call :: outlook.calls, outlook.choices⟩
  | returns {later : Setting} {call : Call} {others : List Call}
      (calls : outlook.calls = call :: others)
      (returned : call.Returned after)
      (same : later.checkpoints = outlook.setting.checkpoints)
      (kept : guarded → call.scope <:+ later.checkpoints) :
      Moves guarded reserved outlook after .returns ⟨later, others, outlook.choices⟩
  | opens {later : Setting} {checkpoint : Checkpoint}
      (added : later.checkpoints =
        checkpoint :: outlook.setting.checkpoints) :
      Moves guarded reserved outlook after .opens
        ⟨later, outlook.calls, outlook.calls :: outlook.choices⟩
  | commits {later : Setting}
      (dropped : later.checkpoints = outlook.setting.checkpoints.drop
        (outlook.setting.checkpoints.length - after.level))
      (targeted : guarded → ∀ call others, outlook.calls = call :: others →
        later.checkpoints = call.target) :
      Moves guarded reserved outlook after .commits
        ⟨later, outlook.calls, outlook.choices.drop
          (outlook.choices.length - after.level)⟩
  | retreats {later : Setting} {checkpoint : Checkpoint} {calls : List Call}
      {choices : List (List Call)}
      (opened : outlook.choices = calls :: choices)
      (closed : outlook.setting.checkpoints =
        checkpoint :: later.checkpoints) :
      Moves guarded reserved outlook after .retreats ⟨later, calls, choices⟩

namespace MachineM

variable {program : Program}

/-- Nothing is taken back, so what a later program keeps may be said of the
program before. -/
theorem ends_of_advances {horizon : Program}
    {result : EStateM.Result Fault Machine α}
    {regular : α → Machine → Prop} {faulty : Fault → Machine → Prop}
    (advances : Ends result (fun _ => Advanced program)
      (fun _ => Advanced program))
    (holds : program.Keeps horizon → Ends result
      (fun value after => after.program.Keeps horizon → regular value after)
      (fun fault after => after.program.Keeps horizon → faulty fault after)) :
    Ends result
      (fun value after => after.program.Keeps horizon → regular value after)
      (fun fault after => after.program.Keeps horizon →
        faulty fault after) := by
  cases result with
  | ok value after =>
      exact fun keeps => holds (advances.grows.toKeeps.trans keeps) keeps
  | error fault after =>
      exact fun keeps => holds (advances.grows.toKeeps.trans keeps) keeps

theorem settle_advances (turn : Turn) (success : Bool) :
    Keeps (Advanced program) (settle turn success) := by
  unfold settle
  split
  · exact Keeps.pure _
  · exact Keeps.bind fail_upholds fun _ => Keeps.pure _

/-- There is no code at a negative position. -/
theorem stepTurn_finished {machine : Machine}
    (instruction : machine.registers.instruction = .code (-1)) (fuel : Nat) :
    stepTurn fuel machine = .error (.invalidAddress (.code (-1))) machine := by
  simp only [stepTurn, advance, bind, EStateM.bind, get_apply, instruction]
  rfl

theorem stepTurn_upholds {known : Program → Prop} [Program.Upkeep known]
    (fuel : Nat) : Keeps (Holding known) (stepTurn fuel) := by
  intro machine holds
  have steps := @step_upholds known _ fuel machine holds
  rw [← stepTurn_snd] at steps
  simp only [Functor.map, EStateM.map] at steps
  cases result : stepTurn fuel machine with
  | ok outcome after =>
      rw [result] at steps
      exact steps
  | error fault after =>
      rw [result] at steps
      exact steps

theorem stepTurn_advances (fuel : Nat) :
    Keeps (Advanced program) (stepTurn fuel) :=
  stepTurn_upholds fuel

end MachineM

variable [Atoms]

namespace Base

variable {base : Base} {outlook : Outlook} {machine after : Machine}

/-- What is known of a machine and its calls at any time. -/
structure Known (base : Base) (outlook : Outlook) (machine : Machine) : Prop
    extends base.Prepared outlook where
  stands : base.Stands outlook machine

/-- In a guarded run a word has room for the level of each call, and whatever
takes a level is called by a predicate that hands it on. -/
def Allows (base : Base) (calls : List Call) : Prop :=
  base.guarded → ∀ call others, calls = call :: others →
    call.machine.level < 2 ^ 31 ∧
      (call.functor.takesLevel = true → ∀ caller rest,
        others = caller :: rest → caller.functor.passesLevel = true)

/-- A step that keeps what is known. -/
def Leads (base : Base) (outlook : Outlook) (turn : Turn) (after : Machine) :
    Prop :=
  ∃ later, outlook.Moves base.guarded base.reserved after turn later ∧
    ((turn = .enters → base.Allows later.calls) → base.Known later after)

theorem Prepared.bare (prepared : base.Prepared outlook) :
    ∀ id functor, Atoms.includes id →
      outlook.setting.program.functors.get? id = some functor →
        functor.arity = 0 := by
  intro id functor isAtom found
  have known := prepared.within.functors id functor found
  exact (base.atoms id functor known).mp isAtom

theorem Prepared.narrow (prepared : base.Prepared outlook) :
    ∀ id functor, outlook.setting.program.functors.get? id = some functor →
      functor.arity < 2 ^ 31 :=
  fun id functor found =>
    base.narrow id functor (prepared.within.functors id functor found)

/-! ## Going back -/

/-- Without an open choice point nothing changes. -/
theorem backtrack_of_nil (fits : outlook.setting.Stays machine)
    (none : outlook.setting.checkpoints = []) :
    MachineM.backtrack machine = .ok false machine := by
  obtain ⟨history, frames, same, -⟩ := fits.follows.remembers
  rw [none] at same
  cases List.map_eq_nil_iff.mp same
  have empty : machine.store.trail.pop? = Option.none := by
    cases popped : machine.store.trail.pop? with
    | none => rfl
    | some pair =>
        rw [Trail.frames_of_pop? popped] at frames
        cases frames
  simp only [MachineM.backtrack, bind, EStateM.bind, get_apply, empty]
  rfl

theorem checkpoints_ne_nil (fits : outlook.setting.Stays machine)
    (back : MachineM.backtrack machine = .ok true after) :
    outlook.setting.checkpoints ≠ [] := by
  intro none
  rw [backtrack_of_nil fits none] at back
  cases back

theorem Prepared.retreats (prepared : base.Prepared outlook)
    (fits : outlook.setting.Stays machine)
    (back : MachineM.backtrack machine = .ok true after) :
    base.Leads outlook .retreats after := by
  have nonempty := checkpoints_ne_nil fits back
  obtain ⟨setting, calls, choices⟩ := outlook
  obtain ⟨advances, within, collected, alternatives, ordered⟩ := prepared
  cases opened : setting.checkpoints with
  | nil => exact absurd opened nonempty
  | cons checkpoint checkpoints =>
      rw [opened] at alternatives ordered
      have follows := fits.follows
      rw [opened] at follows
      cases alternatives with
      | @cons _ _ choices _ alternative older =>
      obtain ⟨final, done, restores, followsOlder⟩ :=
        MachineM.backtrack_restores follows
      rw [back] at done
      cases done
      obtain ⟨pending, takesUp, instruction, environment, continuation, cutBase,
        stacked, tidy, persists, several⟩ := alternative
      rename_i call others clauses position
      cases ordered with
      | cons below orderedOlder =>
      let later : Setting :=
        { setting with checkpoints := checkpoints, origin := call.machine.store }
      have replays := MachineM.ends_of_ok (MachineM.backtrack_replays fits.tidy)
        back
      have above := (follows.above checkpoint List.mem_cons_self).1
      have runs : Runs later position (call.waiting after.store.memory) after := {
        program := by
          obtain ⟨journal, same⟩ := restores.program
          rw [same, fits.program]
        collectors := restores.collectors.trans fits.collectors
        follows := followsOlder (.inr rfl)
        tidy := restores.tidy replays fits.tidy tidy above
        persists := restores.persists persists
        instruction := by rw [restores.registers, instruction]
        environment := by
          rw [restores.registers, environment]
          rfl
        continuation := by
          rw [restores.registers, continuation]
          rfl
        cutBase := by
          rw [restores.registers, cutBase]
          rfl
        memory := rfl
        stacked := by
          rw [Call.stack_waiting]
          exact restores.stacked stacked tidy.addressable }
      have grown : base.program.Grows later.program := advances.grows
      have starts : base.Starts later call after.store.memory := {
        persists := .refl _
        scope := fun guarded =>
          (pending.isScoped.within guarded).trans (below guarded)
        checkpoints := below
        same := fun guarded isSimple => by
          rw [several guarded] at isSimple
          cases isSimple }
      exact ⟨⟨later, call :: others, choices⟩, .retreats rfl opened, fun _ =>
        ⟨⟨advances, within, collected, older, orderedOlder⟩,
          .busy rfl pending starts.toSpans (takesUp.heads pending.sound
            pending.isScoped grown starts after runs)⟩⟩

/-- The run has stopped.  All that is left is to go back. -/
def Halts (base : Base) (outlook : Outlook) (machine : Machine) : Prop :=
  ∃ setting : Setting, setting.checkpoints = outlook.setting.checkpoints ∧
    base.Prepared { outlook with setting } ∧ setting.Stays machine

/-- Going back does not depend on what else has changed. -/
theorem Leads.of_setting {later : Setting}
    (same : later.checkpoints = outlook.setting.checkpoints)
    (leads : base.Leads { outlook with setting := later } .retreats after) :
    base.Leads outlook .retreats after := by
  obtain ⟨last, moves, good⟩ := leads
  cases moves with
  | retreats opened closed =>
      exact ⟨_, .retreats opened (same ▸ closed), good⟩

theorem Halts.retreats (halts : base.Halts outlook machine)
    (back : MachineM.backtrack machine = .ok true after) :
    base.Leads outlook .retreats after := by
  obtain ⟨setting, same, prepared, stays⟩ := halts
  exact (prepared.retreats stays back).of_setting same

theorem Known.halts (known : base.Known outlook machine) :
    base.Halts outlook machine :=
  ⟨outlook.setting, rfl, known.toPrepared, known.stands.fits⟩

/-- Whatever comes of a step keeps what is known, unless the run stops there. -/
abbrev Proceeds (base : Base) (outlook : Outlook)
    (result : EStateM.Result Fault Machine (Turn × Status)) : Prop :=
  Ends result
    (fun outcome after => after.program.Keeps base.horizon →
      if outcome.2 = .failed then base.Halts outlook after
      else base.Leads outlook outcome.1 after)
    (fun _ after => after.program.Keeps base.horizon →
      base.Halts outlook after)

theorem proceeds_ok (turn : Turn) (status : Status)
    (goesOn : status ≠ .failed)
    (leads : after.program.Keeps base.horizon →
      base.Leads outlook turn after) :
    base.Proceeds outlook (.ok (turn, status) after) := by
  intro within
  rw [if_neg goesOn]
  exact leads within

/-- The branch is given up. -/
theorem Halts.fails (halts : base.Halts outlook machine) (turn : Turn) :
    base.Proceeds outlook (MachineM.settle turn false machine) := by
  simp only [Proceeds, MachineM.settle, MachineM.fail, Bool.false_eq_true,
    if_false, ends_bind]
  obtain ⟨setting, same, prepared, stays⟩ := halts
  by_cases none : setting.checkpoints = []
  · have stuck := @backtrack_of_nil _ { outlook with setting } machine stays none
    rw [stuck]
    exact fun _ => ⟨setting, same, prepared, stays⟩
  · obtain ⟨checkpoint, checkpoints, opened⟩ :=
      List.exists_cons_of_ne_nil none
    obtain ⟨final, done, -⟩ :=
      MachineM.backtrack_restores (opened ▸ stays.follows)
    rw [done]
    exact proceeds_ok .retreats .running (by simp) fun _ =>
      (prepared.retreats stays done).of_setting same

theorem Prepared.fails (prepared : base.Prepared outlook)
    (stays : outlook.setting.Stays machine) (turn : Turn) :
    base.Proceeds outlook (MachineM.settle turn false machine) :=
  Halts.fails ⟨outlook.setting, rfl, prepared, stays⟩ turn

/-! ## Making calls -/

/-- A call has been made with its arguments on the stack. -/
theorem Prepared.enters (prepared : base.Prepared outlook) {caller : Call}
    {others : List Call} (calls : outlook.calls = caller :: others)
    (pending : base.Pending (caller :: others)) {later : Setting}
    (advances : base.program.Advances later.program)
    (within : later.program.Keeps base.horizon)
    (collectors : later.collectors = outlook.setting.collectors)
    (checkpoints : later.checkpoints = outlook.setting.checkpoints)
    (spans : base.Spans later caller) {position : Nat}
    {activity : Activity} {desk : Desk} (goals : List Goal)
    {functor : Functor} {predicate : Predicate} {words : List Word}
    (runs : Runs later position { activity with operands := words } machine)
    (sets : caller.Sets desk)
    (clear : desk.Clear Desk.anything { activity with operands := [] })
    (length : words.length = functor.arity)
    (plain : ∀ word ∈ words, word.Plain)
    (known : later.program.predicate? functor = some predicate)
    (modest : base.reserved → functor.takesLevel = true →
      caller.functor.passesLevel = true)
    (given : base.guarded → functor.takesLevel = true →
      caller.functor.passesLevel = true → ∃ word, words.getLast? = some word ∧
        base.Denotes later.origin word caller.scope.length)
    (rest : ∀ callee last, base.Makes later caller functor words
      activity.memory callee → base.Footing last callee [] →
        base.Body last caller desk goals position) :
    base.Leads outlook .enters
      (machine.entering predicate.entry.toUInt32) := by
  let call : Call :=
    { machine := machine.entering predicate.entry.toUInt32
      functor := functor
      checkpoints := later.checkpoints
      lower := Activity.stack { activity with operands := [] }
      arguments := words
      scope := if functor.takesLevel then caller.scope else later.checkpoints }
  have stack : Activity.stack { activity with operands := words } =
      call.stack := by
    simp [Activity.stack, Activity.frame, Call.stack, call]
  have sound : call.Sound := {
    stacked := stack ▸ runs.stacked
    plain := plain
    arity := length
    tidy := runs.tidy
    follows := runs.follows
    cutBase := rfl }
  have entered : Enters call := by
    refine ⟨predicate, ?_, rfl⟩
    show machine.program.predicate? functor = some predicate
    rw [runs.program]
    exact known
  refine ⟨⟨{ later with origin := call.machine.store },
    call :: outlook.calls, outlook.choices⟩, .enters rfl checkpoints entered
      fun reserved takes => ⟨caller, others, calls, modest reserved takes⟩,
    fun allows => ⟨⟨advances, within, ?_, ?_, ?_⟩, ?_⟩⟩
  · exact collectors ▸ prepared.collected
  · exact checkpoints ▸ prepared.alternatives
  · exact checkpoints ▸ prepared.ordered
  have passes (guarded : base.guarded) (takes : functor.takesLevel = true) :
      caller.functor.passesLevel = true :=
    (allows rfl guarded call outlook.calls rfl).2 takes caller others calls
  have isScoped : base.Scoped call := by
    refine ⟨fun guarded => ?_, fun _ none => ?_, fun guarded takes => ?_,
      fun guarded => (allows rfl guarded call outlook.calls rfl).1⟩
    · show (if functor.takesLevel then _ else _) <:+ later.checkpoints
      split
      · exact spans.scope guarded
      · exact List.suffix_refl _
    · exact if_neg (Bool.eq_false_iff.mp none)
    · obtain ⟨word, last, denotes⟩ :=
        given guarded takes (passes guarded takes)
      refine ⟨word, last, ?_⟩
      show base.Denotes machine.store word
        (if functor.takesLevel then _ else later.checkpoints).length
      rw [if_pos takes]
      exact denotes.persists runs.persists
  have makes : base.Makes later caller functor words activity.memory call :=
    ⟨rfl, rfl, runs.memory, runs.persists, rfl, rfl, passes⟩
  have hands : base.Hands caller call :=
    ⟨fun _ takes => if_pos takes, passes⟩
  have pendingCall : base.Pending (call :: caller :: others) := by
    refine .call sound entered (.intro sets clear rfl runs.environment.symm
      runs.instruction fun last => rest call last makes)
      (spans.persists.trans runs.persists) pending isScoped hands ?_
    show machine.program.Keeps base.horizon
    rw [runs.program]
    exact ⟨within.functors, within.numbers, within.entries, within.natives,
      within.size, within.capacity⟩
  let setting : Setting := { later with origin := call.machine.store }
  have starts : base.Starts setting call machine.store.memory :=
    ⟨⟨.refl _, isScoped.within⟩, fun _ => List.suffix_refl _,
      fun _ _ => ⟨rfl, rfl⟩⟩
  have waits : Runs setting predicate.entry (call.waiting machine.store.memory)
      call.machine := {
    program := runs.program
    collectors := runs.collectors
    follows := runs.follows
    tidy := runs.tidy
    persists := .refl _
    instruction := rfl
    environment := rfl
    continuation := rfl
    cutBase := rfl
    memory := rfl
    stacked := by
      rw [Call.stack_waiting]
      exact sound.stacked }
  have advanced : base.program.Advances setting.program := advances
  rw [calls]
  exact .busy rfl pendingCall starts.toSpans
    (heads_entry sound isScoped advanced known starts _ waits)

/-! ## Choice points -/

/-- A choice point has been opened for the innermost call. -/
theorem Prepared.opens (prepared : base.Prepared outlook) {call : Call}
    {others : List Call} (calls : outlook.calls = call :: others)
    (pending : base.Pending (call :: others))
    {position next : Nat} {memory : Store} {clauses : List Clause}
    (runs : Runs outlook.setting position (call.waiting memory) machine)
    (alternative : base.TakesUp call.functor clauses next)
    (tries : base.Tries call.functor position)
    (starts : base.Starts outlook.setting call memory)
    (several : base.guarded → call.functor.isSimple = false) :
    base.Leads outlook .opens (machine.opened next.toUInt32) := by
  let checkpoint := machine.checkpoint next.toUInt32
  let later : Setting :=
    { outlook.setting with
      checkpoints := checkpoint :: outlook.setting.checkpoints }
  have waits : Runs later position (call.waiting memory)
      (machine.opened next.toUInt32) := {
    program := runs.toStays.program_journal _
    collectors := runs.collectors
    follows := runs.follows.opened next.toUInt32
    tidy := runs.tidy.opened next.toUInt32
    persists := runs.persists.of_memory rfl
    instruction := runs.instruction
    environment := runs.environment
    continuation := runs.continuation
    cutBase := runs.cutBase
    memory := runs.memory
    stacked := ⟨runs.stacked.pointer, runs.stacked.fits, runs.stacked.holds⟩ }
  have isChoice : base.Alternative (call :: others) checkpoint := by
    refine .intro pending alternative rfl runs.environment runs.continuation
      runs.cutBase ?_ runs.tidy (starts.persists.trans runs.persists) several
    have stacked := runs.stacked
    rwa [Call.stack_waiting] at stacked
  have startsLater : base.Starts later call memory := {
    persists := starts.persists
    scope := fun guarded =>
      (starts.scope guarded).trans (List.suffix_cons _ _)
    checkpoints := fun guarded =>
      (starts.checkpoints guarded).trans (List.suffix_cons _ _)
    same := fun guarded isSimple => by
      rw [several guarded] at isSimple
      cases isSimple }
  have grown : base.program.Grows later.program := prepared.advances.grows
  refine ⟨⟨later, outlook.calls, outlook.calls :: outlook.choices⟩, .opens rfl,
    fun _ => ⟨⟨prepared.advances, prepared.within, prepared.collected, ?_, ?_⟩,
      ?_⟩⟩
  · rw [calls]
    exact .cons isChoice prepared.alternatives
  · rw [calls]
    exact .cons starts.checkpoints prepared.ordered
  · exact .busy calls pending startsLater.toSpans (tries.heads pending.sound
      pending.isScoped grown startsLater _ waits)

end Base

/-- The setting after a commitment to a level. -/
def Setting.committed (setting : Setting) (level : Nat) : Setting :=
  { setting with
    checkpoints := setting.checkpoints.drop
      (setting.checkpoints.length - level) }

omit [Atoms] in
/-- Committing to the level at which some choice points were the newest. -/
theorem Setting.committed_eq {setting : Setting} {checkpoints : List Checkpoint}
    (older : checkpoints <:+ setting.checkpoints) :
    (setting.committed checkpoints.length).checkpoints = checkpoints :=
  (List.suffix_iff_eq_drop.mp older).symm

namespace Base

variable {base : Base} {outlook : Outlook} {machine after : Machine}

/-- Choice points have been closed for good. -/
theorem Prepared.commits (prepared : base.Prepared outlook) {call : Call}
    {others : List Call} (calls : outlook.calls = call :: others)
    (pending : base.Pending (call :: others))
    {position : Nat} {activity : Activity} {desk : Desk} {goals : List Goal}
    (runs : Runs outlook.setting position activity machine)
    (sets : call.Sets desk) (clear : desk.Clear Desk.anything activity)
    {level : Nat}
    (spans : base.Spans (outlook.setting.committed level) call)
    (rest : base.Body (outlook.setting.committed level) call desk goals
      position)
    (targeted : base.guarded →
      (outlook.setting.committed level).checkpoints = call.target)
    {journal : Journal}
    (isCut : after = { machine with
      store.trail := machine.store.trail.cut level
      program.journal := journal }) :
    base.Leads outlook .commits after := by
  have levels : machine.store.trail.level =
      outlook.setting.checkpoints.length := runs.follows.level_eq
  have count : outlook.setting.checkpoints.length - level =
      outlook.setting.checkpoints.length - after.level := by
    rw [isCut]
    show _ = _ - (machine.store.trail.cut level).level
    rw [Trail.cut_level]
    omega
  have ready : Runs (outlook.setting.committed level) position activity
      after := {
    program := isCut ▸ runs.toStays.program_journal _
    collectors := isCut ▸ runs.collectors
    follows := by
      have follows := runs.follows.cut level (.inr rfl)
      rw [levels] at follows
      exact isCut ▸ follows
    tidy := isCut ▸ runs.tidy.cut level
    persists := isCut ▸ runs.persists.of_memory rfl
    instruction := isCut ▸ runs.instruction
    environment := isCut ▸ runs.environment
    continuation := isCut ▸ runs.continuation
    cutBase := isCut ▸ runs.cutBase
    memory := isCut ▸ runs.memory
    stacked := isCut ▸ ⟨runs.stacked.pointer, runs.stacked.fits, runs.stacked.holds⟩ }
  have choices := prepared.alternatives.length_eq
  have grown : base.program.Grows (outlook.setting.committed level).program :=
    prepared.advances.grows
  refine ⟨⟨outlook.setting.committed level, outlook.calls, _⟩, .commits
    (congrArg (outlook.setting.checkpoints.drop ·) count) ?_, fun _ =>
      ⟨⟨prepared.advances, prepared.within, prepared.collected, ?_, ?_⟩, ?_⟩⟩
  · intro guarded other rest same
    rw [calls] at same
    cases same
    exact targeted guarded
  · rw [choices, ← count]
    exact List.forall₂_drop _ prepared.alternatives
  · rw [choices, ← count]
    exact prepared.ordered.drop _
  · exact .busy calls pending spans
      (rest.heads pending.sound pending.isScoped sets grown clear _ ready)

/-! ## Returning -/

/-- The innermost call returns. -/
theorem Prepared.returns (prepared : base.Prepared outlook) {call : Call}
    {others : List Call} (calls : outlook.calls = call :: others)
    (pending : base.Pending (call :: others))
    {position : Nat} {activity : Activity}
    (runs : Runs outlook.setting position activity machine)
    (environment : activity.environment = call.machine.registers.environment)
    (continuation : activity.continuation =
      call.machine.registers.continuation)
    (stack : activity.stack = call.lower)
    (footing : base.Footing outlook.setting call [])
    (isBack : after = { machine with registers.instruction := machine.registers.continuation }) :
    base.Leads outlook .returns after := by
  have stacked := runs.stacked
  rw [stack] at stacked
  have returned : call.Returned after := {
    instruction := by
      rw [isBack]
      exact runs.continuation.trans continuation
    environment := by
      rw [isBack]
      exact runs.environment.trans environment
    stacked := isBack ▸ stacked }
  have fits : outlook.setting.Fits after :=
    isBack ▸ ⟨⟨runs.program, runs.collectors, runs.follows, runs.tidy⟩,
      runs.persists⟩
  cases pending with
  | query sound lower isLast =>
      refine ⟨⟨outlook.setting, [], outlook.choices⟩,
        .returns calls returned rfl footing.scope, fun _ =>
        ⟨⟨prepared.advances, prepared.within, prepared.collected,
          prepared.alternatives, prepared.ordered⟩,
          .finished rfl fits.toStays ?_⟩⟩
      exact returned.instruction.trans isLast
  | @call _ caller others sound enters resumes persists callers =>
      obtain ⟨sets, clear, stackLower, record, behind, rest⟩ := resumes
      rename_i desk resumed position goals
      let ready : Activity :=
        { resumed with
          memory := after.store.memory
          continuation := after.registers.continuation
          cutBase := after.registers.cutBase }
      have goesOn : Runs outlook.setting position ready after := {
        program := fits.program
        collectors := fits.collectors
        follows := fits.follows
        tidy := fits.tidy
        persists := fits.persists
        instruction := returned.instruction.trans behind
        environment := returned.environment.trans record.symm
        continuation := rfl
        cutBase := rfl
        memory := rfl
        stacked := by
          have same : ready.stack = call.lower := stackLower
          rw [same]
          exact returned.stacked }
      have grown : base.program.Grows outlook.setting.program :=
        prepared.advances.grows
      have neat : desk.Clear Desk.anything ready :=
        ⟨clear.toNeat.congr rfl rfl rfl, clear.operands, trivial⟩
      have body := rest outlook.setting footing
      exact ⟨⟨outlook.setting, caller :: others, outlook.choices⟩,
        .returns calls returned rfl footing.scope, fun _ =>
        ⟨⟨prepared.advances, prepared.within, prepared.collected,
          prepared.alternatives, prepared.ordered⟩,
          .busy rfl callers body.spans (body.heads callers.sound
            callers.isScoped sets grown neat _ goesOn)⟩⟩

/-! ## Native predicates -/

/-- A functor that has been numbered has the same number at the end. -/
theorem Prepared.numbers (prepared : base.Prepared outlook)
    (advances : outlook.setting.program.Advances machine.program)
    (within : after.program.Keeps base.horizon) {functor : Functor}
    (same : after.program.functors =
      (machine.program.functors.intern functor).2) :
    base.horizon.functors.get?
      (machine.program.functors.intern functor).1 = some functor := by
  obtain ⟨linkage, linked, -⟩ :=
    (prepared.advances.trans advances).linked base.linkage base.linked
  have small : (machine.program.functors.intern functor).2.Small :=
    same ▸ within.small base.limit
  have known := ((linked.consistent
    (Nat.le_trans (machine.program.functors.size_le_intern _)
      small)).intern _ small).2
  rw [← same] at known
  exact within.functors _ _ known

/-- The constants that are numbered are atoms. -/
theorem Prepared.spells (prepared : base.Prepared outlook)
    (advances : outlook.setting.program.Advances machine.program)
    {result : EStateM.Result Fault Machine α}
    (within : Ends result (fun _ after => after.program.Keeps base.horizon)
      (fun _ after => after.program.Keeps base.horizon)) :
    MachineM.Spells machine.program result := by
  have isAtom (name : String) (after : Machine)
      (keeps : after.program.Keeps base.horizon)
      (same : after.program.functors =
        (machine.program.functors.intern (.constant name)).2) :
      Atoms.includes (machine.program.functors.intern (.constant name)).1 :=
    (base.atoms _ _ (prepared.numbers advances keeps same)).mpr rfl
  intro name
  cases result with
  | ok value after => exact isAtom name after within
  | error fault after => exact isAtom name after within

/-- A native predicate has worked on terms. -/
theorem Prepared.worked (prepared : base.Prepared outlook)
    {position : Nat} {activity : Activity}
    (runs : Runs outlook.setting position activity machine)
    (advances : machine.program.Advances after.program)
    (within : after.program.Keeps base.horizon)
    (follows : after.store.Follows outlook.setting.checkpoints [])
    (onward : machine.Onward after) :
    ∃ later : Setting, later.checkpoints = outlook.setting.checkpoints ∧
      later.origin = after.store ∧
      base.Prepared { outlook with setting := later } ∧
      Runs later position { activity with memory := after.store.memory }
        after := by
  have advanced := prepared.advances.trans (runs.advances.trans advances)
  refine ⟨⟨after.program, advanced.grows.capacity ▸ base.small,
    after.collectors, outlook.setting.checkpoints, after.store⟩, rfl, rfl,
    ⟨advanced, within, onward.collected, prepared.alternatives,
      prepared.ordered⟩, ?_⟩
  exact {
    program := rfl
    collectors := rfl
    follows := follows
    tidy := onward.store.tidy
    persists := .refl _
    instruction := onward.registers ▸ runs.instruction
    environment := onward.registers ▸ runs.environment
    continuation := onward.registers ▸ runs.continuation
    cutBase := onward.registers ▸ runs.cutBase
    memory := rfl
    stacked := ⟨onward.store.pointer ▸ runs.stacked.pointer,
      onward.store.stack ▸ runs.stacked.fits,
      onward.store.stack ▸ runs.stacked.holds⟩ }

section Consulting

variable (prepared : base.Prepared outlook) {call : Call} {others : List Call}
  (calls : outlook.calls = call :: others)
  (pending : base.Pending (call :: others))
  {position : Nat} {activity : Activity} {desk : Desk}
  (runs : Runs outlook.setting position activity machine)
  (sets : call.Sets desk) (clear : desk.Clear Desk.anything activity)
  (starts : base.Starts outlook.setting call activity.memory)
  (rest : ∀ later, base.Footing later call [] →
    base.Body later call desk [] position)

include prepared calls pending runs sets clear starts rest

/-- The call of a native predicate goes on after it has worked on terms. -/
theorem Prepared.works
    (advances : machine.program.Advances after.program)
    (within : after.program.Keeps base.horizon)
    (follows : after.store.Follows outlook.setting.checkpoints [])
    (onward : machine.Onward after)
    (answers : base.guarded → call.functor.findsLevel = true →
      ∀ word ∈ call.arguments, call.machine.store.Fresh word →
        base.Denotes after.store word call.checkpoints.length) :
    base.Leads outlook .onward after := by
  obtain ⟨later, same, origin, preparedLater, goesOn⟩ :=
    prepared.worked runs advances within follows onward
  have persists : call.machine.store.Persists later.origin := by
    rw [origin]
    exact starts.persists.trans (runs.persists.trans onward.store.persists)
  have footing : base.Footing later call [] := {
    persists := persists
    scope := same.symm ▸ starts.scope
    cuts := nofun
    answers := origin.symm ▸ answers }
  have neat : desk.Clear Desk.anything
      { activity with memory := after.store.memory } :=
    ⟨clear.toNeat.congr rfl rfl rfl, clear.operands, trivial⟩
  exact ⟨_, .onward same, fun _ => ⟨preparedLater, .busy calls pending
    footing.toSpans ((rest later footing).heads pending.sound pending.isScoped
      sets preparedLater.advances.grows neat _ goesOn)⟩⟩

/-- The goal in the first argument is called. -/
theorem Prepared.summons
    (known : .native call.functor .callGoal ∈ Library.natives) :
    base.Proceeds outlook
      ((MachineM.callGoal >>= MachineM.settle .enters) machine) := by
  have named := Library.functor_of_callGoal known
  have inside : 0 < desk.arity := by
    rw [sets.arity, named]
    exact Nat.zero_lt_one
  rw [Proceeds, ends_bind]
  refine (runs.callGoal_ends sets.sound clear inside prepared.bare
    prepared.narrow).imp ?_ fun _ _ stays _ =>
      ⟨outlook.setting, rfl, prepared, stays⟩
  intro success last
  cases success with
  | true =>
      rintro ⟨advances, functors, ⟨id, numbered⟩, length, plain, entry, called,
        rfl⟩
      rw [clear.operands, List.append_nil] at called
      refine proceeds_ok _ _ (by simp) fun within => ?_
      have bare : desk.Clear Desk.anything { activity with operands := [] } :=
        ⟨clear.toNeat.congr rfl rfl rfl, rfl, trivial⟩
      have footing : base.Footing outlook.setting call [] :=
        starts.footing (fun _ => by rw [named]; rfl) nofun
      refine prepared.enters calls pending (prepared.advances.trans advances)
        (called.advances.grows.toKeeps.trans within) rfl rfl
        ⟨starts.persists, starts.scope⟩ [] called sets bare length plain entry
        ?_ ?_ ?_
      · intro reserved takes
        have none := base.unspoken reserved id _
          (prepared.within.functors _ _ numbered)
        rw [none] at takes
        cases takes
      · intro _ _ passes
        rw [named] at passes
        exact absurd passes (by decide)
      · intro callee after makes returned
        refine rest after (makes.footing ⟨⟨footing.persists, footing.scope⟩,
          footing.cuts, footing.answers⟩ returned fun _ _ _ => rfl)
  | false =>
      rintro rfl
      exact prepared.fails runs.toStays _

/-- A native predicate commits. -/
theorem Prepared.cuts
    (known : .native call.functor .cut ∈ Library.natives) (fuel : Nat) :
    base.Proceeds outlook
      ((MachineM.runBuiltin fuel .cut >>= MachineM.settle .commits)
        machine) := by
  have named := Library.functor_of_cut known
  rw [Proceeds, ends_bind]
  refine (MachineM.cutGoal_ends fuel machine).imp ?_ ?_
  · intro success last
    cases success with
    | true =>
        rintro ⟨address, level, found, spelled, nonnegative, isCut⟩
        refine proceeds_ok _ _ (by simp) fun within => ?_
        have exactly (guarded : base.guarded) :
            (outlook.setting.committed level.toNat).checkpoints =
              call.scope := by
          have takes : call.functor.takesLevel = true := by
            rw [named]
            decide
          obtain ⟨word, last, denotes⟩ := pending.isScoped.given guarded takes
          have small : call.scope.length < 2 ^ 31 := by
            have within := (pending.isScoped.within guarded).length_le
            have level : call.machine.level = call.checkpoints.length :=
              pending.sound.follows.level_eq
            have few := pending.isScoped.small guarded
            omega
          have one : call.arguments.length = 1 := by
            rw [pending.sound.arity, named]
          rw [List.getLast?_eq_getElem?, one] at last
          obtain ⟨slot, rfl, loaded⟩ := runs.load_argument pending.sound sets
            clear.toNeat last found
          have persists := starts.persists.trans runs.persists
          have isLevel := (denotes.persists persists).integerAt_eq small
            (fun id functor known => prepared.within.functors id functor
              (runs.functors ▸ known)) loaded spelled
          rw [isLevel, Int.toNat_natCast]
          exact Setting.committed_eq (starts.scope guarded)
        have spans : base.Spans (outlook.setting.committed level.toNat) call :=
          ⟨starts.persists, fun guarded =>
            (exactly guarded).symm ▸ List.suffix_refl _⟩
        refine prepared.commits calls pending runs sets clear spans
          (rest _ ⟨spans, nofun, fun _ finds => ?_⟩) (fun guarded => ?_) isCut
        · rw [named] at finds
          exact absurd finds (by decide)
        · rw [exactly guarded, Call.target, named]
          rfl
    | false =>
        rintro rfl
        exact prepared.fails runs.toStays _
  · rintro _ _ rfl _
    exact ⟨outlook.setting, rfl, prepared, runs.toStays⟩

omit calls rest in
/-- A native predicate has found the level at which it was called. -/
theorem Prepared.answers
    (known : .native call.functor .level ∈ Library.natives)
    (guarded : base.guarded) (fuel : Nat) :
    Ends (MachineM.runBuiltin fuel .level machine)
      (fun success after => success = true →
        after.program.Keeps base.horizon →
          machine.store.Persists after.store →
            ∀ word ∈ call.arguments, call.machine.store.Fresh word →
              base.Denotes after.store word call.checkpoints.length)
      (fun _ _ => True) := by
  have named := Library.functor_of_level known
  have isSimple : call.functor.isSimple = true := by
    rw [named]
    decide
  obtain ⟨newest, same⟩ := starts.same guarded isSimple
  have level : machine.level = call.checkpoints.length := by
    rw [← newest]
    exact runs.follows.level_eq
  simp only [MachineM.runBuiltin, MachineM.argument, ends_bind,
    MachineM.ends_read]
  split
  case h_2 => trivial
  case h_1 address found =>
  rw [ends_get, level]
  by_cases isFresh : ∃ word ∈ call.arguments, call.machine.store.Fresh word
  case neg =>
    cases MachineM.unifyInteger fuel address
      (some (call.checkpoints.length : Int)) machine with
    | error fault after => trivial
    | ok success after =>
        exact fun _ _ _ word member fresh =>
          absurd ⟨word, member, fresh⟩ isFresh
  case pos =>
  obtain ⟨word, member, fresh⟩ := isFresh
  have one : call.arguments = [word] := by
    have length : call.arguments.length = 1 := by
      rw [pending.sound.arity, named]
    obtain ⟨only, single⟩ := List.length_eq_one_iff.mp length
    rw [single] at member
    rw [single, List.mem_singleton.mp member]
  have first : call.arguments[0]? = some word := by
    rw [one]
    rfl
  obtain ⟨slot, rfl, loaded⟩ :=
    runs.load_argument pending.sound sets clear.toNeat first found
  obtain ⟨index, below, refers, unbound⟩ : machine.store.Fresh word :=
    @Store.Fresh.of_memory _ call.machine.store.memory _ fresh
      (runs.memory.trans same)
  refine (MachineM.ends_unifyInteger_fresh runs.tidy.heapTop_nonneg loaded below
    refers unbound _ fuel).imp ?_ fun _ _ => id
  intro success after bound holds within persists other isArgument _
  obtain ⟨functors, content, there, isAtom⟩ := bound holds
  rw [one] at isArgument
  cases List.mem_singleton.mp isArgument
  exact ⟨index, content, _, Int32.lt_of_lt_of_le below persists.heapTop, refers,
    there, isAtom, prepared.numbers runs.advances within functors⟩

/-- A native predicate is run. -/
theorem Prepared.consults (fuel : Nat) {builtin : Builtin}
    (known : .native call.functor builtin ∈ Library.natives) :
    base.Proceeds outlook
      ((MachineM.runBuiltin fuel builtin >>= MachineM.settle builtin.turn)
        machine) := by
  have arity : desk.arity = builtin.arity :=
    sets.arity.trans (Library.arity_of_native known)
  by_cases isCall : builtin = .callGoal
  · subst isCall
    exact prepared.summons calls pending runs sets clear starts rest known
  by_cases isCut : builtin = .cut
  · subst isCut
    exact prepared.cuts calls pending runs sets clear starts rest known fuel
  have collects : machine.Collects := by
    unfold Machine.Collects
    rw [runs.collectors]
    exact prepared.collected
  have works := MachineM.runBuiltin_works (.refl runs.tidy collects) fuel
    (arity ▸ runs.hasTerms sets.sound clear.toNeat) isCall isCut
  have keeps := MachineM.runBuiltin_keeps fuel isCut machine runs.follows
  have advances := MachineM.runBuiltin_advances fuel builtin machine (.refl _)
  have spells (within : Ends (MachineM.runBuiltin fuel builtin machine)
      (fun _ after => after.program.Keeps base.horizon)
      (fun _ after => after.program.Keeps base.horizon)) :=
    prepared.spells runs.advances within
  have answers (isLevel : builtin = .level) (guarded : base.guarded) :=
    prepared.answers pending runs sets clear starts (isLevel ▸ known) guarded
      fuel
  rw [Proceeds, ends_bind]
  cases result : MachineM.runBuiltin fuel builtin machine with
  | error fault last =>
      rw [result] at works keeps advances spells
      intro within
      obtain ⟨later, same, -, preparedLater, runsLater⟩ := prepared.worked runs
        advances within keeps (works (spells within))
      exact ⟨later, same, preparedLater, runsLater.toStays⟩
  | ok success last =>
      rw [result] at works keeps advances spells
      cases success with
      | true =>
          have turn : builtin.turn = .onward := by
            cases builtin <;> first | rfl | contradiction
          rw [turn]
          refine proceeds_ok _ _ (by simp) fun within => ?_
          have onward := works (spells within)
          refine prepared.works calls pending runs sets clear starts rest
            advances within keeps onward fun guarded finds => ?_
          have isLevel := Library.level_of_findsLevel known finds
          have answered := answers isLevel guarded
          rw [← isLevel, result] at answered
          exact answered rfl within onward.store.persists
      | false =>
          refine MachineM.ends_of_advances
            (MachineM.settle_advances builtin.turn false last (.refl _))
            fun within => ?_
          obtain ⟨later, same, -, preparedLater, runsLater⟩ := prepared.worked
            runs advances within keeps (works (spells within))
          exact Halts.fails ⟨later, same, preparedLater, runsLater.toStays⟩ _

end Consulting

/-! ## Steps -/

/-- The innermost call is at a turning point. -/
theorem Prepared.turns (prepared : base.Prepared outlook) {call : Call}
    {others : List Call} (calls : outlook.calls = call :: others)
    (pending : base.Pending (call :: others))
    (turns : base.Turns outlook.setting call machine) (fuel : Nat) :
    base.Proceeds outlook (MachineM.stepTurn fuel machine) := by
  cases turns with
  | @opens position next memory opcode operand clauses runs there argument
      isOpening performs alternative tries starts several =>
      have kinds : opcode.isOrdinary = true ∧ opcode.hasOperand = true ∧
          opcode.turn = .opens ∧ opcode.size = 2 := by
        rcases isOpening with rfl | rfl <;> exact ⟨rfl, rfl, rfl, rfl⟩
      obtain ⟨ordinary, operands, turn, size⟩ := kinds
      obtain ⟨ready, next, runs⟩ := runs.next there
        (by rw [operands, if_pos rfl]; exact argument)
      rw [size] at runs
      rw [next.stepTurn, MachineM.executeTurn_ordinary ordinary, performs, turn,
        Proceeds, ends_bind, MachineM.choicePoint_eq]
      exact proceeds_ok _ _ (by simp) fun _ =>
        prepared.opens calls pending runs alternative tries starts several
  | @calls position entry activity desk goal goals values runs there argument
      sets neat operands plain length known spans modest level rest =>
      obtain ⟨ready, next, runs⟩ := runs.next there argument
      rw [next.stepTurn]
      obtain ⟨predicate, found, rfl⟩ := Option.map_eq_some_iff.mp known
      obtain ⟨later, known, same⟩ :=
        prepared.advances.grows.entries _ _ found
      refine proceeds_ok .enters _ (by simp) fun _ => ?_
      show base.Leads outlook .enters
        (ready.entering predicate.entry.toUInt32)
      rw [← same]
      exact prepared.enters calls pending prepared.advances prepared.within rfl
        rfl spans goals runs sets ⟨neat.congr rfl rfl rfl, rfl, trivial⟩
        (by rw [operands, List.length_map, length]; rfl) plain known modest
        level rest
  | @cuts position activity desk goals runs there sets neat operands spans still
      rest =>
      obtain ⟨ready, next, runs⟩ := runs.next there rfl
      rw [next.stepTurn, MachineM.executeTurn_ordinary rfl, Proceeds, ends_bind]
      simp only [MachineM.perform, ends_bind]
      refine (runs.popAddress_ends operands).imp ?_ fun _ _ stays _ =>
        ⟨outlook.setting, rfl, prepared, stays⟩
      rintro _ middle ⟨rfl, popped⟩
      have exactly (guarded : base.guarded) :
          (outlook.setting.committed
            call.barrier.address.offset.toNatClampNeg).checkpoints =
              call.checkpoints := by
        rw [pending.sound.level_barrier (pending.isScoped.small guarded)]
        exact Setting.committed_eq (still guarded).2
      refine proceeds_ok _ _ (by simp) fun _ =>
        prepared.commits calls pending popped sets
          ⟨neat.congr rfl rfl rfl, rfl, trivial⟩
          ⟨spans.persists, fun guarded => ?_⟩ (rest _ (.refl _) exactly)
          (fun guarded => ?_) rfl
      · rw [exactly guarded]
        exact pending.isScoped.within guarded
      · rw [exactly guarded, Call.target, (still guarded).1]
        rfl
  | @consults position index activity desk native runs there argument found
      known sets clear foreign starts rest =>
      obtain ⟨ready, next, runs⟩ := runs.next there argument
      have small : index < 2 ^ 32 :=
        Nat.lt_of_lt_of_le (Array.getElem?_eq_some_iff.mp found).1 base.natives
      have still : ready.program.natives[index.toUInt32.toNat]? =
          some native := by
        rw [Program.toNat_toUInt32 small, runs.program]
        exact prepared.advances.grows.natives index native found
      rw [next.stepTurn]
      simp only [MachineM.executeTurn, Proceeds, ends_bind, ends_get, still]
      cases native with
      | foreign key =>
          have footing : base.Footing outlook.setting call [] := by
            refine starts.footing (fun guarded => ?_) (by simp)
            have outside := foreign key rfl guarded
            simp only [Functor.knowsLevel, Bool.or_eq_false_iff] at outside
            exact outside.2
          exact proceeds_ok _ _ (by simp) fun _ => ⟨_, .onward rfl, fun _ =>
            ⟨prepared, .busy calls pending starts.toSpans
              ((rest _ footing).heads pending.sound pending.isScoped sets
                prepared.advances.grows clear _ runs)⟩⟩
      | builtin builtin =>
          have done := prepared.consults calls pending runs sets clear starts rest
            fuel (known builtin rfl)
          simpa only [Proceeds, ends_bind] using done
  | @leaves position activity runs there environment continuation stack
      footing =>
      obtain ⟨ready, next, runs⟩ := runs.next there rfl
      rw [next.stepTurn]
      refine proceeds_ok .returns _ ?_ fun _ =>
        prepared.returns calls pending runs environment continuation stack
          footing rfl
      split <;> simp

theorem Known.step (known : base.Known outlook machine) (fuel : Nat) :
    base.Proceeds outlook (MachineM.stepTurn fuel machine) := by
  obtain ⟨prepared, stands⟩ := known
  cases stands with
  | finished calls fits instruction =>
      rw [Proceeds, MachineM.stepTurn_finished instruction]
      exact fun _ => ⟨outlook.setting, rfl, prepared, fits⟩
  | @busy call others calls pending spans heads =>
      have stopped (last : Machine) (stays : outlook.setting.Stays last) :
          base.Halts outlook last :=
        ⟨outlook.setting, rfl, prepared, stays⟩
      have onwards {last : Machine}
          (heads : Heads outlook.setting.Stays
            (base.Turns outlook.setting call) outlook.setting.Stays last) :
          base.Leads outlook .onward last :=
        ⟨_, .onward rfl, fun _ => ⟨prepared, .busy calls pending spans heads⟩⟩
      cases heads with
      | here _ turns => exact prepared.turns calls pending turns fuel
      | @quiet _ ready position opcode operand _ next isQuiet onward stops =>
          have turn : opcode.turn = .onward := by
            cases opcode <;> first | rfl | cases isQuiet
          rw [next.stepTurn, MachineM.executeTurn_ordinary
            (Opcode.isOrdinary_of_isQuiet isQuiet), turn, Proceeds, ends_bind]
          cases result : MachineM.perform position opcode operand ready with
          | error fault last => exact fun _ => stopped last (stops fault last result)
          | ok _ after =>
              exact proceeds_ok _ _ (by simp) fun _ =>
                onwards (onward after result)
      | fail _ next gives =>
          rw [next.stepTurn]
          exact prepared.fails gives .onward
      | @unify _ ready position operand _ next onward gives stops =>
          rw [next.stepTurn]
          show base.Proceeds outlook
            ((MachineM.unifyTop fuel >>= MachineM.settle .onward) ready)
          rw [Proceeds, ends_bind]
          cases result : MachineM.unifyTop fuel ready with
          | error fault last =>
              exact fun _ => stopped last (stops fuel fault last result)
          | ok success after =>
              cases success with
              | true =>
                  exact proceeds_ok _ _ (by simp) fun _ =>
                    onwards (onward fuel after result)
              | false => exact prepared.fails (gives fuel after result) .onward

end Base

end LogicMachine
