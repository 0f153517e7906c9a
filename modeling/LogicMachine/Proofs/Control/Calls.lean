import LogicMachine.Proofs.Control.Bodies
import LogicMachine.Proofs.Control.Natives
import LogicMachine.Proofs.Session.Dispatch

/-!
# Calls in progress

A call finds its arguments on the stack and the registers of its caller in the
machine.  The code that takes it up leads through the dispatch code of its
predicate to a clause, through the text of the clause to a goal, and at last back
to the caller.  At each of these turning points it is known what the code will do
next.
-/

namespace LogicMachine

/-- Where the code of a clause comes from, if it belongs to the library. -/
inductive Program.Official (program : Program) (functor : Functor)
    (words : List UInt32) : Prop where
  | rule (rule : Rule) (trace : Bool) (listed : rule ∈ Library.rules)
      (head : functor = .ofGoal rule.head)
      (compiled : program.Compiled rule trace words)
  | native (index : Nat) (builtin : Builtin)
      (known : .native functor builtin ∈ Library.natives)
      (found : program.natives[index]? = some (.builtin builtin))
      (code : (Assembler.empty.add (.operand .native index.toUInt32)).clause
        functor.arity = .ok words)
  | assembled (known : .assembled functor (.ok words) ∈ Library.assembled)

/-- The predicates that have a part in handing on levels have the clauses of the
library and no others. -/
structure Linkage.Stocked (linkage : Linkage) (program : Program) : Prop where
  official : ∀ functor, functor.knowsLevel = true →
    ∀ clause ∈ linkage.clauses functor, program.Official functor clause.words
  simple : ∀ functor, functor.isSimple = true →
    (linkage.clauses functor).length ≤ 1

/-- Where the code of a clause comes from, with something known of its rule if it
has one. -/
inductive Program.Written (known : Rule → Prop) (program : Program)
    (functor : Functor) (words : List UInt32) : Prop where
  | rule (rule : Rule) (trace : Bool) (isKnown : known rule)
      (head : functor = .ofGoal rule.head)
      (compiled : program.Compiled rule trace words)
  | native (index : Nat) (native : Native)
      (builtin : ∀ builtin, native = .builtin builtin →
        .native functor builtin ∈ Library.natives)
      (found : program.natives[index]? = some native)
      (code : (Assembler.empty.add (.operand .native index.toUInt32)).clause
        functor.arity = .ok words)
  | assembled (known : .assembled functor (.ok words) ∈ Library.assembled)

/-- Something is known of all clauses. -/
def Linkage.All (known : Program → Functor → List UInt32 → Prop)
    (linkage : Linkage) (program : Program) : Prop :=
  ∀ functor, ∀ clause ∈ linkage.clauses functor,
    known program functor clause.words

/-- All clauses come from rules with a property, as far as they come from
rules. -/
abbrev Linkage.Written (known : Rule → Prop) : Linkage → Program → Prop :=
  Linkage.All (Program.Written known)

theorem Program.Written.keeps {known : Rule → Prop} {before after : Program}
    {functor : Functor} {words : List UInt32}
    (written : before.Written known functor words)
    (keeps : before.Keeps after) : after.Written known functor words := by
  cases written with
  | rule rule trace isKnown head compiled =>
      obtain ⟨first, last, consistent, compiles, kept⟩ := compiled
      exact .rule rule trace isKnown head
        ⟨first, last, consistent, compiles, kept.trans keeps⟩
  | native index native builtin found code =>
      exact .native index native builtin (keeps.natives _ _ found) code
  | assembled known => exact .assembled known

theorem Program.Official.keeps {before after : Program} {functor : Functor}
    {words : List UInt32} (official : before.Official functor words)
    (keeps : before.Keeps after) : after.Official functor words := by
  cases official with
  | rule rule trace listed head compiled =>
      obtain ⟨first, last, consistent, compiles, kept⟩ := compiled
      exact .rule rule trace listed head
        ⟨first, last, consistent, compiles, kept.trans keeps⟩
  | native index builtin known found code =>
      exact .native index builtin known (keeps.natives _ _ found) code
  | assembled known => exact .assembled known

theorem Linkage.Stocked.keeps {linkage later : Linkage}
    {before after : Program} (stocked : linkage.Stocked before)
    (keeps : before.Keeps after)
    (same : ∀ functor, functor.knowsLevel = true →
      later.clauses functor = linkage.clauses functor) :
    later.Stocked after where
  official := fun functor knows clause member =>
    (stocked.official functor knows clause
      (same functor knows ▸ member)).keeps keeps
  simple := fun functor isSimple => by
    rw [same functor (Functor.knowsLevel_of_isSimple isSimple)]
    exact stocked.simple functor isSimple

/-- Calls go to the entries of predicates, and no two predicates have the same
one. -/
def Program.KeepsApart (program : Program) : Prop :=
  ∀ first second one other, program.predicate? first = some one →
    program.predicate? second = some other →
      one.entry.toUInt32.toInt32 = other.entry.toUInt32.toInt32 →
        first = second

variable [Atoms]

/-- The program that a run starts with, and the one that it ends with, which
says what the atoms are. -/
structure Base where
  program : Program
  linkage : Linkage
  linked : program.Linked linkage
  small : program.code.size < 2 ^ 31
  natives : program.natives.size ≤ 2 ^ 32
  atomic : program.naming.Atomic
  horizon : Program
  limit : horizon.functors.Small
  narrow : ∀ id functor, horizon.functors.get? id = some functor →
    functor.arity < 2 ^ 31
  atoms : ∀ id functor, horizon.functors.get? id = some functor →
    (Atoms.includes id ↔ functor.arity = 0)
  /-- Levels are found and handed on by the library only. -/
  guarded : Prop
  stocked : guarded → linkage.Stocked program
  apart : guarded → horizon.KeepsApart
  /-- Nothing but the library speaks of the predicates that take levels. -/
  reserved : Prop
  modest : reserved → linkage.Written Rule.Modest program
  unspoken : reserved → horizon.Unspoken

/-- A call by the machine right after it was made. -/
structure Call where
  machine : Machine
  functor : Functor
  /-- The open choice points, newest first. -/
  checkpoints : List Checkpoint
  /-- The stack below the arguments, bottom first. -/
  lower : List Word
  /-- The first argument, which is on top of the stack, first. -/
  arguments : List Word
  /-- The choice points that are left when a cut goes back to the level of the
  call, or to the one that the call was given. -/
  scope : List Checkpoint

namespace Call

/-- The stack of the call, bottom first. -/
def stack (call : Call) : List Word :=
  call.lower ++ call.arguments.reverse

structure Sound (call : Call) : Prop where
  stacked : call.machine.store.Stacked call.stack
  plain : ∀ word ∈ call.arguments, word.Plain
  arity : call.arguments.length = call.functor.arity
  tidy : call.machine.store.Tidy
  follows : call.machine.store.Follows call.checkpoints []
  cutBase : call.machine.registers.cutBase =
    .blank (Int32.ofNat call.machine.level)

/-- The call before any clause has been entered. -/
def waiting (call : Call) (memory : Store) : Activity where
  memory := memory
  environment := call.machine.registers.environment
  continuation := call.machine.registers.continuation
  cutBase := call.machine.registers.cutBase
  below := call.stack
  locals := []
  operands := []

omit [Atoms] in
@[simp]
theorem stack_waiting (call : Call) (memory : Store) :
    (call.waiting memory).stack = call.stack := by
  simp [waiting, Activity.stack, Activity.frame]

/-- What a clause of the call finds below its slots. -/
def below (call : Call) : List Word :=
  call.stack ++
    [call.machine.registers.environment.pack,
      call.machine.registers.continuation.pack]

/-- The level that the cuts of a clause go back to. -/
def barrier (call : Call) : Word :=
  call.machine.registers.cutBase.pack

theorem Sound.plain_barrier {call : Call} (sound : call.Sound) :
    call.barrier.Plain := by
  rw [barrier, sound.cutBase]
  exact Word.plain_blank _

/-- The choice points that are left when a clause of the call, or the native
predicate itself, has committed. -/
def target (call : Call) : List Checkpoint :=
  if call.functor.cutsLevel then call.scope else call.checkpoints

/-- The record of a clause of the call. -/
def desk (call : Call) (count : Nat) (working : List Nat)
    (fixed : List (Nat × Word)) : Desk where
  below := call.below
  arity := call.functor.arity
  count := count
  working := working
  fixed := fixed

/-- The desk is for a clause of the call. -/
structure Sets (call : Call) (desk : Desk) : Prop where
  sound : desk.Sound
  below : desk.below = call.below
  arity : desk.arity = call.functor.arity

omit [Atoms] in
theorem below_argument {call : Call} {index : Nat}
    (inside : index < call.arguments.length) :
    call.below[call.below.length - 3 - index]? =
      call.arguments[index]? := by
  have position : call.below.length - 3 - index =
      call.lower.length + (call.arguments.length - 1 - index) := by
    simp only [below, stack, List.length_append, List.length_reverse,
      List.length_cons, List.length_nil]
    omega
  have reversed :=
    List.getElem?_reverse (l := call.arguments)
      (i := call.arguments.length - 1 - index) (by omega)
  rw [position, below, stack, List.append_assoc,
    List.getElem?_append_right (Nat.le_add_right _ _),
    Nat.add_sub_cancel_left, List.getElem?_append_left (by
      rw [List.length_reverse]; omega), reversed]
  congr 1
  omega

theorem Sound.small {call : Call} (sound : call.Sound) :
    call.functor.arity < 2 ^ 31 := by
  have fits := sound.stacked.fits
  have addressable := sound.tidy.addressable.stack
  rw [stack, List.length_append, List.length_reverse, sound.arity] at fits
  omega

theorem Sound.sets {call : Call} (sound : call.Sound) {count : Nat}
    (few : count < 2 ^ 31) {working : List Nat} {fixed : List (Nat × Word)}
    (apart : ∀ slot word, (slot, word) ∈ fixed → slot ∉ working) :
    call.Sets (call.desk count working fixed) where
  sound := {
    arguments := by
      intro index inside
      have bound : index < call.arguments.length := by
        rw [sound.arity]
        exact inside
      refine ⟨_, (below_argument bound).trans
        (List.getElem?_eq_getElem bound), ?_⟩
      exact sound.plain _ (List.getElem_mem bound)
    room := by
      have arity := sound.arity
      simp only [desk, below, stack, List.length_append, List.length_reverse,
        List.length_cons, List.length_nil]
      omega
    arity := sound.small
    count := few
    apart := apart }
  below := rfl
  arity := rfl

end Call

namespace Base

variable {base : Base}

/-! ## Where cuts go back to -/

/-- The word refers to a level, by the functors that there are at the end. -/
abbrev Denotes (base : Base) (store : Store) (word : Word) (level : Nat) :
    Prop :=
  store.Denotes base.horizon.functors word level

/-- What a call knows about the level that cuts go back to. -/
structure Scoped (base : Base) (call : Call) : Prop where
  within : base.guarded → call.scope <:+ call.checkpoints
  own : base.guarded → call.functor.takesLevel = false →
    call.scope = call.checkpoints
  given : base.guarded → call.functor.takesLevel = true →
    ∃ word, call.arguments.getLast? = some word ∧
      base.Denotes call.machine.store word call.scope.length
  small : base.guarded → call.machine.level < 2 ^ 31

/-- What the call can go back to is still there. -/
structure Spans (base : Base) (setting : Setting) (call : Call) : Prop where
  persists : call.machine.store.Persists setting.origin
  scope : base.guarded → call.scope <:+ setting.checkpoints

/-- No clause of the call has been entered, or the one that had been was given
up. -/
structure Starts (base : Base) (setting : Setting) (call : Call)
    (memory : Store) : Prop extends base.Spans setting call where
  checkpoints : base.guarded → call.checkpoints <:+ setting.checkpoints
  same : base.guarded → call.functor.isSimple = true →
    setting.checkpoints = call.checkpoints ∧
      memory = call.machine.store.memory

/-- The call has goals left to solve, and may have found a level. -/
structure Footing (base : Base) (setting : Setting) (call : Call)
    (goals : List Goal) : Prop extends base.Spans setting call where
  cuts : base.guarded → goals.any Goal.isCut = true →
    call.functor.cutsLevel = false ∧ call.checkpoints <:+ setting.checkpoints
  answers : base.guarded → call.functor.findsLevel = true →
    ∀ word ∈ call.arguments, call.machine.store.Fresh word →
      base.Denotes setting.origin word call.checkpoints.length

/-- Where the goals that are left have the level from that they are given. -/
inductive Levels (base : Base) (setting : Setting) (call : Call)
    (draft : Draft) (desk : Desk) : List Goal → Prop where
  | outside {goals : List Goal} (foreign : call.functor.passesLevel = false) :
      Levels base setting call draft desk goals
  | plain {goals : List Goal}
      (none : ∀ goal ∈ goals, goal.takesLevel = false) :
      Levels base setting call draft desk goals
  | known {goals : List Goal} {slot : Local} {word : Word}
      (named : draft.slots.lookup "L" = some slot)
      (fixed : (slot.index, word) ∈ desk.fixed)
      (denotes : base.Denotes setting.origin word call.scope.length)
      (levelled : Goal.levelled goals = true) :
      Levels base setting call draft desk goals
  | begins {goals : List Goal} (unknown : draft.slots.lookup "L" = none)
      (same : setting.checkpoints = call.scope)
      (levelled : Goal.levelled goals = true) :
      Levels base setting call draft desk
        (Library.levelIs Library.level :: goals)

/-- The code from a position on solves goals and leaves its clause.  The slot
that cuts read holds a barrier. -/
inductive Body (base : Base) (setting : Setting) (call : Call) (desk : Desk)
    (goals : List Goal) (position : Nat) : Prop where
  | intro {place : Label → Nat} {draft ended : Draft} {text : List Item}
      {traced : Option FunctorId}
      (holds : base.program.Holds place position
        (text ++ (reportText .endTrace traced ++
          [.operand .deallocate desk.arity.toUInt32, .plain .proceed])))
      (inside : position + textSize
        (text ++ (reportText .endTrace traced ++
          [.operand .deallocate desk.arity.toUInt32, .plain .proceed])) ≤
        base.program.top)
      (laid : draft.Laid)
      (solves : Draft.Solves base.program.naming draft goals text ended)
      (serves : Draft.Serves draft ended desk)
      (modest : base.reserved → ∀ goal ∈ goals, goal.takesLevel = true →
        call.functor.passesLevel = true)
      (level : goals.any Goal.isCut = true → ∃ slot,
        ended.cutLevel = some slot ∧ (slot.index, call.barrier) ∈ desk.fixed ∧
          slot.index < desk.count)
      (footing : base.Footing setting call goals)
      (levels : base.guarded → base.Levels setting call draft desk goals)

/-- A call of a predicate is made from a clause of another one. -/
structure Makes (base : Base) (setting : Setting) (caller : Call)
    (called : Functor) (words : List Word) (memory : Store) (callee : Call) :
    Prop where
  functor : callee.functor = called
  arguments : callee.arguments = words
  memory : callee.machine.store.memory = memory
  persists : setting.origin.Persists callee.machine.store
  checkpoints : callee.checkpoints = setting.checkpoints
  scope : callee.scope =
    if called.takesLevel then caller.scope else setting.checkpoints
  discreet : base.guarded → called.takesLevel = true →
    caller.functor.passesLevel = true

/-! ## Clauses and dispatch code -/

/-- Where the code of a clause comes from, with what is known of it in a guarded
or a reserved run. -/
inductive Origin (base : Base) (functor : Functor) (words : List UInt32) :
    Prop where
  | rule (rule : Rule) (trace : Bool) (head : functor = .ofGoal rule.head)
      (compiled : base.program.Compiled rule trace words)
      (official : base.guarded → functor.knowsLevel = true →
        rule ∈ Library.rules)
      (modest : base.reserved → rule.Modest)
  | native (index : Nat) (native : Native)
      (builtin : ∀ builtin, native = .builtin builtin →
        .native functor builtin ∈ Library.natives)
      (foreign : ∀ key, native = .foreign key → base.guarded →
        functor.knowsLevel = false)
      (found : base.program.natives[index]? = some native)
      (code : (Assembler.empty.add (.operand .native index.toUInt32)).clause
        functor.arity = .ok words)
  | assembled (known : .assembled functor (.ok words) ∈ Library.assembled)

/-- A clause of a predicate, by its code. -/
structure Includes (base : Base) (functor : Functor) (clause : Clause) :
    Prop where
  stands : base.program.HasWords clause.address clause.words
  origin : base.Origin functor clause.words
  inside : clause.address + clause.words.length ≤ base.program.top

/-- The dispatch code from a piece on leads to the clauses that are left. -/
structure Offers (base : Base) (functor : Functor) (blocks : List Nat)
    (clauses : List Clause) : Prop where
  dispatches : base.program.Dispatches blocks clauses
  several : base.guarded → 2 ≤ blocks.length → functor.isSimple = false
  blocks : ∀ block ∈ blocks, block + dispatchSize ≤ base.program.top
  clauses : ∀ clause ∈ clauses, base.Includes functor clause

/-- Code that comes back to itself on backtracking. -/
structure Repeats (base : Base) (functor : Functor) (position : Nat) :
    Prop where
  arity : functor.arity = 0
  opens : base.program.code[position]? =
    some Opcode.choicePointRelative.encode
  itself : base.program.code[position + 1]? = some 0
  leaves : base.program.code[position + 2]? = some Opcode.proceed.encode
  inside : position + 3 ≤ base.program.top

/-- Code that takes up a call, at first or on backtracking, with the clauses
that are left. -/
inductive TakesUp (base : Base) (functor : Functor) :
    List Clause → Nat → Prop where
  | dispatch {block : Nat} {blocks : List Nat} {clauses : List Clause}
      (offers : base.Offers functor (block :: blocks) clauses) :
      TakesUp base functor clauses block
  | again {position : Nat} (repeats : base.Repeats functor position) :
      TakesUp base functor [] position

/-- What stands behind an instruction that opens a choice point. -/
inductive Tries (base : Base) (functor : Functor) : Nat → Prop where
  | clause {position : Nat} {clause : Clause}
      (branches : base.program.code[position]? =
        some Opcode.branchAbsolute.encode)
      (target : base.program.code[position + 1]? =
        some clause.address.toUInt32)
      (inside : position + 2 ≤ base.program.top)
      (included : base.Includes functor clause) : Tries base functor position
  | again {position : Nat} (repeats : base.Repeats functor position) :
      Tries base functor (position + 2)

/-- The turning points of a call. -/
inductive Turns (base : Base) (setting : Setting) (call : Call) :
    Machine → Prop where
  /-- A choice point is opened. -/
  | opens {machine : Machine} {position next : Nat} {memory : Store}
      {opcode : Opcode} {operand : UInt32} {clauses : List Clause}
      (runs : Runs setting position (call.waiting memory) machine)
      (there : setting.program.code[position]? = some opcode.encode)
      (argument : setting.program.code[position + 1]? = some operand)
      (isOpening : opcode = .choicePoint ∨ opcode = .choicePointRelative)
      (performs : MachineM.perform (Int32.ofNat position) opcode operand =
        MachineM.choicePoint next.toUInt32)
      (alternative : base.TakesUp call.functor clauses next)
      (tries : base.Tries call.functor (position + 2))
      (starts : base.Starts setting call memory)
      (several : base.guarded → call.functor.isSimple = false) :
      Turns base setting call machine
  /-- A goal of a clause is called. -/
  | calls {machine : Machine} {position entry : Nat} {activity : Activity}
      {desk : Desk} {goal : Goal} {goals : List Goal} {values : List Built}
      (runs : Runs setting position activity machine)
      (there : setting.program.code[position]? = some Opcode.call.encode)
      (argument : setting.program.code[position + 1]? = some entry.toUInt32)
      (sets : call.Sets desk) (neat : desk.Neat activity)
      (operands : activity.operands =
        values.map (Built.wordIn activity.locals))
      (plain : ∀ word ∈ activity.operands, word.Plain)
      (length : values.length = goal.args.length)
      (known : base.program.naming.start? (.ofGoal goal) = some entry)
      (spans : base.Spans setting call)
      (modest : base.reserved → goal.takesLevel = true →
        call.functor.passesLevel = true)
      (level : base.guarded → goal.takesLevel = true →
        call.functor.passesLevel = true →
          ∃ word, activity.operands.getLast? = some word ∧
            base.Denotes setting.origin word call.scope.length)
      (rest : ∀ callee later, base.Makes setting call (.ofGoal goal)
        activity.operands activity.memory callee →
          base.Footing later callee [] →
            base.Body later call desk goals (position + 2)) :
      Turns base setting call machine
  /-- A clause commits. -/
  | cuts {machine : Machine} {position : Nat} {activity : Activity}
      {desk : Desk} {goals : List Goal}
      (runs : Runs setting position activity machine)
      (there : setting.program.code[position]? = some Opcode.cut.encode)
      (sets : call.Sets desk) (neat : desk.Neat activity)
      (operands : activity.operands = [call.barrier])
      (spans : base.Spans setting call)
      (still : base.guarded → call.functor.cutsLevel = false ∧
        call.checkpoints <:+ setting.checkpoints)
      (rest : ∀ later : Setting, setting.origin.Persists later.origin →
        (base.guarded → later.checkpoints = call.checkpoints) →
          base.Body later call desk goals (position + 1)) :
      Turns base setting call machine
  /-- A native predicate is run. -/
  | consults {machine : Machine} {position index : Nat} {activity : Activity}
      {desk : Desk} {native : Native}
      (runs : Runs setting position activity machine)
      (there : setting.program.code[position]? = some Opcode.native.encode)
      (argument : setting.program.code[position + 1]? = some index.toUInt32)
      (found : base.program.natives[index]? = some native)
      (known : ∀ builtin, native = .builtin builtin →
        .native call.functor builtin ∈ Library.natives)
      (sets : call.Sets desk) (clear : desk.Clear Desk.anything activity)
      (foreign : ∀ key, native = .foreign key → base.guarded →
        call.functor.knowsLevel = false)
      (starts : base.Starts setting call activity.memory)
      (rest : ∀ later, base.Footing later call [] →
        base.Body later call desk [] (position + 2)) :
      Turns base setting call machine
  /-- The call returns. -/
  | leaves {machine : Machine} {position : Nat} {activity : Activity}
      (runs : Runs setting position activity machine)
      (there : setting.program.code[position]? = some Opcode.proceed.encode)
      (environment : activity.environment =
        call.machine.registers.environment)
      (continuation : activity.continuation =
        call.machine.registers.continuation)
      (stack : activity.stack = call.lower)
      (footing : base.Footing setting call []) :
      Turns base setting call machine

end Base

end LogicMachine
