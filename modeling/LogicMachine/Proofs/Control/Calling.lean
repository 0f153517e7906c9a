import LogicMachine.Proofs.Code.Running
import LogicMachine.Proofs.Control.Desk
import LogicMachine.Proofs.Control.Natives

/-!
# Calling the goal in an argument

A goal that is a term at run time is called with the words of its arguments.
Its predicate gets an entry if it has none.
-/

namespace LogicMachine

/-- The machine after a call of the predicate at an entry. -/
def Machine.entering (machine : Machine) (entry : UInt32) : Machine :=
  { machine with
    registers := { machine.registers with
      continuation := machine.registers.instruction
      instruction := .code entry.toInt32
      cutBase := .blank (Int32.ofNat machine.level) } }

/-- The machine after a commitment to the choices above a level. -/
def Machine.committed (machine : Machine) (level : Nat) : Machine :=
  { machine with
    store.trail := machine.store.trail.cut level
    program.journal := machine.program.journal.add
      (.cut machine.level level) }

/-- Committing to the choices above the level in the first argument. -/
theorem MachineM.cutGoal_ends (fuel : Nat) (machine : Machine) :
    Ends (MachineM.runBuiltin fuel .cut machine)
      (fun success after => if success then
          ∃ address level, machine.argument 0 = .ok address ∧
            machine.store.integerAt machine.program.functors address =
              .ok (some level) ∧
            0 ≤ level ∧ after = machine.committed level.toNat
        else after = machine)
      (fun _ after => after = machine) := by
  simp only [runBuiltin, argument, integerAt, ends_bind, ends_read]
  split
  case h_2 => trivial
  case h_1 address found =>
  split
  case h_2 => trivial
  case h_1 level spelled =>
  cases level with
  | none => rfl
  | some level =>
      dsimp only
      split
      case isTrue nonnegative =>
        exact ⟨address, level, found, spelled, nonnegative, rfl⟩
      case isFalse => rfl

/-- No functor is numbered for an entry, and nothing changes without room. -/
theorem ProgramM.entryOf_functors (functor : Functor) (program : Program) :
    Ends (entryOf functor program)
      (fun _ after => after.functors = program.functors)
      (fun _ after => after = program) := by
  simp only [entryOf, ends_bind, ends_get]
  cases program.predicate? functor with
  | some predicate => rfl
  | none =>
      simp only [ends_bind]
      exact ends_append (fun _ => rfl) rfl

namespace FunctorTable

theorem get?_of_functor {table : FunctorTable} {id : FunctorId}
    {functor : Functor} (found : table.functor id = .ok functor) :
    table.get? id = some functor := by
  unfold FunctorTable.functor at found
  cases known : table.get? id with
  | none =>
      rw [known] at found
      cases found
  | some other =>
      rw [known] at found
      cases found
      rfl

theorem get?_of_functorAt {table : FunctorTable} {store : Store}
    {header : Address} {functor : Functor}
    (found : table.functorAt store header = .ok functor) :
    ∃ id word, store.load header = .ok word ∧
      table.get? id = some functor := by
  unfold functorAt at found
  cases loaded : store.load header with
  | error fault =>
      rw [loaded] at found
      cases found
  | ok word =>
      rw [loaded] at found
      cases shape : word.cell with
      | functor id =>
          simp only [bind, Except.bind, shape] at found
          exact ⟨id, word, rfl, get?_of_functor found⟩
      | _ =>
          simp only [bind, Except.bind, shape] at found
          cases found

end FunctorTable

variable [Atoms]

/-- The same setting with a program that has advanced. -/
def Setting.withProgram (setting : Setting) {program : Program}
    (advances : setting.program.Advances program) : Setting :=
  { setting with
    program := program
    small := advances.grows.capacity ▸ setting.small }

namespace Runs

variable {setting : Setting} {position : Nat} {activity : Activity}
  {machine : Machine} {desk : Desk}

theorem advances (runs : Runs setting position activity machine) :
    setting.program.Advances machine.program := by
  rw [runs.program]
  exact .journal _ _

theorem withProgram (runs : Runs setting position activity machine)
    {program : Program} (advances : setting.program.Advances program) :
    Runs (setting.withProgram advances) position activity
      { machine with program } :=
  ⟨⟨⟨rfl, runs.collectors, runs.follows, runs.tidy⟩, runs.persists⟩,
    runs.instruction, runs.environment, runs.continuation, runs.cutBase,
    runs.memory, runs.stacked⟩

/-- The arguments of a clause are terms. -/
theorem spot_argument (runs : Runs setting position activity machine)
    (sound : desk.Sound) (neat : desk.Neat activity) {index : Nat}
    (inside : index < desk.arity) :
    machine.store.Spot (activity.argument index) := by
  obtain ⟨held, fixes⟩ := neat.fixes_argument sound inside
  exact runs.spot (.inr ⟨_, held, rfl, fixes.found, fixes.plain⟩)

theorem hasTerms (runs : Runs setting position activity machine)
    (sound : desk.Sound) (neat : desk.Neat activity) :
    machine.HasTerms desk.arity := by
  intro index inside address found
  have room : index.toNat + 3 ≤ activity.below.length := by
    have room := sound.room
    rw [neat.below]
    omega
  have known := runs.argument_ends neat.framed room
  rw [MachineM.argument, MachineM.ends_read, found] at known
  rw [known.1]
  exact runs.spot_argument sound neat inside

/-- Pushing the words at some addresses off the stack. -/
theorem pushAll_ends (runs : Runs setting position activity machine)
    {addresses : List Address}
    (offStack : ∀ address ∈ addresses, address.OffStack) :
    Ends ((addresses.forM fun address => do
        MachineM.push (← MachineM.load address)) machine)
      (fun _ after => ∃ words : List Word, words.length = addresses.length ∧
        (∀ word ∈ words, word.Plain) ∧
        Runs setting position
          { activity with operands := words.reverse ++ activity.operands }
          after)
      (fun _ => setting.Stays) := by
  induction addresses generalizing activity machine with
  | nil => exact ⟨[], rfl, nofun, runs⟩
  | cons address rest ih =>
      simp only [List.forM, ends_bind]
      refine (runs.load_ends address).imp ?_ fun _ _ => id
      rintro word _ ⟨finds, rfl⟩
      have plain : word.Plain :=
        runs.tidy_memory.cells (offStack address List.mem_cons_self)
          (finds.cell (offStack address List.mem_cons_self))
      refine (runs.push_ends word).imp ?_ fun _ _ => id
      intro _ later pushed
      refine (ih pushed fun other member => offStack other
        (List.mem_cons_of_mem _ member)).imp ?_ fun _ _ => id
      rintro _ after ⟨words, length, allPlain, last⟩
      refine ⟨word :: words, by simp [length], ?_, ?_⟩
      · intro other member
        rcases List.mem_cons.mp member with rfl | old
        · exact plain
        · exact allPlain other old
      · rw [List.reverse_cons, List.append_assoc]
        exact last

/-- What a call needs: the words of the arguments are on the stack and the
predicate has an entry. -/
inductive Summons (setting : Setting) (position : Nat) (activity : Activity)
    (after : Machine) : Prop where
  | intro {program : Program} {middle : Machine} {functor : Functor}
      {predicate : Predicate} {words : List Word}
      (advances : setting.program.Advances program)
      (functors : program.functors = setting.program.functors)
      (numbered : ∃ id, setting.program.functors.get? id = some functor)
      (length : words.length = functor.arity)
      (plain : ∀ word ∈ words, word.Plain)
      (known : program.predicate? functor = some predicate)
      (runs : Runs (setting.withProgram advances) position
        { activity with operands := words ++ activity.operands } middle)
      (enters : after = middle.entering predicate.entry.toUInt32)

/-- Calling a predicate whose arguments have been pushed. -/
theorem callEntry_ends (words : List Word)
    (runs : Runs setting position
      { activity with operands := words ++ activity.operands } machine)
    {functor : Functor}
    (numbered : ∃ id, setting.program.functors.get? id = some functor)
    (length : words.length = functor.arity)
    (plain : ∀ word ∈ words, word.Plain) (other : Machine) :
    Ends ((do
        MachineM.call
          (← MachineM.onProgram (ProgramM.entryOf functor)).toUInt32
        return true) machine)
      (fun success after => if success
        then Summons setting position activity after else after = other)
      (fun _ => setting.Stays) := by
  rw [ends_bind, MachineM.ends_onProgram]
  refine ((ProgramM.entryOf_advances functor machine.program).and
    (ProgramM.entryOf_functors functor machine.program)).imp ?_ ?_
  case refine_2 =>
    rintro _ _ ⟨-, rfl⟩
    exact runs.toStays
  rintro _ program ⟨⟨advances, predicate, known, rfl⟩, functors⟩
  have later := runs.advances.trans advances
  refine .intro later ?_ numbered length plain known (runs.withProgram later)
    rfl
  rw [functors, runs.functors]

/-- Calling the goal in the first argument: it is no callable term, or its
predicate is called. -/
theorem callGoal_ends (runs : Runs setting position activity machine)
    (sound : desk.Sound) (clear : desk.Clear Desk.anything activity)
    (inside : 0 < desk.arity)
    (bare : ∀ id functor, Atoms.includes id →
      setting.program.functors.get? id = some functor → functor.arity = 0)
    (narrow : ∀ id functor,
      setting.program.functors.get? id = some functor →
        functor.arity < 2 ^ 31) :
    Ends (MachineM.callGoal machine)
      (fun success after => if success
        then Summons setting position activity after else after = machine)
      (fun _ => setting.Stays) := by
  have spot := runs.spot_argument sound clear.toNeat inside
  have room : 3 ≤ activity.below.length := by
    have room := sound.room
    rw [clear.below]
    omega
  simp only [MachineM.callGoal, ends_bind]
  refine (runs.argument_ends clear.framed (by simpa using room)).imp ?_
    fun _ _ => id
  rintro _ _ ⟨rfl, rfl⟩
  simp only [MachineM.deref, MachineM.load, MachineM.ends_read]
  split
  case h_2 => exact runs.toStays
  case h_1 goal derefs =>
  split
  case h_2 => exact runs.toStays
  case h_1 word found =>
  have leads := Store.deref_eq_ok_iff.mp derefs
  have plain := (leads.spot runs.tidy spot).plain runs.tidy found
  cases shape : word.cell with
  | constant id =>
      rw [ends_bind, MachineM.functor, MachineM.ends_read]
      split
      case h_2 => exact runs.toStays
      case h_1 functor known =>
      rw [runs.functors] at known
      have named := FunctorTable.get?_of_functor known
      have arity := bare id functor (plain.atom shape) named
      exact callEntry_ends [] runs ⟨id, named⟩ arity.symm nofun _
  | compound header =>
      have offStack := Store.Plain.of_cell plain (.inr (.inl shape))
      rw [ends_bind, MachineM.functorAt, MachineM.ends_read]
      split
      case h_2 => exact runs.toStays
      case h_1 functor known =>
      rw [ends_bind, MachineM.ends_read]
      split
      case h_2 => exact runs.toStays
      case h_1 addresses areArguments =>
      rw [runs.functors] at known
      obtain ⟨number, first, loaded, named⟩ :=
        FunctorTable.get?_of_functorAt known
      have isCell : header.IsCell := by
        obtain ⟨region, index, rfl⟩ := Store.region_of_load offStack loaded
        cases region <;> trivial
      have length : addresses.length = functor.arity := by
        rw [Store.arguments_eq isCell (narrow number functor named)] at areArguments
        cases areArguments
        simp
      have cells : ∀ address ∈ addresses.reverse, address.OffStack :=
        fun address member => Store.arguments_offStack offStack areArguments
          address (List.mem_reverse.mp member)
      refine ends_bind.mpr ((runs.pushAll_ends cells).imp ?_ fun _ _ => id)
      rintro _ middle ⟨words, count, allPlain, later⟩
      exact callEntry_ends words.reverse later ⟨number, named⟩
        (by simp [count, length]) (by simpa using allPlain) _
  | _ => exact rfl

end Runs

end LogicMachine
