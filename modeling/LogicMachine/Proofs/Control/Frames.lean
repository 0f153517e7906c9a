import LogicMachine.Proofs.Control.Quiet

/-!
# Entering and leaving a clause

A clause that is entered puts the record and the continuation of its caller on
the stack, and slots of its own above them.  A clause that is left takes all of
it off again, together with its arguments, and gives the caller its registers
back.
-/

namespace LogicMachine

variable [Atoms]

namespace Activity

/-- The activity of a clause that has just been entered. -/
def entered (activity : Activity) (locals : Nat) : Activity :=
  { activity with
    environment := .stack (Int32.ofInt (activity.stack.length - 1))
    below := activity.stack ++
      [activity.environment.pack, activity.continuation.pack]
    locals := List.replicate locals .zero
    operands := [] }

omit [Atoms] in
theorem entered_framed (activity : Activity) (locals : Nat) :
    (activity.entered locals).Framed := by
  simp only [Framed, entered, List.length_append, List.length_cons,
    List.length_nil]
  congr 2
  omega

/-- The activity of the caller, with given registers and slots. -/
def left (activity : Activity) (environment continuation : Address)
    (stack : List Word) : Activity :=
  { activity with
    environment, continuation, below := stack, locals := [], operands := [] }

end Activity

namespace Runs

variable {setting : Setting} {position : Nat} {activity : Activity}
  {machine : Machine}

/-- The same machine with the stack divided in another way. -/
theorem divided (runs : Runs setting position activity machine)
    {later : Activity} (stack : later.stack = activity.stack)
    (memory : later.memory = activity.memory)
    (environment : later.environment = activity.environment)
    (continuation : later.continuation = activity.continuation)
    (cutBase : later.cutBase = activity.cutBase) :
    Runs setting position later machine :=
  { runs with
    environment := environment ▸ runs.environment
    continuation := continuation ▸ runs.continuation
    cutBase := cutBase ▸ runs.cutBase
    memory := memory ▸ runs.memory
    stacked := stack ▸ runs.stacked }

theorem withEnvironment (runs : Runs setting position activity machine)
    (environment : Address) :
    Runs setting position { activity with environment }
      { machine with registers := { machine.registers with environment } } :=
  { runs with environment := rfl }

theorem withContinuation (runs : Runs setting position activity machine)
    (continuation : Address) :
    Runs setting position { activity with continuation }
      { machine with registers := { machine.registers with continuation } } :=
  { runs with continuation := rfl }

theorem pushZeros_ends (count : Nat)
    (runs : Runs setting position activity machine) :
    Ends (MachineM.onStore (fun _ => StoreM.pushZeros count) machine)
      (fun _ => Runs setting position
        { activity with
          operands := List.replicate count .zero ++ activity.operands })
      (fun _ => setting.Stays) := by
  induction count generalizing activity machine with
  | zero =>
      rw [MachineM.ends_onStore]
      exact runs
  | succ count ih =>
      have pushed := runs.push_ends .zero
      rw [MachineM.push, MachineM.ends_onStore] at pushed
      rw [MachineM.ends_onStore]
      simp only [StoreM.pushZeros, ends_bind]
      refine pushed.imp ?_ (fun _ _ => id)
      intro _ store later
      have rest := ih later
      rw [MachineM.ends_onStore] at rest
      refine rest.imp ?_ (fun _ _ => id)
      intro _ final reached
      rw [List.replicate_succ', List.append_assoc]
      exact reached

theorem enterClause_ends (runs : Runs setting position activity machine)
    (locals : Nat) :
    Ends (MachineM.enterClause locals machine)
      (fun _ => Runs setting position (activity.entered locals))
      (fun _ => setting.Stays) := by
  simp only [MachineM.enterClause, ends_bind, ends_get, MachineM.setRegisters,
    ends_modify]
  have framed := runs.withEnvironment (.stack machine.store.pointer)
  refine (framed.push_ends _).imp ?_ (fun _ _ => id)
  intro _ first pushed
  refine (pushed.push_ends _).imp ?_ (fun _ _ => id)
  intro _ second both
  refine (both.pushZeros_ends locals).imp ?_ (fun _ _ => id)
  intro _ final filled
  refine filled.divided ?_ rfl ?_ rfl rfl
  · have saved : machine.registers.environment = activity.environment :=
      runs.environment
    have continuation : first.registers.continuation = activity.continuation :=
      pushed.continuation
    simp only [Activity.entered, Activity.stack, Activity.frame, Activity.push,
      List.reverse_append, List.reverse_cons, List.reverse_replicate, saved,
      continuation]
    simp
  · rw [runs.stacked.pointer]
    rfl

/-- Taking slots off the stack. -/
theorem popMany_ends (runs : Runs setting position activity machine)
    {words rest : List Word} (top : activity.operands = words ++ rest) :
    Ends (MachineM.onStore (fun _ => StoreM.popMany words.length) machine)
      (fun _ => Runs setting position { activity with operands := rest })
      (fun _ => setting.Stays) := by
  induction words generalizing activity machine with
  | nil =>
      rw [MachineM.ends_onStore]
      exact runs.divided (by rw [← List.nil_append rest, ← top]) rfl rfl rfl rfl
  | cons word others ih =>
      have popped := runs.pop_ends top
      rw [MachineM.pop, MachineM.ends_onStore] at popped
      rw [MachineM.ends_onStore]
      simp only [List.length_cons, StoreM.popMany, ends_bind]
      refine popped.imp ?_ (fun _ _ => id)
      rintro _ store ⟨-, later⟩
      have others := ih later rfl
      rwa [MachineM.ends_onStore] at others

/-- Moving the top of the stack down. -/
theorem setPointer_ends (runs : Runs setting position activity machine)
    {kept dropped : List Word} (stack : activity.stack = kept ++ dropped)
    (target : Int32) (same : target = Int32.ofInt (kept.length - 1)) :
    Ends (MachineM.onStore (fun _ => StoreM.setPointer target) machine)
      (fun _ => Runs setting position
        { activity with below := kept, locals := [], operands := [] })
      (fun _ => setting.Stays) := by
  have stacked := runs.stacked
  rw [stack] at stacked
  have small := stacked.small runs.tidy.addressable
  rw [List.length_append] at small
  have low := Store.toInt_ofInt_pred (show kept.length < 2 ^ 31 by omega)
  have high := Store.toInt_ofInt_pred small
  have pointer := stacked.pointer
  rw [List.length_append] at pointer
  have moved : Runs setting position
      { activity with below := kept, locals := [], operands := [] }
      { machine with
        store := { machine.store with pointer := target } } := by
    refine runs.withStore ?_ (runs.tidy.withPointer target) ?_
      runs.persists_memory ?_ rfl rfl rfl
    · exact runs.follows.of_load rfl (fun _ => rfl) runs.follows.above
        (runs.tidy.withPointer target).addressable
    · exact runs.memory
    · rw [same]
      simpa [Activity.stack, Activity.frame] using stacked.take
  rw [MachineM.ends_onStore]
  simp only [StoreM.setPointer, ends_bind, ends_get]
  rw [pointer, same]
  split
  case isTrue lower =>
    rw [Int32.lt_iff_toInt_lt, high, low] at lower
    omega
  case isFalse =>
    split
    case isTrue =>
      have above : ¬ Int32.ofInt (kept.length - 1) < -1 := by
        rw [Int32.lt_iff_toInt_lt, low, show (-1 : Int32).toInt = -1 from rfl]
        omega
      rw [ends_modify, if_neg above, ← same]
      exact moved
    case isFalse notLower notHigher =>
      have equal : Int32.ofInt (kept.length - 1) = machine.store.pointer := by
        rw [pointer]
        exact Int32.le_antisymm (Int32.not_lt.mp notLower)
          (Int32.not_lt.mp notHigher)
      have unchanged : ({ machine with store :=
          { machine.store with pointer := target } } : Machine) = machine := by
        rw [same, equal]
      rw [unchanged] at moved
      exact moved

/-- The saved registers stand right below the slots. -/
theorem leaveClause_ends (runs : Runs setting position activity machine)
    (framed : activity.Framed) {rest arguments : List Word}
    {environment continuation : Address}
    (below : activity.below =
      rest ++ arguments ++ [environment.pack, continuation.pack]) :
    Ends (MachineM.leaveClause arguments.length machine)
      (fun _ => Runs setting position
        (activity.left environment continuation rest))
      (fun _ => setting.Stays) := by
  have length : activity.below.length =
      rest.length + arguments.length + 2 := by
    rw [below]
    simp
    omega
  have address (count : Int32) (offset : Nat)
      (shift : count = Int32.ofInt offset) :
      machine.registers.environment.shift count = .ok
        (.stack (Int32.ofInt (activity.below.length - 3 + offset))) := by
    rw [runs.environment, framed, shift]
    exact congrArg (fun index => Except.ok (Address.stack index))
      (Int32.ofInt_add _ _).symm
  have slot (index : Nat) (word : Word)
      (found : activity.below[index]? = some word) :
      activity.frame[index]? = some word := by
    rw [Activity.frame, List.getElem?_append_left
      (List.getElem?_eq_some_iff.mp found).1]
    exact found
  simp only [MachineM.leaveClause, ends_bind, ends_get, MachineM.ends_read,
    MachineM.setRegisters, ends_modify, address 2 2 rfl, address 1 1 rfl]
  refine (runs.load_ends _).imp ?_ (fun _ _ => id)
  rintro saved _ ⟨found, rfl⟩
  have isContinuation : saved = continuation.pack := by
    refine found.slot (rest.length + arguments.length + 1) _ ?_ (slot _ _ ?_)
    · rw [← Int32.ofInt_eq_ofNat]
      congr 2
      omega
    · rw [below, List.getElem?_append_right (by simp)]
      simp
  subst isContinuation
  have second := runs.withContinuation continuation.pack.address
  refine (second.load_ends _).imp ?_ (fun _ _ => id)
  rintro other _ ⟨foundOther, rfl⟩
  have isEnvironment : other = environment.pack := by
    refine foundOther.slot (rest.length + arguments.length) _ ?_ (slot _ _ ?_)
    · rw [← Int32.ofInt_eq_ofNat]
      congr 2
      omega
    · rw [below, List.getElem?_append_right (by simp)]
      simp
  subst isEnvironment
  have third := second.withEnvironment environment.pack.address
  simp only [Address.address_pack] at third ⊢
  have whole : activity.stack = rest ++ arguments ++
      ([environment.pack, continuation.pack] ++ activity.locals ++
        activity.operands.reverse) := by
    simp [Activity.stack, Activity.frame, below]
  refine (third.setPointer_ends whole _ ?_).imp ?_ (fun _ _ => id)
  · rw [runs.environment, framed]
    show Int32.ofInt _ = _
    congr 1
    rw [List.length_append]
    omega
  · intro _ dropped lowered
    have again : Runs setting position
        { activity with
          environment, continuation, below := rest, locals := []
          operands := arguments.reverse } dropped :=
      lowered.divided (by simp [Activity.stack, Activity.frame]) rfl rfl rfl rfl
    have popped := @popMany_ends _ _ _ _ _ again arguments.reverse [] (by simp)
    rw [List.length_reverse] at popped
    exact popped

end Runs

namespace Setting.Heads

variable {setting : Setting} {turning given : Machine → Prop} {place : Label → Nat}
  {position : Nat} {activity : Activity} {rest : List Item}

/-- What holds of every machine may be used. -/
theorem knowing
    (next : setting.origin.Persists activity.memory → activity.memory.Tidy →
      setting.Heads turning given position activity) :
    setting.Heads turning given position activity :=
  fun machine runs => next runs.persists_memory runs.tidy_memory machine runs

/-- Binding changes the memory. -/
theorem bind {first second : Word} {others : List Word}
    (holds : setting.program.Holds place position (.plain .bind :: rest))
    (top : activity.operands = first :: second :: others)
    (firstOff : first.address.OffStack) (secondOff : second.address.OffStack)
    (firstOpen : setting.origin.Open activity.memory first.address)
    (secondOpen : setting.origin.Open activity.memory second.address)
    (next : ∀ memory, setting.Heads turning given (position + 1)
      { activity with memory, operands := others }) :
    setting.Heads turning given position activity := by
  apply quiet 0 holds.1 rfl rfl
  intro ready runs
  simp only [MachineM.perform, ends_bind]
  refine (runs.popAddress_ends top).imp ?_ (fun _ _ => id)
  rintro _ middle ⟨rfl, popped⟩
  refine (popped.popAddress_ends rfl).imp ?_ (fun _ _ => id)
  rintro _ last ⟨rfl, both⟩
  refine (both.bind_ends firstOff secondOff firstOpen secondOpen).imp ?_
    (fun _ _ => id)
  rintro _ after ⟨memory, reached⟩
  exact next memory after reached

theorem allocate {locals : UInt32}
    (holds : setting.program.Holds place position
      (.operand .allocate locals :: rest))
    (next : setting.Heads turning given (position + 2)
      (activity.entered locals.toNat)) :
    setting.Heads turning given position activity := by
  apply quiet locals holds.1 holds.2.1 rfl
  intro ready runs
  exact (runs.enterClause_ends locals.toNat).imp
    (fun _ after reached => next after reached) (fun _ _ => id)

theorem deallocate {arity : UInt32}
    (holds : setting.program.Holds place position
      (.operand .deallocate arity :: rest))
    (framed : activity.Framed) {lower arguments : List Word}
    {environment continuation : Address}
    (below : activity.below =
      lower ++ arguments ++ [environment.pack, continuation.pack])
    (length : arguments.length = arity.toNat)
    (next : setting.Heads turning given (position + 2)
      (activity.left environment continuation lower)) :
    setting.Heads turning given position activity := by
  apply quiet arity holds.1 holds.2.1 rfl
  intro ready runs
  have leaves := runs.leaveClause_ends framed below
  rw [length] at leaves
  exact leaves.imp (fun _ after reached => next after reached) (fun _ _ => id)

end Setting.Heads

end LogicMachine
