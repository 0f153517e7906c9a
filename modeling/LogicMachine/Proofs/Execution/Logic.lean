import LogicMachine.Proofs.Execution.Steps

/-!
# Reasoning about code from its end

What is wanted of a run is a set of machines.  If it is closed under steps taken
backwards, a machine belongs to it as soon as the machines belong to it that its
code leads to.  The rules say so for straight code, for branches and for giving
up.
-/

namespace LogicMachine

/-- Unifies the terms at the two addresses on top of the stack. -/
def MachineM.unifyTop (fuel : Nat) : MachineM Bool := do
  let first ← popAddress
  let second ← popAddress
  unify fuel first second

theorem MachineM.execute_unify (fuel : Nat) (position : Int32)
    (operand : UInt32) :
    execute fuel position .unify operand = unifyTop fuel >>= require := by
  simp only [execute, unifyTop, bind_assoc]

/-- What is wanted of a machine holds if it holds after the next instruction,
as long as that stands before the end of the code.  A run may also end: when a
segment is full, when a branch is given up for a reason, or when a unification
does not come to an end.  The bounds on unifications are those of a set. -/
structure Closes (context : Context) (fuels : Set Nat) (stop : Nat)
    (hopeless : Prop) (endless : Nat → Store → Prop) (goal : Machine → Prop) :
    Prop where
  quiet : ∀ {machine ready : Machine} {position : Nat} {opcode : Opcode}
    {operand : UInt32}, position < stop → context.Keeps machine →
    context.guard.Holds machine.store →
    machine.Next (Int32.ofNat position) opcode operand ready →
    opcode.isQuiet = true →
    Ends (MachineM.perform (Int32.ofNat position) opcode operand ready)
      (fun _ => goal) (context.Stops machine.store) → goal machine
  fail : ∀ {machine ready : Machine} {position : Nat} {operand : UInt32},
    position < stop → context.Keeps machine →
    context.guard.Holds machine.store →
    machine.Next (Int32.ofNat position) .fail operand ready → hopeless →
    goal machine
  unify : ∀ {machine ready : Machine} {position : Nat} {operand : UInt32},
    position < stop → context.Keeps machine →
    context.guard.Holds machine.store →
    machine.Next (Int32.ofNat position) .unify operand ready →
    (∀ fuel ∈ fuels, Ends (MachineM.unifyTop fuel ready)
      (fun success after => if success then goal after else
        hopeless ∧ context.Keeps after ∧ context.guard.Holds after.store)
      (fun fault after => (Exhausts fault after ∨
        fault = .diverged ∧ endless fuel after.store) ∧
          context.Halts machine.store after)) → goal machine

/-- Every machine with a view at a position is as wanted. -/
def Context.Ensures (context : Context) (goal : Machine → Prop)
    (position : Nat) (view : View) : Prop :=
  ∀ machine, Shows context position view machine → goal machine

/-- Sizes that addresses can express. -/
structure View.Sane (view : View) : Prop where
  room : ∀ region, view.memory.Room region
  capacity : ∀ region, view.memory.capacity region < 2 ^ 31
  stack : view.stack.length < 2 ^ 31

namespace Context.Ensures

variable {context : Context} {goal : Machine → Prop} {fuels : Set Nat}
  {stop : Nat} {hopeless : Prop} {endless : Nat → Store → Prop} {place : Label → Nat}
  {position : Nat} {view : View} {rest : List Item}

/-- A machine that has a view keeps to the sizes of its segments. -/
theorem of_sane (ensures : view.Sane → context.Ensures goal position view) :
    context.Ensures goal position view := by
  intro machine shown
  apply ensures _ machine shown
  exact ⟨shown.memory_room, shown.memory_capacity,
    shown.stacked.small shown.addressable⟩

theorem quiet (closes : Closes context fuels stop hopeless endless goal)
    (below : position < stop) {opcode : Opcode} (operand : UInt32)
    (there : context.program.code[position]? = some opcode.encode)
    (argument : if opcode.hasOperand then
      context.program.code[position + 1]? = some operand else operand = 0)
    (isQuiet : opcode.isQuiet = true)
    (performs : ∀ ready, Shows context (position + opcode.size) view ready →
      Ends (MachineM.perform (Int32.ofNat position) opcode operand ready)
        (fun _ => goal) (context.Stops view.memory)) :
    context.Ensures goal position view := by
  intro machine shown
  obtain ⟨ready, next, later⟩ := shown.next there argument
  exact closes.quiet below shown.toKeeps shown.guarded next isQuiet
    ((performs ready later).imp (fun _ _ => id) fun _ _ => shown.stops)

/-- Straight code is followed on the view. -/
theorem straight (closes : Closes context fuels stop hopeless endless goal)
    {items : List Item} (holds : context.program.Holds place position items)
    (below : position + textSize items ≤ stop)
    (after : view.AfterAll
      (context.Ensures goal (position + textSize items)) items) :
    context.Ensures goal position view := by
  induction items generalizing position view with
  | nil => exact after
  | cons item rest ih =>
      rw [textSize_cons, ← Nat.add_assoc] at after below
      cases item with
      | plain opcode =>
          obtain ⟨there, others⟩ := holds
          intro machine shown
          have plain := (shown.plain_meets after 0 0).2.1
          have here := Nat.lt_of_lt_of_le (Nat.lt_succ_self position)
            (Nat.le_trans (Nat.le_add_right _ _) below)
          refine quiet closes here 0 there ?_
            (shown.plain_meets after 0 0).1 ?_ machine shown
          · rw [plain]
            rfl
          · intro ready later
            have size : opcode.size = 1 := by
              rw [Opcode.size, plain]
              rfl
            rw [size] at later
            refine (later.plain_meets after _ _).2.2.imp ?_ (fun _ _ => id)
            rintro _ final ⟨next, held, reached⟩
            exact ih others below held final reached
      | operand opcode value =>
          obtain ⟨there, following, others⟩ := holds
          intro machine shown
          have has := (shown.operand_meets after 0).2.1
          have here := Nat.lt_of_lt_of_le
            (Nat.lt_add_of_pos_right (by decide : 0 < 2))
            (Nat.le_trans (Nat.le_add_right _ _) below)
          refine quiet closes here value there ?_
            (shown.operand_meets after 0).1 ?_ machine shown
          · rw [has]
            exact following
          · intro ready later
            have size : opcode.size = 2 := by
              rw [Opcode.size, has]
              rfl
            rw [size] at later
            refine (later.operand_meets after _).2.2.imp ?_ (fun _ _ => id)
            rintro _ final ⟨next, held, reached⟩
            exact ih others below held final reached
      | branch opcode target => cases after
      | mark label => exact ih holds.2 below after

/-! ## Branches -/

theorem target_eq (position target : Nat) :
    Int32.ofNat position + (target.toUInt32 - position.toUInt32).toInt32 =
      Int32.ofNat target := by
  rw [UInt32.toInt32_sub]
  simp only [Nat.toUInt32, UInt32.toInt32_ofNat']
  rw [Int32.add_comm, Int32.sub_add_cancel]

theorem branchAlways (closes : Closes context fuels stop hopeless endless goal)
    {target : Label}
    (holds : context.program.Holds place position
      (.branch .branchAlways target :: rest)) (below : position < stop)
    (next : context.Ensures goal (place target) view) :
    context.Ensures goal position view := by
  obtain ⟨there, following, -⟩ := holds
  apply quiet closes below _ there following rfl
  intro ready shown
  simp only [MachineM.perform, target_eq]
  exact next _ (shown.jumped (place target) ready.program.journal)

theorem branchIf_ends {machine : Machine}
    (shown : Shows context position view machine) (equal : Bool)
    {first second : Operand} {others : List Operand}
    (top : view.operands = first :: second :: others) (target : Nat)
    (taken : (first.toWord == second.toWord) = equal →
      context.Ensures goal target { view with operands := others })
    (passed : (first.toWord == second.toWord) ≠ equal →
      context.Ensures goal position { view with operands := others }) :
    Ends (MachineM.branchIf equal (.code (Int32.ofNat target)) machine)
      (fun _ => goal) (context.Stops view.memory) := by
  unfold MachineM.branchIf
  rw [ends_bind]
  refine (shown.pop_ends top).imp ?_ (fun _ _ => False.elim)
  rintro _ middle ⟨rfl, later⟩
  rw [ends_bind]
  refine (later.pop_ends rfl).imp ?_ (fun _ _ => False.elim)
  rintro _ last ⟨rfl, ready⟩
  by_cases compares : (first.toWord == second.toWord) = equal
  · rw [if_pos compares]
    exact taken compares _ (ready.jumped target last.program.journal)
  · rw [if_neg compares]
    exact passed compares _ ready

/-- A branch that compares the two operands on top. -/
theorem branch (closes : Closes context fuels stop hopeless endless goal) (equal : Bool)
    {target : Label} {first second : Operand} {others : List Operand}
    (holds : context.program.Holds place position
      (.branch (if equal then .branchEqual else .branchNotEqual) target :: rest))
    (below : position < stop)
    (top : view.operands = first :: second :: others)
    (taken : (first.toWord == second.toWord) = equal →
      context.Ensures goal (place target) { view with operands := others })
    (passed : (first.toWord == second.toWord) ≠ equal →
      context.Ensures goal (position + 2) { view with operands := others }) :
    context.Ensures goal position view := by
  obtain ⟨there, following, -⟩ := holds
  cases equal with
  | true =>
      apply quiet closes below _ there following rfl
      intro ready shown
      simp only [MachineM.perform, target_eq]
      exact branchIf_ends shown true top (place target) taken passed
  | false =>
      apply quiet closes below _ there following rfl
      intro ready shown
      simp only [MachineM.perform, target_eq]
      exact branchIf_ends shown false top (place target) taken passed

theorem fail (closes : Closes context fuels stop hopeless endless goal)
    (holds : context.program.Holds place position (.plain .fail :: rest))
    (below : position < stop) (reason : hopeless) :
    context.Ensures goal position view := by
  intro machine shown
  obtain ⟨ready, next, -⟩ := @Shows.next _ _ _ _ shown .fail 0 holds.1 rfl
  exact closes.fail below shown.toKeeps shown.guarded next reason

end Context.Ensures

end LogicMachine
