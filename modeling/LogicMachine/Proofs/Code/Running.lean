import LogicMachine.Machine.Step
import LogicMachine.Proofs.Code.Adding

/-!
# Running code changes no code

A machine that runs numbers functors and makes room for predicates that are
called without being known.  Apart from that, and from what it reports, it
leaves the program alone, whether the run goes on, ends or faults.
-/

namespace LogicMachine

/-- Whatever a run does to a program, something known of it stays true. -/
class Program.Upkeep (known : Program → Prop) : Prop where
  report : ∀ program journal, known program → known { program with journal }
  number : ∀ program name, known program →
    known { program with
      functors := (program.functors.intern (.constant name)).2 }
  entryOf : ∀ functor, LogicMachine.Keeps known (ProgramM.entryOf functor)

instance (program : Program) : Program.Upkeep program.Advances where
  report := fun before _ advances => advances.trans (.journal before _)
  number := fun before name advances =>
    advances.trans (ProgramM.intern_advances (.constant name) before).1
  entryOf := fun functor before advances =>
    (ProgramM.entryOf_advances functor before).imp
      (fun _ _ found => advances.trans found.1)
      fun _ after full => by
        rw [full.2]
        exact advances

namespace MachineM

/-- Something is known of the program of the machine. -/
def Holding (known : Program → Prop) (machine : Machine) : Prop :=
  known machine.program

/-- The program of the machine has advanced from a given one. -/
abbrev Advanced (program : Program) : Machine → Prop :=
  Holding program.Advances

section Upkeep

variable {known : Program → Prop}

theorem read_upholds (query : Machine → Except Fault α) :
    Keeps (Holding known) (read query) := by
  intro machine advanced
  rw [ends_read]
  split <;> exact advanced

theorem onStore_upholds (action : FunctorTable → StoreM α) :
    Keeps (Holding known) (onStore action) := by
  intro machine advanced
  rw [ends_onStore]
  cases action machine.program.functors machine.store <;> exact advanced

theorem setRegisters_upholds (update : Registers → Registers) :
    Keeps (Holding known) (setRegisters update) :=
  Keeps.modifying fun _ advanced => advanced

theorem jump_upholds (target : Address) :
    Keeps (Holding known) (jump target) :=
  setRegisters_upholds _

variable [Program.Upkeep known]

theorem report_upholds (event : Event) :
    Keeps (Holding known) (report event) := by
  intro machine holds
  rw [report, ends_onProgram]
  exact @Program.Upkeep.report known _ machine.program _ holds

theorem intern_upholds (name : String) :
    Keeps (Holding known) (onProgram (ProgramM.intern (.constant name))) := by
  intro machine holds
  rw [ends_onProgram]
  exact @Program.Upkeep.number known _ machine.program name holds

theorem entryOf_upholds (functor : Functor) :
    Keeps (Holding known) (onProgram (ProgramM.entryOf functor)) := by
  intro machine holds
  rw [ends_onProgram]
  exact @Program.Upkeep.entryOf known _ functor machine.program holds

/-! ## Choice points and activation records -/

omit [Program.Upkeep known] in
theorem restore_upholds (record : Record) :
    Keeps (Holding known) (restore record) := by
  unfold restore
  split
  case h_1 register _ =>
    apply Keeps.modifying
    intro machine advanced
    cases register <;> exact advanced
  case h_2 => exact onStore_upholds _

theorem backtrack_upholds : Keeps (Holding known) backtrack := by
  refine Keeps.bind Keeps.get fun machine => ?_
  split
  · exact Keeps.pure false
  · refine Keeps.bind (Keeps.modifying fun _ advanced => advanced) fun _ => ?_
    refine Keeps.bind (report_upholds _) fun _ => ?_
    refine Keeps.bind (Keeps.forM fun record _ => restore_upholds record)
      fun _ => ?_
    exact Keeps.pure true

theorem fail_upholds : Keeps (Holding known) fail := by
  refine Keeps.bind backtrack_upholds fun found => ?_
  split <;> exact Keeps.pure _

theorem require_upholds (success : Bool) :
    Keeps (Holding known) (require success) := by
  unfold require
  split
  · exact Keeps.pure _
  · exact fail_upholds

theorem cut_upholds (level : Nat) : Keeps (Holding known) (cut level) := by
  refine Keeps.bind Keeps.get fun _ => ?_
  refine Keeps.bind (report_upholds _) fun _ => ?_
  exact Keeps.modifying fun _ advanced => advanced

theorem choicePoint_upholds (next : UInt32) :
    Keeps (Holding known) (choicePoint next) := by
  refine Keeps.bind (Keeps.modifying fun _ advanced => advanced) fun _ => ?_
  refine Keeps.bind Keeps.get fun _ => ?_
  refine Keeps.bind (report_upholds _) fun _ => ?_
  refine Keeps.bind Keeps.get fun _ => ?_
  exact Keeps.modifying fun _ advanced => advanced

omit [Program.Upkeep known] in
theorem call_upholds (entry : UInt32) :
    Keeps (Holding known) (call entry) :=
  Keeps.bind Keeps.get fun _ => setRegisters_upholds _

omit [Program.Upkeep known] in
theorem enterClause_upholds (locals : Nat) :
    Keeps (Holding known) (enterClause locals) := by
  refine Keeps.bind Keeps.get fun _ => Keeps.bind Keeps.get fun _ => ?_
  refine Keeps.bind (setRegisters_upholds _) fun _ => ?_
  refine Keeps.bind (onStore_upholds _) fun _ => ?_
  refine Keeps.bind Keeps.get fun _ => ?_
  exact Keeps.bind (onStore_upholds _) fun _ => onStore_upholds _

omit [Program.Upkeep known] in
theorem leaveClause_upholds (arity : Nat) :
    Keeps (Holding known) (leaveClause arity) := by
  refine Keeps.bind Keeps.get fun _ => ?_
  refine Keeps.bind (read_upholds _) fun _ => ?_
  refine Keeps.bind (read_upholds _) fun _ => ?_
  refine Keeps.bind (setRegisters_upholds _) fun _ => ?_
  refine Keeps.bind (read_upholds _) fun _ => ?_
  refine Keeps.bind (read_upholds _) fun _ => ?_
  refine Keeps.bind (setRegisters_upholds _) fun _ => ?_
  exact Keeps.bind (onStore_upholds _) fun _ => onStore_upholds _

/-! ## Native predicates -/

omit [Program.Upkeep known] in
theorem unifyWord_upholds (steps : Nat) (region : Region) (address : Address)
    (value : Word) :
    Keeps (Holding known) (unifyWord steps region address value) :=
  Keeps.bind (onStore_upholds _) fun _ => onStore_upholds _

theorem unifyInteger_upholds (steps : Nat) (address : Address)
    (value : Option Int) :
    Keeps (Holding known) (unifyInteger steps address value) := by
  cases value with
  | none => exact Keeps.pure _
  | some value =>
      refine Keeps.bind ?_ fun _ => unifyWord_upholds steps .heap address _
      exact Keeps.bind (intern_upholds _) fun _ => Keeps.pure _

theorem callEntry_upholds (functor : Functor) :
    Keeps (Holding known) (do
      call (← onProgram (ProgramM.entryOf functor)).toUInt32
      return true) := by
  refine Keeps.bind (entryOf_upholds functor) fun entry => ?_
  exact Keeps.bind (call_upholds _) fun _ => Keeps.pure true

theorem callGoal_upholds : Keeps (Holding known) callGoal := by
  refine Keeps.bind (read_upholds _) fun _ => ?_
  refine Keeps.bind (read_upholds _) fun _ => ?_
  refine Keeps.bind (read_upholds _) fun word => ?_
  split
  · exact Keeps.bind (read_upholds _) fun functor => callEntry_upholds functor
  · refine Keeps.bind (read_upholds _) fun functor => ?_
    refine Keeps.bind (read_upholds _) fun addresses => ?_
    refine Keeps.bind (Keeps.forM fun _ _ => ?_) fun _ =>
      callEntry_upholds functor
    exact Keeps.bind (read_upholds _) fun _ => onStore_upholds _
  · exact Keeps.pure _

theorem plus_upholds (steps : Nat) : Keeps (Holding known) (plus steps) := by
  refine Keeps.bind (read_upholds _) fun _ => ?_
  refine Keeps.bind (read_upholds _) fun _ => ?_
  refine Keeps.bind (read_upholds _) fun _ => ?_
  refine Keeps.bind (read_upholds _) fun _ => ?_
  refine Keeps.bind (read_upholds _) fun _ => ?_
  refine Keeps.bind (read_upholds _) fun _ => ?_
  split
  · exact unifyInteger_upholds steps _ _
  · exact unifyInteger_upholds steps _ _
  · exact unifyInteger_upholds steps _ _
  · exact Keeps.pure _

omit [Program.Upkeep known] in
theorem compare_upholds (comparison : Comparison) :
    Keeps (Holding known) (compare comparison) := by
  refine Keeps.bind (read_upholds _) fun _ => ?_
  refine Keeps.bind (read_upholds _) fun _ => ?_
  refine Keeps.bind (read_upholds _) fun _ => ?_
  refine Keeps.bind (read_upholds _) fun _ => ?_
  split <;> exact Keeps.pure _

omit [Program.Upkeep known] in
theorem collect_upholds (word : Word) :
    Keeps (Holding known) (collect word) := by
  intro machine advanced
  rw [collect, ends_modifyGet]
  split <;> exact advanced

omit [Program.Upkeep known] in
theorem endCollect_upholds : Keeps (Holding known) endCollect := by
  intro machine advanced
  rw [endCollect, ends_modifyGet]
  split <;> exact advanced

omit [Program.Upkeep known] in
theorem retainedList_upholds (ending : Word) (reversed : List Word) :
    Keeps (Holding known) (retainedList ending reversed) := by
  induction reversed generalizing ending with
  | nil => exact Keeps.pure _
  | cons item rest ih =>
      exact Keeps.bind (onStore_upholds _) fun pair => ih (.list pair)

theorem finishCollecting_upholds (steps : Nat) :
    Keeps (Holding known) (finishCollecting steps) := by
  refine Keeps.bind endCollect_upholds fun words => ?_
  split
  · exact Keeps.pure _
  · refine Keeps.bind (intern_upholds _) fun _ => ?_
    refine Keeps.bind (retainedList_upholds _ _) fun _ => ?_
    exact Keeps.bind (read_upholds _) fun _ =>
      unifyWord_upholds steps .retained _ _

theorem cutBuiltin_upholds (steps : Nat) :
    Keeps (Holding known) (runBuiltin steps .cut) := by
  refine Keeps.bind (read_upholds _) fun _ => ?_
  refine Keeps.bind (read_upholds _) fun level => ?_
  split
  · split
    · exact Keeps.bind (cut_upholds _) fun _ => Keeps.pure _
    · exact Keeps.pure _
  · exact Keeps.pure _

theorem runBuiltin_upholds (steps : Nat) (builtin : Builtin) :
    Keeps (Holding known) (runBuiltin steps builtin) := by
  cases builtin with
  | callGoal => exact callGoal_upholds
  | level =>
      refine Keeps.bind (read_upholds _) fun _ => ?_
      exact Keeps.bind Keeps.get fun _ => unifyInteger_upholds steps _ _
  | cut => exact cutBuiltin_upholds steps
  | number =>
      refine Keeps.bind (read_upholds _) fun _ => ?_
      exact Keeps.bind (read_upholds _) fun _ => Keeps.pure _
  | evaluate =>
      refine Keeps.bind (read_upholds _) fun _ => ?_
      refine Keeps.bind (read_upholds _) fun _ => ?_
      exact Keeps.bind (read_upholds _) fun _ => unifyInteger_upholds steps _ _
  | plus => exact plus_upholds steps
  | copyTerm =>
      refine Keeps.bind (read_upholds _) fun _ => ?_
      refine Keeps.bind (read_upholds _) fun _ => ?_
      refine Keeps.bind (read_upholds _) fun _ => ?_
      refine Keeps.bind (onStore_upholds _) fun _ => ?_
      exact unifyWord_upholds steps .heap _ _
  | compare comparison => exact compare_upholds comparison
  | collectBegin =>
      refine Keeps.bind (Keeps.modifying fun _ advanced => advanced) fun _ => ?_
      exact Keeps.pure _
  | collect =>
      refine Keeps.bind (read_upholds _) fun _ => ?_
      refine Keeps.bind (read_upholds _) fun _ => ?_
      exact Keeps.bind (onStore_upholds _) fun _ => collect_upholds _
  | collectEnd => exact finishCollecting_upholds steps

theorem callNative_upholds (steps index : Nat) :
    Keeps (Holding known) (callNative steps index) := by
  refine Keeps.bind Keeps.get fun machine => ?_
  split
  · exact Keeps.throw _
  · exact Keeps.pure _
  · exact Keeps.bind (runBuiltin_upholds steps _) fun success =>
      require_upholds success

/-! ## Instructions -/

omit [Program.Upkeep known] in
theorem popAddress_upholds : Keeps (Holding known) popAddress :=
  Keeps.bind (onStore_upholds _) fun _ => Keeps.pure _

omit [Program.Upkeep known] in
theorem applyTag_upholds (tag : Tag) :
    Keeps (Holding known) (applyTag tag) :=
  Keeps.bind (onStore_upholds _) fun _ => onStore_upholds _

omit [Program.Upkeep known] in
theorem setHeapTop_upholds (target : Address) :
    Keeps (Holding known) (setHeapTop target) := by
  cases target with
  | heap top => exact Keeps.modifying fun _ advanced => advanced
  | _ => exact Keeps.throw _

omit [Program.Upkeep known] in
theorem branchIf_upholds (equal : Bool) (target : Address) :
    Keeps (Holding known) (branchIf equal target) := by
  refine Keeps.bind (onStore_upholds _) fun _ => ?_
  refine Keeps.bind (onStore_upholds _) fun _ => ?_
  split
  · exact jump_upholds _
  · exact Keeps.pure _

theorem reportTrace_upholds (id : FunctorId) (passage : Passage) :
    Keeps (Holding known) (reportTrace id passage) := by
  refine Keeps.bind Keeps.get fun _ => ?_
  split
  · exact Keeps.bind (read_upholds _) fun _ => report_upholds _
  · exact Keeps.pure _

theorem perform_upholds (position : Int32) (opcode : Opcode)
    (operand : UInt32) :
    Keeps (Holding known) (perform position opcode operand) := by
  have pops : Keeps (Holding known) pop := onStore_upholds _
  have pushes (value : Word) : Keeps (Holding known) (push value) :=
    onStore_upholds _
  cases opcode with
  | duplicate => exact Keeps.bind (onStore_upholds _) fun _ => pushes _
  | pop => exact Keeps.bind pops fun _ => Keeps.pure _
  | load =>
      refine Keeps.bind popAddress_upholds fun _ => ?_
      exact Keeps.bind (read_upholds _) fun _ => pushes _
  | store =>
      refine Keeps.bind pops fun _ => ?_
      exact Keeps.bind popAddress_upholds fun _ => onStore_upholds _
  | loadConstant => exact pushes _
  | loadLocal =>
      refine Keeps.bind (read_upholds _) fun _ => ?_
      exact Keeps.bind (read_upholds _) fun _ => pushes _
  | storeLocal =>
      refine Keeps.bind pops fun _ => ?_
      exact Keeps.bind (read_upholds _) fun _ => onStore_upholds _
  | loadLocalAddress => exact Keeps.bind (read_upholds _) fun _ => pushes _
  | loadArgumentAddress => exact Keeps.bind (read_upholds _) fun _ => pushes _
  | deref =>
      refine Keeps.bind popAddress_upholds fun _ => ?_
      exact Keeps.bind (read_upholds _) fun _ => pushes _
  | getTag => exact Keeps.bind pops fun _ => pushes _
  | getAddress => exact Keeps.bind popAddress_upholds fun _ => pushes _
  | tagReference => exact applyTag_upholds _
  | tagCompound => exact applyTag_upholds _
  | tagFunctor => exact applyTag_upholds _
  | tagConstant => exact applyTag_upholds _
  | tagList => exact applyTag_upholds _
  | bind =>
      refine Keeps.bind popAddress_upholds fun _ => ?_
      exact Keeps.bind popAddress_upholds fun _ => onStore_upholds _
  | loadHeapTop => exact Keeps.bind Keeps.get fun _ => pushes _
  | storeHeapTop =>
      exact Keeps.bind popAddress_upholds fun _ => setHeapTop_upholds _
  | loadCutBase => exact Keeps.bind Keeps.get fun _ => pushes _
  | storeCutBase =>
      refine Keeps.bind popAddress_upholds fun _ => ?_
      exact Keeps.modifying fun _ advanced => advanced
  | increment => exact Keeps.bind pops fun _ => pushes _
  | add => exact Keeps.bind pops fun _ => Keeps.bind pops fun _ => pushes _
  | allocate => exact enterClause_upholds _
  | deallocate => exact leaveClause_upholds _
  | call => exact call_upholds _
  | branchEqual => exact branchIf_upholds _ _
  | branchNotEqual => exact branchIf_upholds _ _
  | branchAlways => exact jump_upholds _
  | branchAbsolute => exact jump_upholds _
  | choicePoint => exact choicePoint_upholds _
  | choicePointRelative => exact choicePoint_upholds _
  | getLevel => exact Keeps.bind Keeps.get fun _ => pushes _
  | cut => exact Keeps.bind popAddress_upholds fun _ => cut_upholds _
  | trace => exact reportTrace_upholds _ _
  | endTrace => exact reportTrace_upholds _ _
  | nop | halt | fail | unify | proceed | native => exact Keeps.pure _

theorem execute_upholds (steps : Nat) (position : Int32) (opcode : Opcode)
    (operand : UInt32) :
    Keeps (Holding known) (execute steps position opcode operand) := by
  unfold execute
  split
  · exact Keeps.pure _
  · exact fail_upholds
  · refine Keeps.bind popAddress_upholds fun _ => ?_
    refine Keeps.bind popAddress_upholds fun _ => ?_
    exact Keeps.bind (onStore_upholds _) fun success =>
      require_upholds success
  · refine Keeps.bind Keeps.get fun _ => ?_
    exact Keeps.bind (jump_upholds _) fun _ => Keeps.pure _
  · exact callNative_upholds steps _
  · exact Keeps.bind (perform_upholds position opcode operand) fun _ =>
      Keeps.pure _

theorem step_upholds (steps : Nat) : Keeps (Holding known) (step steps) := by
  refine Keeps.bind Keeps.get fun machine => ?_
  refine Keeps.bind (read_upholds _) fun (opcode, operand) => ?_
  refine Keeps.bind (jump_upholds _) fun _ => ?_
  exact Keeps.bind (report_upholds _) fun _ =>
    execute_upholds steps _ opcode operand

/-! ## Runs -/

theorem run_upholds (steps : Nat) : Keeps (Holding known) (run steps) := by
  induction steps with
  | zero => exact Keeps.pure _
  | succ steps ih =>
      refine Keeps.bind (step_upholds steps) fun status => ?_
      split
      · exact ih
      · exact Keeps.pure _

theorem proceed_upholds (steps : Nat) (status : Status) :
    Keeps (Holding known) (proceed steps status) := by
  cases status with
  | running => exact run_upholds steps
  | _ => exact Keeps.pure _

theorem answer_upholds (steps : Nat) (success : Bool) :
    Keeps (Holding known) (answer steps success) :=
  Keeps.bind (require_upholds success) fun status =>
    proceed_upholds steps status

theorem resume_upholds (steps : Nat) :
    Keeps (Holding known) (resume steps) :=
  Keeps.bind fail_upholds fun status => proceed_upholds steps status

theorem start_upholds (entry : UInt32) (argumentCount : Nat) :
    Keeps (Holding known) (start entry argumentCount) := by
  refine Keeps.bind (report_upholds _) fun _ => ?_
  refine Keeps.bind (Keeps.modifying fun _ advanced => advanced) fun _ => ?_
  refine Keeps.bind Keeps.get fun machine => ?_
  dsimp only
  split
  · exact fun _ advanced => advanced
  · refine Keeps.bind (Keeps.modifying fun _ advanced => advanced) fun _ => ?_
    refine Keeps.bind (Keeps.forM fun _ _ => onStore_upholds _) fun _ => ?_
    exact jump_upholds _

end Upkeep

/-! ## Programs that advance -/

section Advance

variable {program : Program}

theorem report_advances (event : Event) :
    Keeps (Advanced program) (report event) :=
  report_upholds event

theorem backtrack_advances : Keeps (Advanced program) backtrack :=
  backtrack_upholds

theorem runBuiltin_advances (steps : Nat) (builtin : Builtin) :
    Keeps (Advanced program) (runBuiltin steps builtin) :=
  runBuiltin_upholds steps builtin

theorem run_advances (steps : Nat) : Keeps (Advanced program) (run steps) :=
  run_upholds steps

theorem proceed_advances (steps : Nat) (status : Status) :
    Keeps (Advanced program) (proceed steps status) :=
  proceed_upholds steps status

theorem answer_advances (steps : Nat) (success : Bool) :
    Keeps (Advanced program) (answer steps success) :=
  answer_upholds steps success

theorem resume_advances (steps : Nat) :
    Keeps (Advanced program) (resume steps) :=
  resume_upholds steps

theorem start_advances (entry : UInt32) (argumentCount : Nat) :
    Keeps (Advanced program) (start entry argumentCount) :=
  start_upholds entry argumentCount

end Advance

end MachineM

end LogicMachine
