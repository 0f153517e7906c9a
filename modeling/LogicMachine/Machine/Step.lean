import LogicMachine.Machine.Builtin

/-!
# Running code

A step fetches one instruction and executes it.  A run goes from step to step
until it succeeds, fails, or needs an answer of the embedding program.
-/

namespace LogicMachine

/-- How a run stands. -/
inductive Status where
  /-- There are more instructions to execute. -/
  | running
  | solved
  | failed
  /-- A predicate of the embedding program has been called. -/
  | awaiting (key : Nat)
  deriving DecidableEq, Inhabited

namespace Machine

/-- The written form of an argument of the current clause.  Cells that form no
term are written as what is wrong with them. -/
def renderArgument (machine : Machine) (index : UInt32) :
    Except Fault String := do
  let address ← machine.argument index
  let term := machine.store.readBack machine.program.functors address
  Fault.recover (fun fault => "<" ++ fault.message ++ ">")
    (term.map Term.render)

/-- The report of entry to or exit from a clause of a predicate. -/
def traceEvent (machine : Machine) (id : FunctorId) (passage : Passage) :
    Except Fault Event := do
  let functor := machine.program.functors.get? id
  let name :=
    match functor with
    | some functor => functor.render
    | none => "#" ++ toString id.index.toNat
  let arity := (functor.map Functor.arity).getD 0
  let rendered ← (List.range arity).mapM fun index =>
    machine.renderArgument index.toUInt32
  let arguments := "(" ++ String.intercalate ", " rendered ++ ")"
  return .traced name arguments machine.level passage

end Machine

namespace MachineM

/-- Gives up the current branch: goes back to the newest choice point, or fails
if there is none. -/
def fail : MachineM Status := do
  if ← backtrack then return .running else return .failed

/-- The outcome of a test. -/
def require (success : Bool) : MachineM Status :=
  if success then return .running else fail

/-- Reports entry to or exit from a clause if somebody listens. -/
def reportTrace (id : FunctorId) (passage : Passage) : MachineM Unit := do
  if (← get).program.journal.wants .trace then
    let event ← read fun machine => machine.traceEvent id passage
    report event

/-- Replaces the tag of the top word. -/
def applyTag (tag : Tag) : MachineM Unit := do
  let value ← pop
  push (value.withTag tag)

/-- Pops an address. -/
def popAddress : MachineM Address := do
  return (← pop).address

/-- Sets the first free heap cell. -/
def setHeapTop : Address → MachineM Unit
  | .heap top => modify fun machine => { machine with store.heapTop := top }
  | other => throw (.invalidAddress other)

/-- Calls a native predicate. -/
def callNative (steps : Nat) (index : Nat) : MachineM Status := do
  match (← get).program.natives[index]? with
  | none => throw (.unknownNative index)
  | some (.foreign key) => return .awaiting key
  | some (.builtin builtin) => do require (← runBuiltin steps builtin)

/-- Pops two words and jumps if they compare as wanted. -/
def branchIf (equal : Bool) (target : Address) : MachineM Unit := do
  let first ← pop
  let second ← pop
  if (first == second) = equal then
    jump target

/-- The effect of an instruction after which the run always goes on. -/
def perform (position : Int32) (opcode : Opcode) (operand : UInt32) :
    MachineM Unit := do
  match opcode with
  | .duplicate => push (← peek)
  | .pop => discard pop
  | .load => push (← load (← popAddress))
  | .store => do
      let value ← pop
      store (← popAddress) value
  | .loadConstant => push ⟨operand.toUInt64⟩
  | .loadLocal => push (← load (← localAddress operand))
  | .storeLocal => do
      let value ← pop
      store (← localAddress operand) value
  | .loadLocalAddress => push (← localAddress operand).pack
  | .loadArgumentAddress => push (← argument operand).pack
  | .deref => push (← deref (← popAddress)).pack
  | .getTag => push ⟨(← pop).tag.code⟩
  | .getAddress => push (← popAddress).pack
  | .tagReference => applyTag .reference
  | .tagCompound => applyTag .compound
  | .tagFunctor => applyTag .functor
  | .tagConstant => applyTag .constant
  | .tagList => applyTag .list
  | .bind => do
      let first ← popAddress
      bindVariable first (← popAddress)
  | .loadHeapTop => push ((← get).register .topOfHeap).pack
  | .storeHeapTop => setHeapTop (← popAddress)
  | .loadCutBase => push (← get).registers.cutBase.pack
  | .storeCutBase => do
      let base ← popAddress
      setRegisters fun registers => { registers with cutBase := base }
  | .increment => push ⟨(← pop).bits + 1⟩
  | .add => do
      let first ← pop
      let second ← pop
      push ⟨first.bits + second.bits⟩
  | .allocate => enterClause operand.toNat
  | .deallocate => leaveClause operand.toNat
  | .call => call operand
  | .branchEqual => branchIf true (.code (position + operand.toInt32))
  | .branchNotEqual => branchIf false (.code (position + operand.toInt32))
  | .branchAlways => jump (.code (position + operand.toInt32))
  | .branchAbsolute => jump (.code operand.toInt32)
  | .choicePoint => choicePoint operand
  | .choicePointRelative => choicePoint (position + operand.toInt32).toUInt32
  | .getLevel => push ⟨(← get).level.toUInt64⟩
  | .cut => cut (← popAddress).offset.toNatClampNeg
  | .trace => reportTrace ⟨operand⟩ .enter
  | .endTrace => reportTrace ⟨operand⟩ .exit
  | .nop | .halt | .fail | .unify | .proceed | .native => return

/-- Executes an instruction that was fetched at a position. -/
def execute (steps : Nat) (position : Int32) (opcode : Opcode)
    (operand : UInt32) : MachineM Status := do
  match opcode with
  | .halt => return .solved
  | .fail => fail
  | .unify => do
      let first ← popAddress
      let second ← popAddress
      require (← unify steps first second)
  | .proceed => do
      let continuation := (← get).registers.continuation
      jump continuation
      return if continuation.offset < 0 then .solved else .running
  | .native => callNative steps operand.toNat
  | _ => do
      perform position opcode operand
      return .running

/-- Fetches the instruction at a position and its operand. -/
@[inline]
def fetch (position : Int32) : MachineM (Opcode × UInt32) :=
  read fun machine => do
    let word ← machine.program.fetch position
    match Opcode.decode? word with
    | none => .error (.unknownOpcode word position)
    | some opcode =>
        if opcode.hasOperand then
          return (opcode, ← machine.program.fetch (position + 1))
        else
          return (opcode, 0)

/-- Executes the next instruction.  The bound limits the pairs of terms that
one unification may compare. -/
def step (steps : Nat) : MachineM Status := do
  let position := (← get).registers.instruction.offset
  let (opcode, operand) ← fetch position
  jump (.code (position + Int32.ofNat opcode.size))
  report (.stepped position opcode operand)
  execute steps position opcode operand

/-- Executes instructions until the run is over or has to wait, for a bounded
number of steps. -/
def run : Nat → MachineM Status
  | 0 => return .running
  | steps + 1 => do
      match ← step steps with
      | .running => run steps
      | status => return status

/-- Gets ready to run the code at an entry with new variables as its arguments.
The variables are the first heap cells, in the order of the arguments. -/
def start (entry : UInt32) (argumentCount : Nat) : MachineM Unit := do
  report (.started entry.toNat argumentCount)
  modify Machine.reset
  let capacity := (← get).store.heap.size
  if capacity < argumentCount then
    throw (.exhausted .heap capacity)
  let cells := (List.range argumentCount).map fun index =>
    Address.heap (Int32.ofNat index)
  modify fun machine =>
    { machine with
      store.heap :=
        cells.foldl
          (fun heap cell =>
            heap.setIfInBounds cell.offset.toNatClampNeg
              (.reference cell))
          machine.store.heap
      store.heapTop := Int32.ofNat argumentCount }
  cells.reverse.forM fun cell => push (.reference cell)
  jump (.code entry.toInt32)

/-- The outcome of a native predicate of the embedding program. -/
def reply (answer : Bool) : MachineM Status :=
  require answer

/-- Goes on with a run that is not over. -/
def proceed (steps : Nat) (status : Status) : MachineM Status :=
  match status with
  | .running => run steps
  | _ => return status

/-- Goes on with the answer of the embedding program. -/
def answer (steps : Nat) (success : Bool) : MachineM Status := do
  proceed steps (← reply success)

/-- Goes back to the newest choice point and runs from there. -/
def resume (steps : Nat) : MachineM Status := do
  proceed steps (← fail)

end MachineM

end LogicMachine
