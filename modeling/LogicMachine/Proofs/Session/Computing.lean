import LogicMachine.Proofs.Code.Labels
import LogicMachine.Proofs.Control.Trace
import LogicMachine.Session.Solve

/-!
# Sessions that are computed

Reading and writing code are the only steps of a session that take a proof by
computation long: each of them goes through all the words before its position.
So the actions of a session are stated once more with the ways to read and to
write code left open.  They can then be computed with code that is read off one
number and overwritten from end to end, which comes to the same.
-/

namespace LogicMachine

/-! ## Code as a number -/

namespace Program

/-- The code words as the digits of a number, the first one lowest, with a one
above the last. -/
def digits (code : List UInt32) : Nat :=
  code.foldr (fun word rest => word.toNat + 2 ^ 32 * rest) 1

/-- The digit at a position, if the number has one there. -/
def digit? (number position : Nat) : Option UInt32 :=
  let rest := number / 2 ^ (32 * position)
  if rest ≤ 1 then none else some (rest % 2 ^ 32).toUInt32

theorem digits_pos (code : List UInt32) : 0 < digits code := by
  induction code with
  | nil => decide
  | cons word rest ih =>
      simp only [digits, List.foldr_cons] at ih ⊢
      omega

theorem digit?_digits (code : List UInt32) (position : Nat) :
    digit? (digits code) position = code[position]? := by
  induction code generalizing position with
  | nil =>
      have low : digits [] / 2 ^ (32 * position) ≤ 1 := Nat.div_le_self _ _
      rw [digit?, if_pos low, List.getElem?_nil]
  | cons word rest ih =>
      have small := word.toNat_lt
      have positive := digits_pos rest
      have spelled : digits (word :: rest) = word.toNat + 2 ^ 32 * digits rest :=
        rfl
      cases position with
      | zero =>
          have high : ¬ digits (word :: rest) ≤ 1 := by omega
          have lowest : digits (word :: rest) % 2 ^ 32 = word.toNat := by omega
          simp only [digit?, Nat.mul_zero, Nat.pow_zero, Nat.div_one,
            if_neg high, lowest, List.getElem?_cons_zero]
          simp
      | succ position =>
          have shifted : digits (word :: rest) / 2 ^ (32 * (position + 1)) =
              digits rest / 2 ^ (32 * position) := by
            rw [Nat.mul_succ, Nat.add_comm, Nat.pow_add, ← Nat.div_div_eq_div_mul]
            congr 1
            omega
          rw [digit?, shifted, List.getElem?_cons_succ, ← ih position, digit?]

/-- The word at a position, read off the number that the code spells. -/
def fetchDigit (program : Program) (position : Int32) :
    Except Fault UInt32 :=
  let found :=
    if position < 0 then none
    else digit? (digits program.code.toList) position.toNatClampNeg
  match found with
  | some word => .ok word
  | none => .error (.invalidAddress (.code position))

theorem fetchDigit_eq : fetchDigit = fetch := by
  funext program position
  unfold fetchDigit fetch
  rewrite [digit?_digits, Array.getElem?_toList]
  rfl

/-! ## Overwriting code -/

/-- The words with their first ones replaced. -/
noncomputable def cover (code : List UInt32) : List UInt32 → List UInt32 :=
  @List.rec UInt32 (fun _ => List UInt32 → List UInt32) (fun _ => [])
    (fun old rest covered words =>
      @List.rec UInt32 (fun _ => List UInt32) (old :: rest)
        (fun word words _ => word :: covered words) words) code

/-- The words with those from a position on replaced. -/
noncomputable def splice (code : List UInt32) :
    Nat → List UInt32 → List UInt32 :=
  @List.rec UInt32 (fun _ => Nat → List UInt32 → List UInt32) (fun _ _ => [])
    (fun old rest spliced position words =>
      @Nat.rec (fun _ => List UInt32) (cover (old :: rest) words)
        (fun position _ => old :: spliced position words) position) code

/-- The number of words. -/
noncomputable def count (code : List UInt32) : Nat :=
  @List.rec UInt32 (fun _ => Nat) 0 (fun _ _ others => others.succ) code

theorem count_eq (code : List UInt32) : count code = code.length := by
  induction code with
  | nil => rfl
  | cons word rest ih => exact congrArg Nat.succ ih

theorem splice_succ (old : UInt32) (rest : List UInt32) (position : Nat)
    (words : List UInt32) :
    splice (old :: rest) (position + 1) words =
      old :: splice rest position words :=
  rfl

theorem splice_zero (code words : List UInt32) :
    splice code 0 words = cover code words := by
  cases code <;> rfl

theorem splice_nil (code : List UInt32) (position : Nat) :
    splice code position [] = code := by
  induction code generalizing position with
  | nil => rfl
  | cons old rest ih =>
      cases position with
      | zero => rfl
      | succ position => rw [splice_succ, ih]

/-- Words are replaced one after another. -/
theorem splice_cons (code : List UInt32) (position : Nat) (word : UInt32)
    (words : List UInt32) :
    splice code position (word :: words) =
      splice (code.set position word) (position + 1) words := by
  induction code generalizing position with
  | nil => rfl
  | cons old rest ih =>
      cases position with
      | zero =>
          rw [List.set_cons_zero, splice_succ, splice_zero, splice_zero]
          rfl
      | succ position => rw [List.set_cons_succ, splice_succ, splice_succ, ih]

theorem writeWords_eq (code : Array UInt32) (position : Nat)
    (words : List UInt32) :
    writeWords code position words = ⟨splice code.toList position words⟩ := by
  induction words generalizing code position with
  | nil => rw [writeWords, splice_nil]
  | cons word rest ih =>
      rw [writeWords, ih, splice_cons, Array.toList_setIfInBounds]

end Program

namespace ProgramM

/-- Overwrites code words from end to end. -/
noncomputable def splice (position : Nat) (words : List UInt32) :
    ProgramM Unit := do
  let capacity := Program.count (← get).code.toList
  if capacity < position + words.length then
    throw (.exhausted .code capacity)
  else
    modify fun program =>
      { program with code := ⟨Program.splice program.code.toList position words⟩ }

theorem splice_eq : splice = write := by
  funext position words
  simp only [splice, write, Program.count_eq, Program.writeWords_eq,
    Array.length_toList]

end ProgramM

/-! ## Sessions -/

/-- Ways to write code, to finish the words of a clause and to read code. -/
structure Access where
  write : Nat → List UInt32 → ProgramM Unit
  finish : Assembler → Except Fault (List UInt32)
  fetch : Program → Int32 → Except Fault UInt32

namespace Access

/-- Code as sessions treat it. -/
def plain : Access :=
  ⟨ProgramM.write, Assembler.finish, Program.fetch⟩

/-- Code as it is easily computed. -/
noncomputable def quick : Access where
  write := ProgramM.splice
  finish := fun assembler => assembler.words.toList.mapIdxM assembler.resolve
  fetch := Program.fetchDigit

theorem quick_eq_plain : quick = plain := by
  have finish : (fun assembler : Assembler =>
      assembler.words.toList.mapIdxM assembler.resolve) =
        Assembler.finish := by
    funext assembler
    exact assembler.finish_eq.symm
  rw [quick, plain, ProgramM.splice_eq, Program.fetchDigit_eq, finish]

variable (access : Access)

/-! ### Programs -/

def append (words : List UInt32) : ProgramM Nat := do
  let position := (← get).top
  access.write position words
  modify fun program => { program with top := position + words.length }
  return position

def entryOf (functor : Functor) : ProgramM Nat := do
  match (← get).predicate? functor with
  | some predicate => return predicate.entry
  | none =>
      let entry ← access.append dispatchUndefined
      ProgramM.report (.forwardReference functor entry)
      modify fun program =>
        { program with
          predicates := program.predicates.insert functor (.undefined entry) }
      return entry

def dispatch (predicate : Option Predicate) (clause : Nat) :
    ProgramM Predicate := do
  match predicate with
  | none => return .single (← access.append (dispatchLast clause))
  | some (.undefined entry) =>
      access.write entry (dispatchLast clause)
      return .single entry
  | some (.single entry) =>
      let last ← access.append (dispatchLast clause)
      access.write entry (dispatchNext last)
      return .chain entry last
  | some (.chain entry previous) =>
      let last ← access.append (dispatchLast clause)
      access.write previous (dispatchNext last)
      return .chain entry last

def addClause (functor : Functor) (clause : Nat) : ProgramM Unit := do
  let next ← access.dispatch ((← get).predicate? functor) clause
  ProgramM.report (.clauseAppended functor clause next)
  modify fun program =>
    { program with predicates := program.predicates.insert functor next }

def clause (assembler : Assembler) (arity : Nat) :
    Except Fault (List UInt32) := do
  let body ← access.finish assembler
  return [Opcode.allocate.encode, assembler.locals.toUInt32] ++ body ++
    [Opcode.deallocate.encode, arity.toUInt32, Opcode.proceed.encode]

@[reducible]
def linker : Linker ProgramM where
  intern := ProgramM.intern
  entryOf := access.entryOf

def compile (rule : Rule) (trace : Bool) : ProgramM (List UInt32) := do
  let ((), draft) ←
    (@ClauseM.compileRule _ access.linker rule trace).run .empty
  ProgramM.ofExcept (access.clause draft.assembler rule.head.arity)

def addRule (rule : Rule) (trace : Bool) : ProgramM Unit := do
  let code ← access.compile rule trace
  let clause ← access.append code
  ProgramM.report (.ruleCompiled rule clause code.length)
  access.addClause (.ofGoal rule.head) clause

def addCode (functor : Functor) (code : List UInt32) : ProgramM Unit := do
  access.addClause functor (← access.append code)

def defineNative (functor : Functor) (native : Native) : ProgramM Unit := do
  let index ← ProgramM.addNative native
  let body := Assembler.empty.add (.operand .native index.toUInt32)
  let code ← ProgramM.ofExcept (access.clause body functor.arity)
  ProgramM.report (.nativeDefined functor index)
  access.addCode functor code

def install : Definition → ProgramM Unit
  | .assembled functor code => do
      access.addCode functor (← ProgramM.ofExcept code)
  | .native functor builtin => access.defineNative functor (.builtin builtin)
  | .clause rule => access.addRule rule false

def installLibrary : ProgramM Unit := do
  Library.definitions.forM access.install
  ProgramM.report (.builtinsInstalled (← get).top)

/-! ### Machines -/

def fetchInstruction (position : Int32) : MachineM (Opcode × UInt32) :=
  MachineM.read fun machine => do
    let word ← access.fetch machine.program position
    match Opcode.decode? word with
    | none => .error (.unknownOpcode word position)
    | some opcode =>
        if opcode.hasOperand then
          return (opcode, ← access.fetch machine.program (position + 1))
        else
          return (opcode, 0)

def advance : MachineM (Int32 × Opcode × UInt32) := do
  let position := (← get).registers.instruction.offset
  let (opcode, operand) ← access.fetchInstruction position
  MachineM.jump (.code (position + Int32.ofNat opcode.size))
  MachineM.report (.stepped position opcode operand)
  return (position, opcode, operand)

def stepTurn (fuel : Nat) : MachineM (Turn × Status) := do
  let (position, opcode, operand) ← access.advance
  MachineM.executeTurn fuel position opcode operand

def run : Nat → MachineM Status
  | 0 => return .running
  | steps + 1 => do
      match ← Prod.snd <$> access.stepTurn steps with
      | .running => run steps
      | status => return status

/-! ### Sessions -/

def create (config : Config) (journal : Journal) : Except Fault Session :=
  match MachineM.onProgram access.installLibrary
      (Machine.empty config journal) with
  | .ok _ machine => .ok (.ofMachine machine config.trace)
  | .error fault _ => .error fault

def extend (rule : Rule) : SessionM Unit := do
  let trace := (← get).trace
  SessionM.onProgram (access.addRule rule trace)

def compileQuery (rule : Rule) : SessionM Nat := do
  SessionM.releaseScratch
  let code ← SessionM.onProgram (access.compile rule false)
  let entry ← SessionM.onProgram (access.append code)
  let top := (← get).machine.program.top
  modify fun session => { session with scratch := some (entry, top) }
  SessionM.onProgram (ProgramM.report (.queryCompiled rule entry))
  return entry

def query (steps : Nat) (goals : List Goal) : SessionM Status := do
  let rule := Rule.ofQuery goals
  let names := Term.varsOf rule.head.args
  modify fun session => { session with current := .unsolved names }
  let entry ← access.compileQuery rule
  SessionM.onMachine (MachineM.start entry.toUInt32 names.length)
  SessionM.attempt (access.run steps)

def proceed (steps : Nat) (status : Status) : MachineM Status :=
  match status with
  | .running => access.run steps
  | _ => return status

def resume (steps : Nat) : SessionM Status := do
  if (← get).canResume then
    SessionM.attempt do access.proceed steps (← MachineM.fail)
  else
    SessionM.attempt (return .failed)

/-! ### Nothing else than before -/

theorem stepTurn_quick : quick.stepTurn = MachineM.stepTurn := by
  rw [quick_eq_plain]
  rfl

theorem run_quick : quick.run = MachineM.run := by
  funext steps
  induction steps with
  | zero => rfl
  | succ steps ih =>
      unfold run MachineM.run
      rewrite [ih, stepTurn_quick, MachineM.stepTurn_snd]
      rfl

theorem create_quick : quick.create = Session.create := by
  rw [quick_eq_plain]
  rfl

theorem extend_quick : quick.extend = SessionM.addRule := by
  rw [quick_eq_plain]
  rfl

theorem query_quick : quick.query = SessionM.query := by
  funext steps goals
  unfold query SessionM.query
  rewrite [run_quick, quick_eq_plain]
  rfl

theorem resume_quick : quick.resume = SessionM.resume := by
  funext steps
  unfold resume SessionM.resume MachineM.resume proceed MachineM.proceed
  rewrite [run_quick]
  rfl

end Access

namespace Traced

variable {kind : Traced → Prop} [DecidablePred kind]

variable (kind) in
/-- The run a number of steps later, if it goes on so long and meets calls and
choice points of one kind only. -/
noncomputable def later? (traced : Traced) : Nat → Option Traced
  | 0 => some traced
  | count + 1 =>
      match Access.quick.stepTurn 16 traced.machine with
      | .ok (turn, .running) after =>
          if kind (traced.follow turn after) then
            (traced.follow turn after).later? count
          else none
      | _ => none

theorem Through.later {first : Machine} {traced later : Traced} {count : Nat}
    (run : Through kind first traced)
    (computed : later ∈ traced.later? kind count) :
    Through kind first later := by
  induction count generalizing traced with
  | zero =>
      cases computed
      exact run
  | succ count ih =>
      unfold later? at computed
      split at computed
      case h_2 => cases computed
      case h_1 turn after stepped =>
        split at computed
        case isFalse => cases computed
        case isTrue allowed =>
          rw [Access.stepTurn_quick] at stepped
          exact ih (run.goOn (.step stepped (by simp)) allowed) computed

end Traced

namespace Session

/-- A new session is known from a computation of its program. -/
theorem create_eq {config : Config} {journal : Journal} {program : Program}
    (computed : Access.quick.installLibrary.run
      (.empty config.codeSize journal) = .ok () program) :
    create config journal = .ok (.ofMachine
      { Machine.empty config journal with program } config.trace) := by
  have installed : Access.quick.installLibrary
      (.empty config.codeSize journal) = .ok () program := computed
  rw [← Access.create_quick]
  simp only [Access.create, MachineM.onProgram, Machine.empty, installed]

/-- By computation, what a new session is asked for ends without a fault and as
stated. -/
structure Computes (config : Config) (journal : Journal) (action : SessionM α)
    (holds : α → Session → Prop) : Prop where
  ends : Ends
    (Access.quick.installLibrary.run (.empty config.codeSize journal))
    (fun _ program => Ends
      (action.run (.ofMachine { Machine.empty config journal with program }
        config.trace)) holds fun _ _ => False)
    fun _ _ => False

noncomputable instance {config : Config} {journal : Journal}
    {action : SessionM α} {holds : α → Session → Prop}
    [∀ value after, Decidable (holds value after)] :
    Decidable (Computes config journal action holds) :=
  decidable_of_iff _ ⟨Computes.mk, Computes.ends⟩

theorem Computes.exists_session {config : Config} {journal : Journal}
    {action : SessionM α} {holds : α → Session → Prop}
    (computes : Computes config journal action holds) :
    ∃ session value after, create config journal = .ok session ∧
      action session = .ok value after ∧ holds value after := by
  obtain ⟨_, program, installed, ends⟩ := computes.ends.exists_ok
  obtain ⟨value, after, asked, held⟩ := ends.exists_ok
  exact ⟨_, value, after, create_eq installed, asked, held⟩

/-- By computation, the run of the query goes on for a number of steps, and what
is stated holds of it and of one more step. -/
structure Leads (begun : Session) (kind : Traced → Prop) [DecidablePred kind]
    (count : Nat) (holds : Traced → Turn × Status → Machine → Prop) :
    Prop where
  ends : ∃ traced ∈ (Traced.start begun.machine).later? kind count,
    Ends (EStateM.run (Access.quick.stepTurn 16) traced.machine)
      (holds traced) fun _ _ => False

noncomputable instance {begun : Session} {kind : Traced → Prop}
    [DecidablePred kind] {count : Nat}
    {holds : Traced → Turn × Status → Machine → Prop}
    [∀ traced outcome after, Decidable (holds traced outcome after)] :
    Decidable (Leads begun kind count holds) :=
  decidable_of_iff _ ⟨Leads.mk, Leads.ends⟩

theorem Leads.exists_run {begun : Session} {kind : Traced → Prop}
    [DecidablePred kind] {count : Nat}
    {holds : Traced → Turn × Status → Machine → Prop}
    (leads : begun.Leads kind count holds) :
    ∃ traced outcome after, Traced.Through kind begun.machine traced ∧
      MachineM.stepTurn 16 traced.machine = .ok outcome after ∧
      holds traced outcome after := by
  obtain ⟨traced, reached, ends⟩ := leads.ends
  rw [Access.stepTurn_quick] at ends
  obtain ⟨outcome, after, step, held⟩ := ends.exists_ok
  exact ⟨traced, outcome, after, Traced.Through.start.later reached, step, held⟩

end Session

end LogicMachine
