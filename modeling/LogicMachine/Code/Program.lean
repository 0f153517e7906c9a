import LogicMachine.Code.Event
import LogicMachine.Fault
import LogicMachine.Code.Native
import Std.Data.TreeMap

/-!
# Programs

A program is the code segment with everything that refers to it: the interned
functors, the dispatch code of the predicates and the native predicates.  It
also keeps the journal, because linking is reported before any machine runs.

Dispatch code takes four words for each clause.  The last clause of a predicate
is entered by a jump; the others open a choice point at the dispatch code of
the next clause first.  A predicate without clauses fails.
-/

namespace LogicMachine

structure Program where
  code : Array UInt32
  /-- The first free code word. -/
  top : Nat
  functors : FunctorTable
  predicates : Std.TreeMap Functor Predicate
  natives : Array Native
  journal : Journal
  deriving Inhabited

/-- Actions on a program.  The changes made before a fault stay. -/
abbrev ProgramM := EStateM Fault Program

/-- The number of code words in one piece of dispatch code. -/
def dispatchSize : Nat := 4

/-- The dispatch code of a predicate without clauses. -/
def dispatchUndefined : List UInt32 :=
  [Opcode.fail.encode, Opcode.nop.encode, Opcode.nop.encode, Opcode.nop.encode]

/-- The dispatch code of the last clause of a predicate. -/
def dispatchLast (clause : Nat) : List UInt32 :=
  [Opcode.nop.encode, Opcode.nop.encode, Opcode.branchAbsolute.encode,
    clause.toUInt32]

/-- The first words of the dispatch code of any other clause. -/
def dispatchNext (next : Nat) : List UInt32 :=
  [Opcode.choicePoint.encode, next.toUInt32]

namespace Program

/-- A program whose only code is the instruction that ends a run. -/
def empty (codeSize : Nat) (journal : Journal) : Program where
  code :=
    (Array.replicate (max codeSize dispatchSize) 0).setIfInBounds 0
      Opcode.halt.encode
  top := 1
  functors := .empty
  predicates := {}
  natives := #[]
  journal := journal

/-- The code in use. -/
def liveCode (program : Program) : List UInt32 :=
  program.code.toList.take program.top

@[inline]
def fetch (program : Program) (position : Int32) : Except Fault UInt32 :=
  let found :=
    if position < 0 then none else program.code[position.toNatClampNeg]?
  match found with
  | some word => .ok word
  | none => .error (.invalidAddress (.code position))

def predicate? (program : Program) (functor : Functor) : Option Predicate :=
  program.predicates[functor]?

/-- Overwrites consecutive code words. -/
def writeWords (code : Array UInt32) (position : Nat) :
    List UInt32 → Array UInt32
  | [] => code
  | word :: rest =>
      writeWords (code.setIfInBounds position word) (position + 1) rest

end Program

namespace ProgramM

/-- Enters an event in the journal. -/
@[inline]
def report (event : Event) : ProgramM Unit :=
  modify fun program => { program with journal := program.journal.add event }

/-- Overwrites code words, which have to lie inside the segment. -/
def write (position : Nat) (words : List UInt32) : ProgramM Unit := do
  let capacity := (← get).code.size
  if capacity < position + words.length then
    throw (.exhausted .code capacity)
  else
    modify fun program =>
      { program with code := Program.writeWords program.code position words }

/-- Adds code at the top and returns its address. -/
def append (words : List UInt32) : ProgramM Nat := do
  let position := (← get).top
  write position words
  modify fun program => { program with top := position + words.length }
  return position

/-- Gives code back if it is what was added last. -/
def release (start stop : Nat) : ProgramM Bool := do
  if stop = (← get).top ∧ start ≤ stop then
    modify fun program => { program with top := start }
    return true
  else
    return false

/-- The number of a functor. -/
def intern (functor : Functor) : ProgramM FunctorId :=
  modifyGet fun program =>
    let (id, functors) := program.functors.intern functor
    (id, { program with functors })

/-- The entry of a predicate.  One that is not known yet gets dispatch code
that fails until a clause is added. -/
def entryOf (functor : Functor) : ProgramM Nat := do
  match (← get).predicate? functor with
  | some predicate => return predicate.entry
  | none =>
      let entry ← append dispatchUndefined
      report (.forwardReference functor entry)
      modify fun program =>
        { program with
          predicates := program.predicates.insert functor (.undefined entry) }
      return entry

/-- Adds the dispatch code of a clause and returns where the predicate stands
then. -/
def dispatch (predicate : Option Predicate) (clause : Nat) :
    ProgramM Predicate := do
  match predicate with
  | none => return .single (← append (dispatchLast clause))
  | some (.undefined entry) =>
      write entry (dispatchLast clause)
      return .single entry
  | some (.single entry) =>
      let last ← append (dispatchLast clause)
      write entry (dispatchNext last)
      return .chain entry last
  | some (.chain entry previous) =>
      let last ← append (dispatchLast clause)
      write previous (dispatchNext last)
      return .chain entry last

/-- Makes the code at an address the last clause of a predicate. -/
def addClause (functor : Functor) (clause : Nat) : ProgramM Unit := do
  let next ← dispatch ((← get).predicate? functor) clause
  report (.clauseAppended functor clause next)
  modify fun program =>
    { program with predicates := program.predicates.insert functor next }

/-- Adds a native predicate and returns its number. -/
def addNative (native : Native) : ProgramM Nat :=
  modifyGet fun program =>
    (program.natives.size,
      { program with natives := program.natives.push native })

end ProgramM

end LogicMachine
