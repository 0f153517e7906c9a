import LogicMachine.Term.Printer
import LogicMachine.Store.Word

/-!
# Faults

Everything that can end a run besides a goal that simply fails.  An error is
reported to whoever asked for the run, and the next query starts afresh.  A
crash is a broken promise of the code that was run and ends the whole session.
Divergence marks a loop that follows a cycle for ever.
-/

namespace LogicMachine

/-- The bounded memory segments. -/
inductive Segment where
  | heap
  | stack
  | retained
  | code
  deriving DecidableEq, Inhabited

namespace Segment

def name : Segment → String
  | .heap => "heap"
  | .stack => "stack"
  | .retained => "retained"
  | .code => "code"

/-- The segment with a given name. -/
def ofName? (name : String) : Option Segment :=
  [heap, stack, retained, code].find? fun segment => segment.name == name

end Segment

/-- What is wrong with a term or with its cells. -/
inductive Defect where
  /-- A list cell has a head and a tail and nothing else. -/
  | listArity (cell : Goal)
  /-- A branch refers to a label that was never placed. -/
  | unplacedLabel (label : Nat)
  /-- A cell that is no part of any term. -/
  | unreadable (cell : Cell) (address : Address)
  /-- A structure whose header is no functor cell. -/
  | missingFunctor (address : Address) (found : Cell)
  | unknownFunctor (id : FunctorId)
  /-- A defect found by a predicate of the embedding program. -/
  | reported (text : String)
  deriving DecidableEq

namespace Defect

def message : Defect → String
  | .listArity cell =>
      "list cell with " ++ toString cell.arity ++ " arguments: " ++ cell.render
  | .unplacedLabel label => "branch to unmarked label L" ++ toString label
  | .unreadable cell address =>
      "cannot rebuild a term from " ++ cell.describe ++ " at " ++ address.render
  | .missingFunctor address found =>
      "expected a functor cell at " ++ address.render ++ ", found " ++
        found.describe
  | .unknownFunctor id => "unknown functor index " ++ toString id.index.toNat
  | .reported text => text

end Defect

/-- A broken promise of the code that was run. -/
inductive Crash where
  /-- Only cells have neighbours; code addresses and registers do not. -/
  | immovable (address : Address)
  /-- The quotient of two integers is no 64-bit integer. -/
  | quotientOverflow
  /-- The quotient that defines a remainder is no 64-bit integer. -/
  | remainderOverflow
  deriving DecidableEq

namespace Crash

def message : Crash → String
  | .immovable address =>
      "address arithmetic on non-offsettable " ++ address.describe
  | .quotientOverflow => "attempt to divide with overflow"
  | .remainderOverflow =>
      "attempt to calculate the remainder with overflow"

end Crash

inductive Fault where
  | exhausted (segment : Segment) (capacity : Nat)
  | invalidAddress (address : Address)
  | unknownOpcode (word : UInt32) (position : Int32)
  | malformed (defect : Defect)
  | unknownNative (index : Nat)
  | stackUnderflow
  | crash (cause : Crash)
  | diverged
  deriving DecidableEq

namespace Fault

def message : Fault → String
  | .exhausted segment capacity =>
      segment.name ++ " segment exhausted (capacity " ++ toString capacity ++ ")"
  | .invalidAddress address => "invalid address `" ++ address.render ++ "`"
  | .unknownOpcode word position =>
      "unknown opcode `0x" ++ Text.paddedHexadecimal 8 word.toNat ++ "` at " ++
        toString position.toInt
  | .malformed defect => "malformed term: " ++ defect.message
  | .unknownNative index =>
      "no callback registered at index " ++ toString index
  | .stackUnderflow => "operand stack underflow"
  | .crash cause => cause.message
  | .diverged => "the computation follows a cycle"

/-- Puts another value in the place of an error.  A crash cannot be caught. -/
def recover (instead : Fault → α) : Except Fault α → Except Fault α
  | .error (.crash cause) => .error (.crash cause)
  | .error fault => .ok (instead fault)
  | .ok value => .ok value

end Fault

namespace Address

/-- The address a number of cells further on; there is none beside a code
address or a register. -/
def shift (address : Address) (delta : Int32) : Except Fault Address :=
  match address.shift? delta with
  | some moved => .ok moved
  | none => .error (.crash (.immovable address))

end Address

end LogicMachine
