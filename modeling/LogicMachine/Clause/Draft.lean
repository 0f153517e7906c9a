import LogicMachine.Code.Assembler
import LogicMachine.Code.Program
import LogicMachine.Term.List

/-!
# Clauses under compilation

Compiling a clause needs the code written so far and the local slots given to
the variables of the clause.  Of the program it needs two things only: the
numbers of functors and the entries of the predicates that are called.
-/

namespace LogicMachine

/-- The state of compiling one clause. -/
structure Draft where
  assembler : Assembler
  /-- The slots of the variables met so far. -/
  slots : List (String × Local)
  /-- Two working slots shared by all matches of the head: the cell that is
  matched and the place inside it.  They are set aside at their first use. -/
  working : Option (Local × Local)
  /-- The slot that keeps the level to cut back to. -/
  cutLevel : Option Local
  deriving Inhabited

namespace Draft

def empty : Draft :=
  ⟨.empty, [], none, none⟩

end Draft

/-- What numbers functors and knows the entries of predicates. -/
class Linker (m : Type → Type) extends Monad m, MonadExceptOf Fault m where
  intern : Functor → m FunctorId
  entryOf : Functor → m Nat

instance : Linker ProgramM where
  intern := ProgramM.intern
  entryOf := ProgramM.entryOf

/-- Actions that compile a clause.  What they did to the program stays when
the clause turns out to be malformed. -/
abbrev ClauseM (m : Type → Type) := StateT Draft m

/-- The cases that compiling a term distinguishes. -/
inductive Shape where
  /-- The variable that is never bound. -/
  | void
  | variable (name : String)
  | constant (functor : Functor)
  /-- A structure with its functor, or a list pair without one. -/
  | compound (functor : Option Functor) (args : List Term)

namespace Shape

/-- The case of a term.  List cells have exactly two arguments. -/
def of (term : Term) : Except Fault Shape :=
  match term with
  | .atom name => .ok (.constant (.constant name))
  | .var name =>
      if name = Term.anonymous then .ok .void else .ok (.variable name)
  | .compound functor args =>
      if functor = Term.listFunctor then
        if args.length = 2 then .ok (.compound none args)
        else .error (.malformed (.listArity ⟨functor, args⟩))
      else if args.isEmpty then
        .ok (.constant (.constant functor))
      else
        .ok (.compound (some ⟨functor, args.length⟩) args)

end Shape

/-- Whether a variable has a slot already. -/
inductive Occurrence where
  | first (slot : Local)
  | again (slot : Local)

namespace ClauseM

variable {m : Type → Type} [Linker m]

def emit (items : List Item) : ClauseM m Unit :=
  modify fun draft =>
    { draft with assembler := draft.assembler.addAll items }

def newLocal : ClauseM m Local :=
  modifyGet fun draft =>
    let (slot, assembler) := draft.assembler.newLocal
    (slot, { draft with assembler })

def newLabel : ClauseM m Label :=
  modifyGet fun draft =>
    let (label, assembler) := draft.assembler.newLabel
    (label, { draft with assembler })

/-- The number of a functor. -/
def intern (functor : Functor) : ClauseM m FunctorId :=
  liftM (Linker.intern functor : m FunctorId)

def shape (term : Term) : ClauseM m Shape :=
  match Shape.of term with
  | .ok shape => return shape
  | .error fault => throw fault

/-- The slot of a variable, set aside when the variable is first met. -/
def occurrence (name : String) : ClauseM m Occurrence := do
  match (← get).slots.lookup name with
  | some slot => return .again slot
  | none =>
      let slot ← newLocal
      modify fun draft =>
        { draft with slots := (name, slot) :: draft.slots }
      return .first slot

/-- The two working slots. -/
def working : ClauseM m (Local × Local) := do
  match (← get).working with
  | some slots => return slots
  | none =>
      let subject ← newLocal
      let cursor ← newLocal
      modify fun draft => { draft with working := some (subject, cursor) }
      return (subject, cursor)

end ClauseM

/-! ## Pieces of code that work on the top of the heap -/

namespace Item

/-- Pushes the address of the next free heap cell. -/
def top : Item :=
  .plain .loadHeapTop

/-- Claims the next heap cell. -/
def claimCell : List Item :=
  [top, .plain .increment, .plain .storeHeapTop]

/-- Puts a functor cell in the second free heap cell and claims both. -/
def claimHeader (functor : FunctorId) : List Item :=
  [top, .plain .increment, .operand .loadConstant functor.index,
    .plain .tagFunctor, .plain .store,
    top, .operand .loadConstant 2, .plain .add, .plain .storeHeapTop]

/-- Pushes a constant. -/
def constant (functor : FunctorId) : List Item :=
  [.operand .loadConstant functor.index, .plain .tagConstant]

/-- Makes an unbound variable in the next heap cell, and keeps a reference to
it in a slot if there is one. -/
def freshVariable (slot : Option Local) : List Item :=
  [top, .plain .duplicate, .plain .tagReference, .plain .store] ++
    (match slot with
      | some slot => [top, .plain .load, onLocal .storeLocal slot]
      | none => []) ++
    claimCell

end Item

end LogicMachine
