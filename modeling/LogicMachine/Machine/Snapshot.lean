import LogicMachine.Machine.Basic

/-!
# Snapshots

Two written forms of a whole machine.  A summary is one line with the registers
and the size of the trail.  A snapshot also shows the live part of the operand
stack and the extent of the program.
-/

namespace LogicMachine

namespace Snapshot

/-- Writes named fields between braces after a name. -/
def fields (name : String) (entries : List (String × String)) : String :=
  name ++ " \x7b " ++
    String.intercalate ", "
      (entries.map fun (label, value) => label ++ ": " ++ value) ++
    " \x7d"

/-- Writes a name together with how it is stored: short names are kept in
place and the empty one needs no storage. -/
def name (text : String) : String :=
  let storage :=
    if text.utf8ByteSize = 0 then "static"
    else if text.utf8ByteSize ≤ 7 then "inline"
    else "dynamic"
  "Atom('" ++ text ++ "' type=" ++ storage ++ ")"

def functor (functor : Functor) : String :=
  fields "FunctorDescriptor"
    [("name", name functor.name), ("arity", toString functor.arity)]

def registers (machine : Machine) : String :=
  fields "Registers"
    [("h", (machine.register .topOfHeap).describe),
      ("p", (machine.register .instructionPointer).describe),
      ("e", (machine.register .environment).describe),
      ("cp", (machine.register .continuationPointer).describe),
      ("b0", (machine.register .choicePointBase).describe),
      ("r", (machine.register .nextRetained).describe)]

def predicates (program : Program) : String :=
  let entries := program.predicates.toList.map fun (key, predicate) =>
    functor key ++ ": " ++ predicate.describe
  "\x7b" ++ String.intercalate ", " entries ++ "\x7d"

def program (program : Program) : String :=
  fields "Program"
    [("top", toString program.top),
      ("functors", toString program.functors.size),
      ("predicates", predicates program),
      ("callbacks", toString program.natives.size)]

end Snapshot

namespace Machine

/-- The registers, the trail level and the number of trail records. -/
def summary (machine : Machine) : String :=
  let registers : List Register :=
    [.topOfHeap, .nextRetained, .stackPointer, .instructionPointer,
      .environment, .continuationPointer, .choicePointBase]
  String.intercalate " "
    (registers.map (fun register => (machine.register register).render) ++
      [toString machine.level, toString machine.store.trail.recordCount])

/-- The registers, the stack and the extent of the program. -/
def snapshot (machine : Machine) : String :=
  Snapshot.fields "Machine"
    [("registers", Snapshot.registers machine),
      ("stack",
        "[" ++ String.intercalate ", "
          (machine.store.liveStack.map Word.describe) ++ "]"),
      ("trail_level", toString machine.level),
      ("program", Snapshot.program machine.program)]

end Machine

end LogicMachine
