import LogicMachine.Code.Opcode

/-!
# Code listings

A listing reads code words back as instructions with their operands.  Words that
are no instruction are listed as they are.
-/

namespace LogicMachine

/-- One line of a code listing. -/
inductive CodeLine where
  | plain (opcode : Opcode)
  | operand (opcode : Opcode) (value : Int32)
  /-- A word that is no instruction. -/
  | raw (word : UInt32)
  deriving DecidableEq

namespace CodeLine

/-- Lists code word by word.  An instruction that takes an operand but stands
at the end is listed without one. -/
def list : List UInt32 → List CodeLine
  | [] => []
  | [word] =>
      match Opcode.decode? word with
      | some opcode => [.plain opcode]
      | none => [.raw word]
  | word :: next :: rest =>
      match Opcode.decode? word with
      | some opcode =>
          if opcode.hasOperand then
            .operand opcode next.toInt32 :: list rest
          else
            .plain opcode :: list (next :: rest)
      | none => .raw word :: list (next :: rest)

end CodeLine

end LogicMachine
