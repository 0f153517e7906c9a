import LogicMachine.Fault
import LogicMachine.Text.Decimal

/-!
# Integer arithmetic

Integers are 64 bits wide.  An operation whose exact result does not fit has no
value, and neither has a division by zero.  Two operations do not check their
result: the floored quotient and the floored remainder of the least integer by
minus one crash.
-/

namespace LogicMachine

namespace Arithmetic

def least : Int := -9223372036854775808

def greatest : Int := 9223372036854775807

/-- The value, if it is a 64-bit integer. -/
def checked (value : Int) : Option Int :=
  if least ≤ value ∧ value ≤ greatest then some value else none

/-- The integer that a name spells. -/
def integer? (name : String) : Option Int :=
  (Text.readInt name).bind checked

/-- Quotient rounded toward zero. -/
def truncatedQuotient (left right : Int) : Option Int :=
  if right = 0 then none else checked (left.tdiv right)

/-- Quotient rounded down. -/
def flooredQuotient (left right : Int) : Except Crash (Option Int) :=
  if right = 0 then .ok none
  else if left = least ∧ right = -1 then .error .quotientOverflow
  else .ok (some (left.fdiv right))

/-- Remainder of the quotient rounded down; it has the sign of the divisor. -/
def flooredRemainder (left right : Int) : Except Crash (Option Int) :=
  if right = 0 then .ok none
  else if left = least ∧ right = -1 then .error .remainderOverflow
  else .ok (some (left.fmod right))

/-- The value of a functor at integers.  Functors that are no operation have
none. -/
def apply (name : String) (args : List Int) : Except Crash (Option Int) :=
  match name, args with
  | "-", [value] => .ok (checked (-value))
  | "+", [value] => .ok (some value)
  | "abs", [value] => .ok (checked value.natAbs)
  | "+", [left, right] => .ok (checked (left + right))
  | "-", [left, right] => .ok (checked (left - right))
  | "*", [left, right] => .ok (checked (left * right))
  | "//", [left, right] => .ok (truncatedQuotient left right)
  | "div", [left, right] => flooredQuotient left right
  | "mod", [left, right] => flooredRemainder left right
  | "min", [left, right] => .ok (some (min left right))
  | "max", [left, right] => .ok (some (max left right))
  | _, _ => .ok none

end Arithmetic

end LogicMachine
