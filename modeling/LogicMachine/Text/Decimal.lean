/-!
# Decimal numerals

Atoms spell integers in decimal.  A numeral is an optional sign followed by at
least one digit of the basic range; leading zeros are allowed, blanks and
separators are not.  Natural numerals take a plus sign only.
-/

namespace LogicMachine

namespace Text

/-- Value of one decimal digit. -/
def digitValue? (char : Char) : Option Nat :=
  if '0' ≤ char ∧ char ≤ '9' then some (char.toNat - '0'.toNat) else none

/-- Reads digits on the right of an already read number. -/
def readDigits (value : Nat) : List Char → Option Nat
  | [] => some value
  | char :: rest =>
      match digitValue? char with
      | some digit => readDigits (value * 10 + digit) rest
      | none => none

/-- Reads a nonempty run of digits. -/
def readUnsigned : List Char → Option Nat
  | [] => none
  | digits => readDigits 0 digits

/-- Reads a natural numeral, with an optional plus sign. -/
def readNat (text : String) : Option Nat :=
  match text.toList with
  | '+' :: rest => readUnsigned rest
  | digits => readUnsigned digits

/-- Reads an integer numeral, with an optional sign. -/
def readInt (text : String) : Option Int :=
  match text.toList with
  | '+' :: rest => (readUnsigned rest).map fun value => (value : Int)
  | '-' :: rest => (readUnsigned rest).map fun value => -(value : Int)
  | digits => (readUnsigned digits).map fun value => (value : Int)

end Text

end LogicMachine
