import LogicMachine.Text.Printable

/-!
# Quoted text

The written form of a text literal: double quotes around the characters, a
backslash before a quote or a backslash, short escapes for the four common
control characters, and the hexadecimal code point in braces for every other
character that has no visible form of its own.
-/

namespace LogicMachine

namespace Text

/-- The lower-case hexadecimal digits of a number, without leading zeros. -/
def hexadecimal (value : Nat) : String :=
  String.ofList (Nat.toDigits 16 value)

/-- Hexadecimal digits filled up with zeros on the left to a given width. -/
def paddedHexadecimal (width value : Nat) : String :=
  let digits := Nat.toDigits 16 value
  String.ofList (List.replicate (width - digits.length) '0' ++ digits)

/-- The written form of one character inside quotes. -/
def escape (char : Char) : String :=
  match char with
  | '\x00' => "\\0"
  | '\t' => "\\t"
  | '\n' => "\\n"
  | '\r' => "\\r"
  | '"' => "\\\""
  | '\\' => "\\\\"
  | _ =>
      if isPrintable char then
        String.singleton char
      else
        "\\u\x7b" ++ hexadecimal char.toNat ++ "\x7d"

/-- The written form of a whole text. -/
def quote (text : String) : String :=
  "\"" ++ String.join (text.toList.map escape) ++ "\""

end Text

end LogicMachine
