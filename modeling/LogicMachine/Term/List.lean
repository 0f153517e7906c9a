import LogicMachine.Term.Basic
import LogicMachine.Text.Decimal

/-!
# Lists and text literals

Lists and text literals are terms built from reserved names.  A list is a chain
of two-argument cells ended by the empty-list atom, or by any other term when
the list is partial.  A text literal wraps the list of its code points, each
spelled in decimal.
-/

namespace LogicMachine

namespace Term

/-- The functor name of a list cell. -/
def listFunctor : String := "_list"

/-- The name of the empty list. -/
def emptyListName : String := "_emptyList"

/-- The functor name that wraps the code points of a text literal. -/
def textFunctor : String := "_string"

def emptyList : Term :=
  .atom emptyListName

/-- A list cell with a first element and the list after it. -/
def cell (head tail : Term) : Term :=
  .compound listFunctor [head, tail]

/-- The given items followed by a tail. -/
def listWithTail (items : List Term) (tail : Term) : Term :=
  items.foldr cell tail

/-- A proper list. -/
def list (items : List Term) : Term :=
  listWithTail items emptyList

/-- The empty list, as an atom or as a compound without arguments. -/
def isEmptyList : Term → Bool
  | .atom name => name == emptyListName
  | .compound functor [] => functor == emptyListName
  | _ => false

/-- Splits a chain of list cells into its items and the term that ends it. -/
def listParts : Term → List Term × Term
  | .compound functor [head, tail] =>
      if functor = listFunctor then
        let (items, ending) := tail.listParts
        (head :: items, ending)
      else
        ([], .compound functor [head, tail])
  | term => ([], term)

/-- The items of a proper list. -/
def listItems? (term : Term) : Option (List Term) :=
  let (items, ending) := term.listParts
  if ending.isEmptyList then some items else none

/-- The text literal of a text. -/
def ofText (text : String) : Term :=
  .compound textFunctor
    [list (text.toList.map fun char => .atom (toString char.toNat))]

/-- The character with a given code point, if it is the code point of one. -/
def charOfPoint? (point : Nat) : Option Char :=
  if point.isValidChar then some (Char.ofNat point) else none

/-- The character that a code point in decimal stands for. -/
def codePoint? (term : Term) : Option Char := do
  let name ← term.atomName?
  let point ← Text.readNat name
  charOfPoint? point

/-- The text of a list of code points. -/
def text? (codes : Term) : Option String := do
  let items ← codes.listItems?
  let chars ← items.mapM codePoint?
  return String.ofList chars

end Term

end LogicMachine
