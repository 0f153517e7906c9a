import LogicMachine.Term.List
import LogicMachine.Text.Quoted

/-!
# The written form of terms

Compounds are written with their arguments in parentheses, lists in brackets
with a bar before the end of a partial list, and text literals in quotes.  A
wrapper of code points that do not spell a text is written like any other
compound.
-/

namespace LogicMachine

namespace Term

/-- Whether a term is written on its own or as what follows the items of a
list that has already been opened. -/
inductive Position where
  | alone
  | tail
  deriving DecidableEq

/-- The empty list is written as a pair of brackets. -/
def renderName (name : String) : String :=
  if name = emptyListName then "[]" else name

/-- Writes a term that is no list cell.  At the end of a list it comes after a
bar, and the empty list is not written at all. -/
def place (position : Position) (isEmpty : Bool) (text : String) : String :=
  match position with
  | .alone => text
  | .tail => if isEmpty then "" else " | " ++ text

mutual

/-- Writes a term in a given position. -/
def renderAt (position : Position) : Term → String
  | .atom name => place position (name == emptyListName) (renderName name)
  | .var name => place position false name
  | .compound functor [] =>
      place position (functor == emptyListName) (renderName functor)
  | .compound functor [argument] =>
      let spelled := if functor = textFunctor then argument.text? else none
      match spelled with
      | some text => place position false (Text.quote text)
      | none =>
          place position false
            (functor ++ "(" ++ renderAt .alone argument ++ ")")
  | .compound functor [head, tail] =>
      if functor = listFunctor then
        let items := renderAt .alone head ++ renderAt .tail tail
        match position with
        | .alone => "[" ++ items ++ "]"
        | .tail => ", " ++ items
      else
        place position false
          (functor ++ "(" ++ renderAt .alone head ++ ", " ++
            renderAt .alone tail ++ ")")
  | .compound functor (first :: second :: third :: rest) =>
      place position false
        (functor ++ "(" ++ renderAt .alone first ++ ", " ++
          renderAt .alone second ++ ", " ++ renderAt .alone third ++
          renderRest rest ++ ")")

/-- Writes the remaining arguments, each after a comma. -/
def renderRest : List Term → String
  | [] => ""
  | term :: rest => ", " ++ renderAt .alone term ++ renderRest rest

end

/-- The written form of a term. -/
def render (term : Term) : String :=
  term.renderAt .alone

end Term

namespace Goal

/-- The written form of a goal. -/
def render (goal : Goal) : String :=
  goal.toTerm.render

end Goal

namespace Rule

/-- The written form of a rule, ended by a full stop. -/
def render (rule : Rule) : String :=
  match rule.goals with
  | [] => rule.head.render ++ "."
  | goals =>
      rule.head.render ++ " :- " ++
        String.intercalate ", " (goals.map Goal.render) ++ "."

end Rule

end LogicMachine
