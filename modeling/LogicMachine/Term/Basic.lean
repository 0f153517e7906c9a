/-!
# Terms, goals and rules

A term is an atom, a variable or a functor name with a list of argument terms.
Goals and rule heads are functor names with arguments too, but they are never
variables, so they have a type of their own.  A rule is a head and the list of
goals that have to be solved for it; a rule without goals is a fact.
-/

namespace LogicMachine

/-- First-order terms.  A compound may have no arguments; it is then a term
different from the atom of the same name, although both print alike. -/
inductive Term where
  | atom (name : String)
  | var (name : String)
  | compound (functor : String) (args : List Term)
  deriving Inhabited

/-- A goal to be solved, or the head of a rule. -/
structure Goal where
  functor : String
  args : List Term
  deriving Inhabited

/-- A clause: its head holds whenever all of its goals do. -/
structure Rule where
  head : Goal
  goals : List Goal
  deriving Inhabited

namespace Term

mutual

/-- Structural equality of terms is decidable. -/
def decEq : (left right : Term) → Decidable (left = right)
  | .atom name, .atom other =>
      if same : name = other then .isTrue (by rw [same])
      else .isFalse (by simp [same])
  | .var name, .var other =>
      if same : name = other then .isTrue (by rw [same])
      else .isFalse (by simp [same])
  | .compound functor args, .compound other others =>
      if same : functor = other then
        match decEqArgs args others with
        | .isTrue sameArgs => .isTrue (by rw [same, sameArgs])
        | .isFalse different => .isFalse (by simp [different])
      else .isFalse (by simp [same])
  | .atom _, .var _ | .atom _, .compound _ _
  | .var _, .atom _ | .var _, .compound _ _
  | .compound _ _, .atom _ | .compound _ _, .var _ => .isFalse nofun

/-- Structural equality of argument lists is decidable. -/
def decEqArgs : (left right : List Term) → Decidable (left = right)
  | [], [] => .isTrue rfl
  | [], _ :: _ | _ :: _, [] => .isFalse nofun
  | first :: rest, other :: others =>
      match decEq first other with
      | .isFalse different => .isFalse (by simp [different])
      | .isTrue same =>
          match decEqArgs rest others with
          | .isTrue sameRest => .isTrue (by rw [same, sameRest])
          | .isFalse different => .isFalse (by simp [different])

end

instance : DecidableEq Term := decEq

mutual

/-- The variable names of a term from left to right, repeats included. -/
def vars : Term → List String
  | .atom _ => []
  | .var name => [name]
  | .compound _ args => varsOf args

/-- The variable names of an argument list from left to right. -/
def varsOf : List Term → List String
  | [] => []
  | term :: rest => term.vars ++ varsOf rest

end

mutual

/-- The number of compounds in a term, itself included. -/
def compounds : Term → Nat
  | .atom _ | .var _ => 0
  | .compound _ args => compoundsOf args + 1

/-- The number of compounds in an argument list. -/
def compoundsOf : List Term → Nat
  | [] => 0
  | term :: rest => term.compounds + compoundsOf rest

end

/-- The name of an atom; a compound without arguments counts as one. -/
def atomName? : Term → Option String
  | .atom name => some name
  | .compound functor [] => some functor
  | _ => none

/-- The variable that never shares a binding with another occurrence. -/
def anonymous : String := "_"

end Term

deriving instance DecidableEq for Goal
deriving instance DecidableEq for Rule

namespace Goal

def arity (goal : Goal) : Nat :=
  goal.args.length

/-- The goal as a term. -/
def toTerm (goal : Goal) : Term :=
  .compound goal.functor goal.args

/-- A term read as a goal.  Atoms become goals without arguments; a variable
cannot be solved before it is bound. -/
def ofTerm? : Term → Option Goal
  | .atom name => some ⟨name, []⟩
  | .compound functor args => some ⟨functor, args⟩
  | .var _ => none

/-- The variable names of a goal from left to right, repeats included. -/
def vars (goal : Goal) : List String :=
  Term.varsOf goal.args

/-- The goal that commits to the choices made so far. -/
def cut : Goal :=
  ⟨"!", []⟩

def isCut (goal : Goal) : Bool :=
  goal.args.isEmpty && goal.functor == "!"

end Goal

namespace Rule

/-- A rule that holds unconditionally. -/
def fact (head : Goal) : Rule :=
  ⟨head, []⟩

end Rule

end LogicMachine
