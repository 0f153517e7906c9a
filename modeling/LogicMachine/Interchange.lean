import LogicMachine.Machine.Basic

/-!
# Interchange documents

Terms, rules, configurations, words and registers can be exchanged as documents
of nested values.  A term is an object with one field named after its kind; the
parts of a compound are named fields too, and fields that are not known are
ignored.  The parts may also be given as a plain array in their fixed order.
-/

namespace LogicMachine

/-- A document.  Numbers that are no integers have no use here, so their value
is not kept. -/
inductive Document where
  | null
  | bool (value : Bool)
  | integer (value : Int)
  | fraction
  | text (value : String)
  | array (items : List Document)
  | object (fields : List (String × Document))
  deriving Inhabited

namespace Document

/-- The field with a given name. -/
def field? (name : String) (fields : List (String × Document)) :
    Option Document :=
  fields.lookup name

def text? : Document → Option String
  | .text value => some value
  | _ => none

def bool? : Document → Option Bool
  | .bool value => some value
  | _ => none

/-- An unsigned 64-bit integer. -/
def unsigned? : Document → Option Nat
  | .integer value =>
      if 0 ≤ value ∧ value.toNat < UInt64.size then some value.toNat else none
  | _ => none

/-- The name of a variable. -/
def variableName? : Document → Option String
  | .object fields => (field? "name" fields).bind text?
  | .array [item] => item.text?
  | _ => none

/-- The functor name among the fields of a compound. -/
def functorField? (fields : List (String × Document)) : Option String :=
  (field? "functor" fields).bind text?

mutual

def term? : Document → Option Term
  | .object [(kind, body)] =>
      match kind with
      | "Atom" => body.text?.map .atom
      | "Variable" => body.variableName?.map .var
      | "Compound" => body.goal?.map Goal.toTerm
      | _ => none
  | _ => none

def goal? : Document → Option Goal
  | .object fields =>
      match functorField? fields, termsField? fields with
      | some functor, some args => some ⟨functor, args⟩
      | _, _ => none
  | .array [functor, args] =>
      match functor.text?, args.termArray? with
      | some functor, some args => some ⟨functor, args⟩
      | _, _ => none
  | _ => none

/-- The arguments among the fields of a compound. -/
def termsField? : List (String × Document) → Option (List Term)
  | [] => none
  | (name, body) :: rest =>
      if name = "terms" then body.termArray? else termsField? rest

def termArray? : Document → Option (List Term)
  | .array items => termList? items
  | _ => none

def termList? : List Document → Option (List Term)
  | [] => some []
  | item :: rest =>
      match item.term?, termList? rest with
      | some term, some terms => some (term :: terms)
      | _, _ => none

end

/-- An array of goals. -/
def goals? : Document → Option (List Goal)
  | .array items => items.mapM goal?
  | _ => none

def rule? : Document → Option Rule
  | .object fields => do
      let head ← (field? "head" fields).bind goal?
      let goals ← (field? "goals" fields).bind goals?
      return ⟨head, goals⟩
  | .array [head, goals] => do
      return ⟨← head.goal?, ← goals.goals?⟩
  | _ => none

/-- The value of an optional field. -/
def optional (read : Document → Option α) (value : α) (name : String)
    (fields : List (String × Document)) : Option α :=
  match field? name fields with
  | none => some value
  | some body => read body

/-- The names of the parts of a configuration in their fixed order. -/
def configNames : List String :=
  ["heap_size", "stack_size", "retained_size", "code_size", "trace"]

/-- A configuration from its parts.  Those that are left out keep their usual
values. -/
def configOfFields? (fields : List (String × Document)) : Option Config := do
  let usual := Config.default
  return {
    heapSize := ← optional unsigned? usual.heapSize "heap_size" fields
    stackSize := ← optional unsigned? usual.stackSize "stack_size" fields
    retainedSize :=
      ← optional unsigned? usual.retainedSize "retained_size" fields
    codeSize := ← optional unsigned? usual.codeSize "code_size" fields
    trace := ← optional bool? usual.trace "trace" fields }

/-- A configuration.  An array may leave out parts at its end only. -/
def config? : Document → Option Config
  | .object fields => configOfFields? fields
  | .array items =>
      if items.length ≤ configNames.length then
        configOfFields? (configNames.zip items)
      else
        none
  | _ => none

def word? (document : Document) : Option Word :=
  document.unsigned?.map fun bits => ⟨bits.toUInt64⟩

def register? : Document → Option Register
  | .text name => Register.ofName? name
  | .object [(name, .null)] => Register.ofName? name
  | _ => none

mutual

def ofTerm : Term → Document
  | .atom name => .object [("Atom", .text name)]
  | .var name => .object [("Variable", .object [("name", .text name)])]
  | .compound functor args =>
      .object [("Compound",
        .object [("functor", .text functor), ("terms", .array (ofTerms args))])]

def ofTerms : List Term → List Document
  | [] => []
  | term :: rest => ofTerm term :: ofTerms rest

end

def ofVariable (name : String) : Document :=
  .object [("name", .text name)]

def ofGoal (goal : Goal) : Document :=
  .object [("functor", .text goal.functor),
    ("terms", .array (ofTerms goal.args))]

def ofRule (rule : Rule) : Document :=
  .object [("head", ofGoal rule.head),
    ("goals", .array (rule.goals.map ofGoal))]

def ofConfig (config : Config) : Document :=
  .object [("heap_size", .integer config.heapSize),
    ("stack_size", .integer config.stackSize),
    ("retained_size", .integer config.retainedSize),
    ("code_size", .integer config.codeSize),
    ("trace", .bool config.trace)]

def ofWord (word : Word) : Document :=
  .integer word.bits.toNat

def ofRegister (register : Register) : Document :=
  .text register.name

end Document

end LogicMachine
