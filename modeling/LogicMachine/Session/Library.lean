import LogicMachine.Code.Assembler
import LogicMachine.Functor
import LogicMachine.Code.Native
import LogicMachine.Term.List

/-!
# The standard library

The predicates that every session starts with.  Type tests and a few control
predicates are assembled by hand, arithmetic and the access to solutions are
native, and the control constructs and list predicates are ordinary clauses.
-/

namespace LogicMachine

/-- One entry of the library. -/
inductive Definition where
  /-- A clause given by its code. -/
  | assembled (functor : Functor) (code : Except Fault (List UInt32))
  | native (functor : Functor) (builtin : Builtin)
  | clause (rule : Rule)

namespace Library

/-! ## Assembled predicates -/

/-- Assembles code that uses a number of local slots and labels. -/
def assemble (locals labels : Nat) (items : List Item) : Assembler :=
  Assembler.addAll ⟨#[], Array.replicate labels none, locals⟩ items

/-- Returns at once. -/
def succeedCode : Except Fault (List UInt32) :=
  (assemble 0 0 []).clause 0

def failCode : Except Fault (List UInt32) :=
  (assemble 0 0 [.plain .fail]).clause 0

/-- Leaves a choice point that comes back to itself, and returns. -/
def repeatCode : Except Fault (List UInt32) :=
  let again : Label := ⟨0⟩
  (assemble 0 1
    [.mark again, .branch .choicePointRelative again, .plain .proceed]).finish

/-- Succeeds if the tag of the argument is among the given ones, or, when they
are not accepted, if it is not. -/
def typeTestCode (tags : List Tag) (accept : Bool) :
    Except Fault (List UInt32) :=
  let tagSlot : Local := ⟨0⟩
  let hit : Label := ⟨0⟩
  let done : Label := ⟨1⟩
  let loadTag : List Item :=
    [.operand .loadArgumentAddress 0, .plain .deref, .plain .load,
      .plain .getTag, Item.onLocal .storeLocal tagSlot]
  let compareTags := tags.flatMap fun tag =>
    [Item.onLocal .loadLocal tagSlot,
      .operand .loadConstant tag.code.toUInt32, .branch .branchEqual hit]
  let decide : List Item :=
    if accept then
      [.plain .fail, .mark hit]
    else
      [.branch .branchAlways done, .mark hit, .plain .fail, .mark done]
  (assemble 1 2 (loadTag ++ compareTags ++ decide)).clause 1

def assembled : List Definition :=
  [.assembled ⟨"true", 0⟩ succeedCode,
    .assembled ⟨"!", 0⟩ succeedCode,
    .assembled ⟨"fail", 0⟩ failCode,
    .assembled ⟨"repeat", 0⟩ repeatCode,
    .assembled ⟨"var", 1⟩ (typeTestCode [.reference] true),
    .assembled ⟨"nonvar", 1⟩ (typeTestCode [.reference] false),
    .assembled ⟨"atom", 1⟩ (typeTestCode [.constant] true),
    .assembled ⟨"atomic", 1⟩ (typeTestCode [.constant, .other] true),
    .assembled ⟨"compound", 1⟩ (typeTestCode [.compound, .list] true)]

/-! ## Native predicates -/

def natives : List Definition :=
  [.native ⟨"$call_goal", 1⟩ .callGoal,
    .native ⟨"$level", 1⟩ .level,
    .native ⟨"$cut", 1⟩ .cut,
    .native ⟨"number", 1⟩ .number,
    .native ⟨"is", 2⟩ .evaluate,
    .native ⟨"plus", 3⟩ .plus,
    .native ⟨"copy_term", 2⟩ .copyTerm,
    .native ⟨"<", 2⟩ (.compare .less),
    .native ⟨">", 2⟩ (.compare .greater),
    .native ⟨"=<", 2⟩ (.compare .atMost),
    .native ⟨">=", 2⟩ (.compare .atLeast),
    .native ⟨"=:=", 2⟩ (.compare .equal),
    .native ⟨"=\\=", 2⟩ (.compare .different),
    .native ⟨"$findall_begin", 0⟩ .collectBegin,
    .native ⟨"$findall_collect", 1⟩ .collect,
    .native ⟨"$findall_end", 1⟩ .collectEnd]

/-! ## Clauses -/

/-- The anonymous variable. -/
def any : Term :=
  .var Term.anonymous

def call (goal : Term) : Goal :=
  ⟨"call", [goal]⟩

/-- Solves a goal whose cuts go back to a given level. -/
def callAt (goal level : Term) : Goal :=
  ⟨"$call", [goal, level]⟩

/-- Finds the current level. -/
def levelIs (level : Term) : Goal :=
  ⟨"$level", [level]⟩

def failure : Goal :=
  ⟨"fail", []⟩

/-- A predicate that succeeds only if its goal has no solution. -/
def negationRules (name : String) : List Rule :=
  [⟨⟨name, [.var "G"]⟩, [call (.var "G"), .cut, failure]⟩,
    .fact ⟨name, [any]⟩]

def unificationRules : List Rule :=
  [.fact ⟨"=", [.var "X", .var "X"]⟩,
    ⟨⟨"\\=", [.var "X", .var "Y"]⟩,
      [⟨"\\+", [.compound "=" [.var "X", .var "Y"]]⟩]⟩]

/-- Calling a goal.  The goals of a conjunction share the level that a cut in
any of them goes back to. -/
def callRules : List Rule :=
  [⟨call (.var "G"), [levelIs (.var "L"), callAt (.var "G") (.var "L")]⟩,
    ⟨callAt (.var "G") any, [⟨"var", [.var "G"]⟩, .cut, failure]⟩,
    ⟨callAt (.compound "," [.var "A", .var "B"]) (.var "L"),
      [.cut, callAt (.var "A") (.var "L"), callAt (.var "B") (.var "L")]⟩,
    ⟨callAt (.atom "!") (.var "L"), [.cut, ⟨"$cut", [.var "L"]⟩]⟩,
    ⟨callAt (.var "G") any, [⟨"$call_goal", [.var "G"]⟩]⟩,
    ⟨⟨",", [.var "A", .var "B"]⟩,
      [levelIs (.var "L"), callAt (.var "A") (.var "L"),
        callAt (.var "B") (.var "L")]⟩]

/-- Alternatives and conditionals. -/
def choiceRules : List Rule :=
  [⟨⟨";", [.var "I", any]⟩,
      [⟨"nonvar", [.var "I"]⟩,
        ⟨"=", [.var "I", .compound "->" [.var "C", .var "T"]]⟩,
        call (.var "C"), .cut, call (.var "T")]⟩,
    ⟨⟨";", [.var "I", .var "E"]⟩,
      [⟨"nonvar", [.var "I"]⟩,
        ⟨"=", [.var "I", .compound "->" [any, any]]⟩,
        .cut, call (.var "E")]⟩,
    ⟨⟨";", [.var "A", any]⟩, [call (.var "A")]⟩,
    ⟨⟨";", [any, .var "B"]⟩, [call (.var "B")]⟩,
    ⟨⟨"->", [.var "C", .var "T"]⟩, [call (.var "C"), .cut, call (.var "T")]⟩]

/-- Negation and goals that are solved at most once. -/
def onceRules : List Rule :=
  negationRules "\\+" ++ negationRules "not" ++
    [⟨⟨"once", [.var "G"]⟩, [call (.var "G"), .cut]⟩,
      ⟨⟨"ignore", [.var "G"]⟩, [call (.var "G"), .cut]⟩,
      .fact ⟨"ignore", [any]⟩]

/-- All solutions of a goal.  Each one is collected and then given up, which
leads to the next. -/
def collectRules : List Rule :=
  [⟨⟨"findall", [.var "T", .var "G", .var "L"]⟩,
      [⟨"$findall_begin", []⟩, ⟨"$findall_run", [.var "T", .var "G"]⟩,
        ⟨"$findall_end", [.var "L"]⟩]⟩,
    ⟨⟨"$findall_run", [.var "T", .var "G"]⟩,
      [call (.var "G"), ⟨"$findall_collect", [.var "T"]⟩, failure]⟩,
    .fact ⟨"$findall_run", [any, any]⟩]

def listRules : List Rule :=
  [.fact ⟨"member", [.var "X", Term.cell (.var "X") any]⟩,
    ⟨⟨"member", [.var "X", Term.cell any (.var "T")]⟩,
      [⟨"member", [.var "X", .var "T"]⟩]⟩,
    .fact ⟨"append", [Term.emptyList, .var "L", .var "L"]⟩,
    ⟨⟨"append",
        [Term.cell (.var "H") (.var "T"), .var "L",
          Term.cell (.var "H") (.var "R")]⟩,
      [⟨"append", [.var "T", .var "L", .var "R"]⟩]⟩]

def rules : List Rule :=
  unificationRules ++ callRules ++ choiceRules ++ onceRules ++ collectRules ++
    listRules

/-- The library in the order in which it is installed. -/
def definitions : List Definition :=
  assembled ++ natives ++ rules.map .clause

end Library

end LogicMachine
