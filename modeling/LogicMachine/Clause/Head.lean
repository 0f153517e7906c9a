import LogicMachine.Clause.Draft

/-!
# Matching the head of a clause

The arguments of a head are matched breadth first.  For a structure or a list
there are two pieces of code.  If the argument is an unbound variable, the term
is built on the heap and the variable is bound to it; otherwise the cells that
are there are compared one by one.  A compound inside a compound is first taken
into a slot and matched after everything on its own level.
-/

namespace LogicMachine

/-- Where a match finds its subject. -/
inductive Source where
  | argument (index : Nat)
  | slot (place : Local)
  /-- The cell that the working cursor points at. -/
  | cursor (place : Local)

namespace Source

/-- Pushes the address of the subject. -/
def item : Source → Item
  | .argument index => .operand .loadArgumentAddress index.toUInt32
  | .slot place => Item.onLocal .loadLocalAddress place
  | .cursor place => Item.onLocal .loadLocal place

end Source

/-- How one argument of a compound in the head is matched. -/
inductive Slot where
  | void
  | first (slot : Local)
  | again (slot : Local)
  | constant (functor : FunctorId) (read done : Label)
  /-- A compound that is matched later through a slot. -/
  | nested (slot : Local) (functor : Option Functor) (args : List Term)

/-- A compound in the head that is still to be matched. -/
structure Pattern where
  source : Source
  /-- The functor of a structure; a list pair has none. -/
  functor : Option Functor
  args : List Term

namespace Pattern

/-! ## Code of a match -/

/-- Keeps the subject in a slot. -/
def takeVariable (source : Source) (slot : Local) : List Item :=
  [source.item, .plain .load, Item.onLocal .storeLocal slot]

/-- Unifies the subject with what a slot holds. -/
def unifyValue (source : Source) (slot : Local) : List Item :=
  [source.item, Item.onLocal .loadLocalAddress slot, .plain .unify]

/-- Follows the references of the subject and keeps its address. -/
def takeSubject (source : Source) (subject : Local) : List Item :=
  [source.item, .plain .deref, Item.onLocal .storeLocal subject]

/-- Leaves two words that are equal if the subject has a given tag. -/
def compareTag (subject : Local) (tag : Tag) : List Item :=
  [Item.onLocal .loadLocal subject, .plain .load, .plain .getTag,
    .operand .loadConstant tag.code.toUInt32]

/-- Matches the subject with a constant. -/
def matchConstant (source : Source) (subject : Local) (functor : FunctorId)
    (read done : Label) : List Item :=
  takeSubject source subject ++ compareTag subject .reference ++
    [.branch .branchNotEqual read, Item.onLocal .loadLocal subject] ++
    Item.constant functor ++
    [.plain .store, .branch .branchAlways done,
      .mark read, Item.onLocal .loadLocal subject, .plain .load] ++
    Item.constant functor ++
    [.branch .branchEqual done, .plain .fail, .mark done]

/-- Moves the cursor to the next cell. -/
def advance (cursor : Local) : List Item :=
  [Item.onLocal .loadLocal cursor, .plain .increment,
    Item.onLocal .storeLocal cursor]

/-- Builds one argument on the heap. -/
def writeSlot : Slot → List Item
  | .void => Item.freshVariable none
  | .first slot | .nested slot _ _ => Item.freshVariable (some slot)
  | .again slot =>
      [Item.top, Item.onLocal .loadLocal slot, .plain .store] ++ Item.claimCell
  | .constant functor _ _ =>
      Item.top :: Item.constant functor ++ [.plain .store] ++ Item.claimCell

/-- Matches one argument that is there already. -/
def readSlot (subject cursor : Local) : Slot → List Item
  | .void => []
  | .first slot | .nested slot _ _ => takeVariable (.cursor cursor) slot
  | .again slot => unifyValue (.cursor cursor) slot
  | .constant functor read done =>
      matchConstant (.cursor cursor) subject functor read done

/-- Matches arguments that are there already, from cell to cell. -/
def readSlots (subject cursor : Local) : List Slot → List Item
  | [] => []
  | [slot] => readSlot subject cursor slot
  | slot :: rest =>
      readSlot subject cursor slot ++ advance cursor ++
        readSlots subject cursor rest

/-- Builds a compound on the heap and binds the subject to it.  The variable is
bound last, so a retained variable gets a copy of the finished term. -/
def writeCompound (subject cursor : Local) (functor : Option FunctorId)
    (slots : List Slot) : List Item :=
  [Item.top, .plain .duplicate, .plain .increment,
      .plain (if functor.isSome then .tagCompound else .tagList),
      .plain .store, Item.top, Item.onLocal .storeLocal cursor] ++
    (match functor with
      | some functor => Item.claimHeader functor
      | none => Item.claimCell) ++
    slots.flatMap writeSlot ++
    [Item.onLocal .loadLocal subject, Item.onLocal .loadLocal cursor,
      .plain .bind]

/-- Compares the functor of the subject and moves to the first argument. -/
def readHeader (cursor : Local) (functor : FunctorId) (fail : Label) :
    List Item :=
  [Item.onLocal .loadLocal cursor, .plain .load,
      .operand .loadConstant functor.index, .plain .tagFunctor,
      .branch .branchNotEqual fail] ++
    advance cursor

/-- Matches a compound that is there already. -/
def readCompound (subject cursor : Local) (functor : Option FunctorId)
    (slots : List Slot) (fail : Label) : List Item :=
  compareTag subject (if functor.isSome then .compound else .list) ++
    [.branch .branchNotEqual fail, Item.onLocal .loadLocal subject,
      .plain .load, .plain .getAddress, Item.onLocal .storeLocal cursor] ++
    (match functor with
      | some functor => readHeader cursor functor fail
      | none => []) ++
    readSlots subject cursor slots

/-- Matches the subject with a compound. -/
def matchCompound (source : Source) (subject cursor : Local)
    (functor : Option FunctorId) (slots : List Slot)
    (read fail done : Label) : List Item :=
  takeSubject source subject ++ compareTag subject .reference ++
    [.branch .branchNotEqual read] ++
    writeCompound subject cursor functor slots ++
    [.branch .branchAlways done, .mark read] ++
    readCompound subject cursor functor slots fail ++
    [.branch .branchAlways done, .mark fail, .plain .fail, .mark done]

end Pattern

namespace ClauseM

variable {m : Type → Type} [Linker m]

/-! ## Compiling the head -/

/-- Decides how one argument of a compound is matched. -/
def planSlot (term : Term) : ClauseM m Slot := do
  match ← shape term with
  | .void => return .void
  | .variable name =>
      match ← occurrence name with
      | .first slot => return .first slot
      | .again slot => return .again slot
  | .constant functor =>
      return .constant (← intern functor) (← newLabel) (← newLabel)
  | .compound functor args => return .nested (← newLocal) functor args

/-- The compounds that a match has put off. -/
def postponed (slots : List Slot) : List Pattern :=
  slots.filterMap fun
    | .nested slot functor args => some ⟨.slot slot, functor, args⟩
    | _ => none

/-- Matches a compound and returns the compounds inside it that remain to be
matched. -/
def matchPattern (pattern : Pattern) : ClauseM m (List Pattern) := do
  let (subject, cursor) ← working
  let slots ← pattern.args.mapM planSlot
  let functor ← match pattern.functor with
    | some functor => some <$> intern functor
    | none => pure none
  let read ← newLabel
  let fail ← newLabel
  let done ← newLabel
  emit (Pattern.matchCompound pattern.source subject cursor functor slots
    read fail done)
  return postponed slots

/-- Matches one argument of the head. -/
def matchArgument (index : Nat) (term : Term) : ClauseM m (List Pattern) := do
  let source := Source.argument index
  match ← shape term with
  | .void => return []
  | .variable name =>
      match ← occurrence name with
      | .first slot => emit (Pattern.takeVariable source slot)
      | .again slot => emit (Pattern.unifyValue source slot)
      return []
  | .constant functor =>
      let functor ← intern functor
      let (subject, _) ← working
      let read ← newLabel
      let done ← newLabel
      emit (Pattern.matchConstant source subject functor read done)
      return []
  | .compound functor args => matchPattern ⟨source, functor, args⟩

/-- Matches the arguments of the head from a given position on. -/
def matchArguments (index : Nat) : List Term → ClauseM m (List Pattern)
  | [] => return []
  | term :: rest => do
      let inner ← matchArgument index term
      let later ← matchArguments (index + 1) rest
      return inner ++ later

/-- Matches the compounds that were put off, in the order in which they were
met.  Each of them is a compound of the head, which bounds their number. -/
def matchPostponed : Nat → List Pattern → ClauseM m Unit
  | _, [] => return
  | 0, _ :: _ => throw .diverged
  | count + 1, pattern :: rest => do
      let inner ← matchPattern pattern
      matchPostponed count (rest ++ inner)

/-- Compiles the head of a clause. -/
def compileHead (head : Goal) : ClauseM m Unit := do
  let patterns ← matchArguments 0 head.args
  matchPostponed (Term.compoundsOf head.args) patterns

end ClauseM

end LogicMachine
