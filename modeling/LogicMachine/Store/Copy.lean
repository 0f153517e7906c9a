import LogicMachine.Store.Basic
import Std.Data.HashMap

/-!
# Copying terms

A term is copied cell by cell into a region.  Each variable, structure and list
pair of the source is copied once, so sharing inside the term is kept and cyclic
terms are copied in finitely many steps: every cell that is queued has its own
newly claimed target, and a region has finitely many of them.
-/

namespace LogicMachine

/-- What becomes of the variables of a copied term. -/
inductive CopyMode where
  /-- Unbound variables of the source are bound to their copies, so the copy
  stands for the source.  Terms already in the retained segment are shared. -/
  | share
  /-- The copy gets variables of its own and the source stays as it is. -/
  | fresh
  deriving DecidableEq, Inhabited

/-- The copies made so far.  A structure and a list pair may start at the same
cell, so the tag is part of the key. -/
abbrev Copies := Std.HashMap (Tag × Address) Word

/-- A source cell and the cell its copy goes to. -/
structure CopyTask where
  source : Address
  target : Address
  deriving DecidableEq, Inhabited

/-- The copy of one cell, with the copies made so far and the cells that still
have to be copied. -/
structure CellCopy where
  word : Word
  copies : Copies
  tasks : List CopyTask

namespace StoreM

/-- Whether a cell is used as it is instead of being copied. -/
def shares (region : Region) (mode : CopyMode) (address : Address) : Bool :=
  mode == .share && region == .retained && address.isRetained

/-- Copies an unbound variable, into the given slot if there is one. -/
def copyVariable (region : Region) (mode : CopyMode) (copies : Copies)
    (unbound : Address) (slot : Option Address) : StoreM CellCopy := do
  if shares region mode unbound then
    return ⟨.reference unbound, copies, []⟩
  match copies[(Tag.reference, unbound)]? with
  | some copy => return ⟨copy, copies, []⟩
  | none =>
      let target ← match slot with
        | some target => pure target
        | none => allocate region 1
      let copy := Word.reference target
      storeFresh target copy
      if mode = .share then
        store unbound copy
      return ⟨copy, copies.insert (.reference, unbound) copy, []⟩

/-- Copies a structure header and queues the arguments. -/
def copyStructure (table : FunctorTable) (region : Region) (mode : CopyMode)
    (copies : Copies) (word : Word) (header : Address) : StoreM CellCopy := do
  if shares region mode header then
    return ⟨word, copies, []⟩
  match copies[(Tag.compound, header)]? with
  | some copy => return ⟨copy, copies, []⟩
  | none =>
      let functor ← read fun store => table.functorAt store header
      let base ← allocate region (functor.arity + 1)
      storeFresh base (← load header)
      let copy := Word.compound base
      let sources ← ofExcept (Store.arguments header functor.arity)
      let targets ← ofExcept (Store.arguments base functor.arity)
      return ⟨copy, copies.insert (.compound, header) copy,
        sources.zipWith CopyTask.mk targets⟩

/-- Claims the two cells of a list pair and queues head and tail. -/
def copyPair (region : Region) (mode : CopyMode) (copies : Copies)
    (word : Word) (pair : Address) : StoreM CellCopy := do
  if shares region mode pair then
    return ⟨word, copies, []⟩
  match copies[(Tag.list, pair)]? with
  | some copy => return ⟨copy, copies, []⟩
  | none =>
      let base ← allocate region 2
      let copy := Word.list base
      let sourceTail ← ofExcept (pair.shift 1)
      let targetTail ← ofExcept (base.shift 1)
      return ⟨copy, copies.insert (.list, pair) copy,
        [⟨pair, base⟩, ⟨sourceTail, targetTail⟩]⟩

/-- Copies a word that is no reference. -/
def copyValue (table : FunctorTable) (region : Region) (mode : CopyMode)
    (copies : Copies) (word : Word) : StoreM CellCopy :=
  match word.cell with
  | .compound header => copyStructure table region mode copies word header
  | .list pair => copyPair region mode copies word pair
  | _ => return ⟨word, copies, []⟩

/-- Copies one cell. -/
def copyCell (table : FunctorTable) (region : Region) (mode : CopyMode)
    (copies : Copies) (word : Word) (slot : Option Address) :
    StoreM CellCopy := do
  match word.cell with
  | .reference address =>
      let ending ← deref address
      let value ← load ending
      match value.cell with
      | .reference _ => copyVariable region mode copies ending slot
      | _ => copyValue table region mode copies value
  | _ => copyValue table region mode copies word

/-- Copies the queued cells, the most recently queued ones first. -/
def copyTasks (table : FunctorTable) (region : Region) (mode : CopyMode) :
    Nat → Copies → List CopyTask → StoreM Unit
  | _, _, [] => return
  | 0, _, _ :: _ => throw .diverged
  | steps + 1, copies, task :: rest => do
      let word ← load task.source
      let copied ← copyCell table region mode copies word (some task.target)
      storeFresh task.target copied.word
      copyTasks table region mode steps copied.copies (copied.tasks ++ rest)

/-- Copies a term given by its root cell and returns the root of the copy.
Each step finishes one queued cell, and a cell is queued only together with a
newly claimed target, so the free cells bound the number of steps. -/
def copyTerm (table : FunctorTable) (root : Word) (region : Region)
    (mode : CopyMode) : StoreM Word := do
  let copied ← copyCell table region mode {} root none
  let steps := copied.tasks.length + (← get).free region
  copyTasks table region mode steps copied.copies copied.tasks
  return copied.word

end StoreM

end LogicMachine
