import LogicMachine.Proofs.Reading.Filling
import LogicMachine.Proofs.Reading.Memory

/-!
# Sketches of terms

A sketch is a term that was read back in which it is known what stands where:
variables that stand for unbound cells are told from those that stand for the
back edges of cycles, each compound has the cell where it starts, and copies of
compounds that had been finished before are marked as such.  A sketch is read as
a regular tree by putting in place of each back edge the compound that it goes
back to.
-/

namespace LogicMachine

/-- What a variable that was read back stands for. -/
inductive Mark where
  /-- An unbound variable, by its cell. -/
  | unbound (cell : Address)
  /-- A compound whose arguments were being read, by the cell where it
  starts. -/
  | back (key : Address)
  deriving DecidableEq

namespace Mark

def cell : Mark → Address
  | .unbound cell | .back cell => cell

def name (mark : Mark) : String :=
  mark.cell.variableName

end Mark

inductive Sketch where
  | leaf (mark : Mark)
  | atom (name : String)
  /-- A compound that starts at a given cell.  It is a copy if it had been
  finished before. -/
  | compound (copied : Bool) (key : Address) (name : String)
      (args : List Sketch)

/-- The compound that starts at a cell. -/
structure Drawn where
  key : Address
  name : String
  args : List Sketch

namespace Sketch

mutual

/-- The term that a sketch explains. -/
def term : Sketch → Term
  | .leaf mark => .var mark.name
  | .atom name => .atom name
  | .compound _ _ name args => .compound name (termsOf args)

def termsOf : List Sketch → List Term
  | [] => []
  | sketch :: rest => sketch.term :: termsOf rest

end

mutual

/-- What the variables stand for, from left to right. -/
def marks : Sketch → List Mark
  | .leaf mark => [mark]
  | .atom _ => []
  | .compound _ _ _ args => marksOf args

def marksOf : List Sketch → List Mark
  | [] => []
  | sketch :: rest => sketch.marks ++ marksOf rest

end

mutual

/-- The compounds outside of copies, in the order in which they are
finished. -/
def drawn : Sketch → List Drawn
  | .leaf _ | .atom _ | .compound true _ _ _ => []
  | .compound false key name args => drawnOf args ++ [⟨key, name, args⟩]

def drawnOf : List Sketch → List Drawn
  | [] => []
  | sketch :: rest => sketch.drawn ++ drawnOf rest

end

mutual

/-- The copies that are no parts of other copies. -/
def copies : Sketch → List Drawn
  | .leaf _ | .atom _ => []
  | .compound true key name args => [⟨key, name, args⟩]
  | .compound false _ _ args => copiesOf args

def copiesOf : List Sketch → List Drawn
  | [] => []
  | sketch :: rest => sketch.copies ++ copiesOf rest

end

mutual

/-- Back edges go back to compounds that enclose them.  Copies may be exempt
from that. -/
inductive Scoped (exempt : Bool) : Set Address → Sketch → Prop where
  | unbound {entered : Set Address} (cell : Address) :
      Scoped exempt entered (.leaf (.unbound cell))
  | back {entered : Set Address} {key : Address} (inside : key ∈ entered) :
      Scoped exempt entered (.leaf (.back key))
  | atom {entered : Set Address} (name : String) :
      Scoped exempt entered (.atom name)
  | compound {entered : Set Address} {copied : Bool} {key : Address}
      {name : String} {args : List Sketch}
      (inner : ScopedAll exempt (insert key entered) args) :
      Scoped exempt entered (.compound copied key name args)
  | copy {entered : Set Address} {key : Address} {name : String}
      {args : List Sketch} (isExempt : exempt = true) :
      Scoped exempt entered (.compound true key name args)

inductive ScopedAll (exempt : Bool) : Set Address → List Sketch → Prop where
  | nil {entered : Set Address} : ScopedAll exempt entered []
  | cons {entered : Set Address} {sketch : Sketch} {rest : List Sketch}
      (first : Scoped exempt entered sketch)
      (others : ScopedAll exempt entered rest) :
      ScopedAll exempt entered (sketch :: rest)

end

/-- If copies are not exempt, the same holds inside of all compounds. -/
theorem Scoped.inner {entered : Set Address} {copied : Bool} {key : Address}
    {name : String} {args : List Sketch}
    (enclosed : Scoped false entered (.compound copied key name args)) :
    ScopedAll false (insert key entered) args := by
  cases enclosed with
  | compound inner => exact inner
  | copy isExempt => cases isExempt

mutual

/-- The variables of the term are the marks of its sketch. -/
theorem vars_term (sketch : Sketch) :
    sketch.term.vars = sketch.marks.map Mark.name := by
  cases sketch with
  | leaf mark => rfl
  | atom name => rfl
  | compound _ _ _ args => exact vars_termsOf args

theorem vars_termsOf (sketches : List Sketch) :
    Term.varsOf (termsOf sketches) = (marksOf sketches).map Mark.name := by
  cases sketches with
  | nil => rfl
  | cons sketch rest =>
      simp only [termsOf, marksOf, Term.varsOf, List.map_append,
        vars_term sketch, vars_termsOf rest]

end

end Sketch

/-- A tree down to some depth. -/
inductive Outline where
  | hidden
  | unbound (cell : Address)
  | atom (name : String)
  | compound (name : String) (parts : List Outline)

/-- The regular tree that a sketch stands for, down to some depth.  A back edge
stands for the compound that it goes back to. -/
def Sketch.outline (drawn : List Drawn) : Nat → Sketch → Outline
  | 0, _ => .hidden
  | _ + 1, .leaf (.unbound cell) => .unbound cell
  | _ + 1, .atom name => .atom name
  | depth + 1, .compound _ _ name args =>
      .compound name (args.map (outline drawn depth))
  | depth + 1, .leaf (.back key) =>
      match drawn.find? fun known => known.key = key with
      | some known => .compound known.name (known.args.map (outline drawn depth))
      | none => .hidden

namespace Store

/-- The tree at an address, down to some depth.  Cycles are gone round as often
as need be. -/
def Outlines (table : FunctorTable) (store : Store) :
    Nat → Address → Outline → Prop
  | 0, _, outline => outline = .hidden
  | _ + 1, _, .hidden => False
  | _ + 1, address, .unbound cell => store.At address (.reference cell)
  | _ + 1, address, .atom name => ∃ id functor,
      store.At address (.constant id) ∧ table.functor id = .ok functor ∧
        functor.name = name
  | depth + 1, address, .compound name outlines => ∃ node key parts,
      store.At address node ∧ store.Compound table node key name parts ∧
        List.Forall₂ (Outlines table store depth) parts outlines

mutual

/-- A sketch of the term at an address. -/
inductive Sketches (table : FunctorTable) (store : Store) :
    Address → Sketch → Prop where
  | unbound {address cell : Address} (found : store.At address (.reference cell)) :
      Sketches table store address (.leaf (.unbound cell))
  | atom {address : Address} {id : FunctorId} {functor : Functor}
      (found : store.At address (.constant id))
      (known : table.functor id = .ok functor) :
      Sketches table store address (.atom functor.name)
  | back {address key : Address} {node : Cell} {name : String}
      {parts : List Address} (found : store.At address node)
      (isCompound : store.Compound table node key name parts) :
      Sketches table store address (.leaf (.back key))
  | compound {copied : Bool} {address key : Address} {node : Cell}
      {name : String} {parts : List Address} {args : List Sketch}
      (found : store.At address node)
      (isCompound : store.Compound table node key name parts)
      (inner : SketchesAll table store parts args) :
      Sketches table store address (.compound copied key name args)

/-- Sketches of the terms at some addresses. -/
inductive SketchesAll (table : FunctorTable) (store : Store) :
    List Address → List Sketch → Prop where
  | nil : SketchesAll table store [] []
  | cons {address : Address} {sketch : Sketch} {addresses : List Address}
      {rest : List Sketch} (first : Sketches table store address sketch)
      (others : SketchesAll table store addresses rest) :
      SketchesAll table store (address :: addresses) (sketch :: rest)

end

variable {table : FunctorTable} {store : Store}

/-! ## What the cells determine of a sketch -/

section Shape

variable {address : Address} {sketch : Sketch}

theorem Sketches.eq_unbound (sketched : store.Sketches table address sketch)
    {cell : Address} (found : store.At address (.reference cell)) :
    sketch = .leaf (.unbound cell) := by
  cases sketched with
  | unbound found' =>
      cases found.unique found'
      rfl
  | atom found' => cases found.unique found'
  | back found' isCompound | compound found' isCompound =>
      cases found.unique found'
      cases isCompound

/-- A compound that is shown as a variable is shown as a back edge. -/
theorem Sketches.eq_back (sketched : store.Sketches table address sketch)
    {node : Cell} {key : Address} {name : String} {parts : List Address}
    (found : store.At address node)
    (isCompound : store.Compound table node key name parts) {label : String}
    (isTerm : sketch.term = .var label) : sketch = .leaf (.back key) := by
  cases sketched with
  | unbound found' | atom found' =>
      cases found.unique found'
      cases isCompound
  | back found' isCompound' =>
      cases found.unique found'
      obtain ⟨rfl, -⟩ := isCompound.unique isCompound'
      rfl
  | compound => cases isTerm

theorem Sketches.eq_compound (sketched : store.Sketches table address sketch)
    {node : Cell} {key : Address} {name : String} {parts : List Address}
    (found : store.At address node)
    (isCompound : store.Compound table node key name parts) {label : String}
    {terms : List Term} (isTerm : sketch.term = .compound label terms) :
    ∃ copied args, sketch = .compound copied key name args ∧
      Sketch.termsOf args = terms ∧ store.SketchesAll table parts args := by
  cases sketched with
  | unbound | atom | back => cases isTerm
  | @compound copied _ _ _ _ _ args found' isCompound' inner =>
      cases found.unique found'
      obtain ⟨rfl, rfl, rfl⟩ := isCompound.unique isCompound'
      cases isTerm
      exact ⟨copied, args, rfl, rfl, inner⟩

end Shape

/-- There is one tree at an address. -/
theorem Outlines.unique {depth : Nat} {address : Address}
    {outline other : Outline}
    (outlines : store.Outlines table depth address outline)
    (again : store.Outlines table depth address other) : other = outline := by
  induction depth generalizing address outline other with
  | zero => exact Eq.trans again (Eq.symm outlines)
  | succ depth ih =>
      cases outline with
      | hidden => exact outlines.elim
      | unbound cell =>
          have found : store.At address (.reference cell) := outlines
          cases other with
          | hidden => exact again.elim
          | unbound other =>
              cases found.unique again
              rfl
          | atom name =>
              obtain ⟨_, _, found', -⟩ := again
              cases found.unique found'
          | compound name parts =>
              obtain ⟨_, _, _, found', isCompound, -⟩ := again
              cases found.unique found'
              cases isCompound
      | atom name =>
          obtain ⟨_, _, found, known, rfl⟩ := outlines
          cases other with
          | hidden => exact again.elim
          | unbound other =>
              cases found.unique (again : store.At address (.reference other))
          | atom name =>
              obtain ⟨_, _, found', known', rfl⟩ := again
              cases found.unique found'
              cases known.symm.trans known'
              rfl
          | compound name parts =>
              obtain ⟨_, _, _, found', isCompound, -⟩ := again
              cases found.unique found'
              cases isCompound
      | compound name parts =>
          obtain ⟨_, _, _, found, isCompound, inner⟩ := outlines
          cases other with
          | hidden => exact again.elim
          | unbound other =>
              cases found.unique (again : store.At address (.reference other))
              cases isCompound
          | atom name =>
              obtain ⟨_, _, found', -⟩ := again
              cases found.unique found'
              cases isCompound
          | compound otherName others =>
              obtain ⟨_, _, _, found', isCompound', inner'⟩ := again
              cases found.unique found'
              obtain ⟨-, rfl, rfl⟩ := isCompound.unique isCompound'
              have single : Relator.RightUnique (store.Outlines table depth) :=
                fun _ _ _ first second => ih second first
              cases List.right_unique_forall₂' single inner inner'
              rfl

end Store

end LogicMachine
