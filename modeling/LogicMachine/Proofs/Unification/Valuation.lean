import LogicMachine.Proofs.Store.Chain
import LogicMachine.Proofs.Unification.Tree

/-!
# Valuations of a store

A valuation gives every term cell a tree.  It respects a store if the tree of
each bound cell is the one that the word of the cell calls for.  Cells are
considered in sets that hold everything that their words point at, so that a
valuation on such a set says all there is to say about its words.
-/

namespace LogicMachine

/-- Where the words of some cells may point: references, structures at their
functor cells, and the arguments and list pairs. -/
structure Pointers where
  references : Set Address
  headers : Set Address
  parts : Set Address

namespace Pointers

def Within (inner outer : Pointers) : Prop :=
  inner.references ⊆ outer.references ∧ inner.headers ⊆ outer.headers ∧
    inner.parts ⊆ outer.parts

end Pointers

namespace Word

/-- A word of a term whose pointers stay within bounds. -/
def Formed (table : FunctorTable) (store : Store) (pointers : Pointers)
    (word : Word) : Prop :=
  match word.cell with
  | .reference target => target ∈ pointers.references
  | .compound header =>
      header ∈ pointers.headers ∧
        ∃ functor, table.functorAt store header = .ok functor ∧
          ∀ index < functor.arity, header.plus (index + 1) ∈ pointers.parts
  | .list pair => pair ∈ pointers.parts ∧ pair.plus 1 ∈ pointers.parts
  | .constant _ | .other _ => True
  | .functor _ => False

/-- The tree that a word calls for under a valuation of the cells that it
points at. -/
def Denotes {T : Type} [TreeAlgebra T] (table : FunctorTable) (store : Store)
    (value : Address → T) (word : Word) (tree : T) : Prop :=
  match word.cell with
  | .reference target => tree = value target
  | .compound header =>
      ∃ functor, table.functorAt store header = .ok functor ∧
        tree = TreeAlgebra.node (.compound functor)
          fun index => value (header.plus (index + 1))
  | .list pair => tree = TreeAlgebra.node .list fun index =>
      value (pair.plus index)
  | .constant id => tree = TreeAlgebra.node (.constant id) Fin.elim0
  | .other payload => tree = TreeAlgebra.node (.other payload) Fin.elim0
  | .functor _ => False

end Word

namespace FunctorTable

theorem functorAt_congr {table : FunctorTable} {store later : Store}
    {header : Address} (same : later.load header = store.load header) :
    table.functorAt later header = table.functorAt store header := by
  unfold functorAt
  rw [same]

/-- The functor cells among some addresses are the same in a later store. -/
def Agrees (table : FunctorTable) (headers : Set Address)
    (store later : Store) : Prop :=
  ∀ header ∈ headers, ∀ functor, table.functorAt store header = .ok functor →
    table.functorAt later header = .ok functor

theorem Agrees.of_load {table : FunctorTable} {headers : Set Address}
    {store later : Store}
    (same : ∀ header ∈ headers, later.load header = store.load header) :
    table.Agrees headers store later := by
  intro header inside functor found
  rw [functorAt_congr (same header inside), found]

/-- A variable is no functor cell. -/
theorem functorAt_ne_of_reference {table : FunctorTable} {store : Store}
    {address target : Address} {word : Word}
    (found : store.load address = .ok word)
    (refers : word.cell = .reference target) (functor : Functor) :
    table.functorAt store address ≠ .ok functor := by
  unfold functorAt
  simp [found, refers, bind, Except.bind]

/-- Binding variables and filling cells that are no functor cells leaves the
functor cells alone. -/
theorem Agrees.of_ne {table : FunctorTable} {headers : Set Address}
    {store later : Store}
    (same : ∀ header ∈ headers, later.load header = store.load header ∨
      ∃ target word, store.load header = .ok word ∧
        word.cell = .reference target) :
    table.Agrees headers store later := by
  intro header inside functor found
  rcases same header inside with equal | ⟨target, word, loaded, refers⟩
  · rw [functorAt_congr equal, found]
  · exact absurd found (functorAt_ne_of_reference loaded refers functor)

end FunctorTable

namespace Word

theorem Formed.imp {table : FunctorTable} {store later : Store}
    {inner outer : Pointers} {word : Word}
    (formed : word.Formed table store inner) (within : inner.Within outer)
    (agrees : table.Agrees inner.headers store later) :
    word.Formed table later outer := by
  obtain ⟨references, headers, parts⟩ := within
  unfold Formed at formed ⊢
  cases decoded : word.cell with
  | reference target =>
      simp only [decoded] at formed ⊢
      exact references formed
  | compound header =>
      simp only [decoded] at formed ⊢
      obtain ⟨inside, functor, found, arguments⟩ := formed
      refine ⟨headers inside, functor, agrees header inside functor found, ?_⟩
      intro index below
      exact parts (arguments index below)
  | list pair =>
      simp only [decoded] at formed ⊢
      exact ⟨parts formed.1, parts formed.2⟩
  | constant _ | other _ => trivial
  | functor _ => simp [decoded] at formed

section Denotes

variable {T : Type} [TreeAlgebra T] {table : FunctorTable} {store : Store}
  {word : Word}

theorem Denotes.unique {value : Address → T} {left right : T}
    (first : word.Denotes table store value left)
    (second : word.Denotes table store value right) : left = right := by
  unfold Denotes at first second
  cases decoded : word.cell with
  | compound header =>
      simp only [decoded] at first second
      obtain ⟨functor, found, rfl⟩ := first
      obtain ⟨other, alsoFound, rfl⟩ := second
      rw [found] at alsoFound
      cases alsoFound
      rfl
  | functor _ => simp [decoded] at first
  | _ =>
      simp only [decoded] at first second
      rw [first, second]

/-- Words that decode alike denote alike. -/
theorem Denotes.of_cell {other : Word} {value : Address → T} {tree : T}
    (denotes : word.Denotes table store value tree)
    (same : other.cell = word.cell) :
    other.Denotes table store value tree := by
  unfold Denotes at denotes ⊢
  rw [same]
  exact denotes

theorem Formed.denotes {pointers : Pointers}
    (formed : word.Formed table store pointers) (value : Address → T) :
    ∃ tree, word.Denotes table store value tree := by
  unfold Formed at formed
  unfold Denotes
  cases decoded : word.cell with
  | compound header =>
      simp only [decoded] at formed ⊢
      obtain ⟨-, functor, found, -⟩ := formed
      exact ⟨_, functor, found, rfl⟩
  | functor _ => simp [decoded] at formed
  | _ => exact ⟨_, rfl⟩

/-- What a word denotes depends only on the cells that it points at. -/
theorem Denotes.congr {later : Store} {pointers : Pointers}
    {value other : Address → T} {tree : T}
    (denotes : word.Denotes table store value tree)
    (formed : word.Formed table store pointers)
    (agrees : table.Agrees pointers.headers store later)
    (references : ∀ target ∈ pointers.references, other target = value target)
    (parts : ∀ part ∈ pointers.parts, other part = value part) :
    word.Denotes table later other tree := by
  unfold Formed at formed
  unfold Denotes at denotes ⊢
  cases decoded : word.cell with
  | reference target =>
      simp only [decoded] at formed denotes ⊢
      rw [denotes, references target formed]
  | compound header =>
      simp only [decoded] at formed denotes ⊢
      obtain ⟨inside, functor, found, arguments⟩ := formed
      obtain ⟨same, alsoFound, rfl⟩ := denotes
      rw [found] at alsoFound
      cases alsoFound
      refine ⟨functor, agrees header inside functor found, ?_⟩
      congr 1
      funext index
      exact (parts _ (arguments index index.isLt)).symm
  | list pair =>
      simp only [decoded] at formed denotes ⊢
      rw [denotes]
      congr 1
      funext index
      induction index using Symbol.forall_list with
      | head => simpa using (parts _ formed.1).symm
      | tail => simpa using (parts _ formed.2).symm
  | constant _ | other _ =>
      simp only [decoded] at denotes ⊢
      exact denotes
  | functor _ => simp [decoded] at denotes

/-- What a word denotes in a later store it denotes already now. -/
theorem Denotes.earlier {later : Store} {pointers : Pointers}
    {value : Address → T} {tree : T}
    (denotes : word.Denotes table later value tree)
    (formed : word.Formed table store pointers)
    (agrees : table.Agrees pointers.headers store later) :
    word.Denotes table store value tree := by
  obtain ⟨known, now⟩ := formed.denotes value
  have then' := now.congr formed agrees (fun _ _ => rfl) (fun _ _ => rfl)
  rw [denotes.unique then']
  exact now

end Denotes

end Word

namespace Store

/-- The cells in use. -/
def allocated (store : Store) : Set Address :=
  { address |
    match address with
    | .heap index => index < store.heapTop
    | .retained index => index < store.retainedTop
    | .stack index => index ≤ store.pointer
    | _ => False }

/-- The cells of a region from a given index on. -/
def above (region : Region) (start : Int32) : Set Address :=
  { address | ∃ index, address = region.address index ∧ start ≤ index }

/-- A variable that is not bound. -/
def Unbound (store : Store) (address : Address) : Prop :=
  ∃ word, store.load address = .ok word ∧ word.cell = .reference address

/-- A cell that holds a functor. -/
def IsHeader (store : Store) (address : Address) : Prop :=
  ∃ word id, store.load address = .ok word ∧ word.cell = .functor id

theorem IsHeader.of_load {store later : Store} {address : Address}
    (isHeader : store.IsHeader address)
    (same : later.load address = store.load address) :
    later.IsHeader address := by
  obtain ⟨word, id, found, decoded⟩ := isHeader
  exact ⟨word, id, same.trans found, decoded⟩

/-- The valuation gives every cell the tree that its word calls for.  An
unbound variable calls for nothing. -/
def Respects {T : Type} [TreeAlgebra T] (table : FunctorTable) (store : Store)
    (cells : Set Address) (value : Address → T) : Prop :=
  ∀ address ∈ cells, ∀ word, store.load address = .ok word →
    word.Denotes table store value (value address)

/-- No chain of references runs in a circle. -/
def Acyclic (store : Store) (cells : Set Address) : Prop :=
  ∀ address ∈ cells, ∃ root, store.Leads address root

@[simp]
theorem heap_mem_allocated {store : Store} {index : Int32} :
    Address.heap index ∈ store.allocated ↔ index < store.heapTop :=
  Iff.rfl

@[simp]
theorem retained_mem_allocated {store : Store} {index : Int32} :
    Address.retained index ∈ store.allocated ↔ index < store.retainedTop :=
  Iff.rfl

@[simp]
theorem stack_mem_allocated {store : Store} {index : Int32} :
    Address.stack index ∈ store.allocated ↔ index ≤ store.pointer :=
  Iff.rfl

theorem allocated_below {store : Store} {region : Region} {index : Int32} :
    region.address index ∈ store.allocated ↔ index < store.top region := by
  cases region <;> exact Iff.rfl

theorem Unbound.isRoot {store : Store} {address : Address}
    (unbound : store.Unbound address) : store.IsRoot address := by
  obtain ⟨word, found, refers⟩ := unbound
  refine ⟨word, found, ?_⟩
  intro next other
  rw [refers] at other
  cases other
  rfl

/-- Every cell of a chain has the tree of its root. -/
theorem Respects.leads {T : Type} [TreeAlgebra T] {table : FunctorTable}
    {store : Store} {cells : Set Address} {value : Address → T}
    (respects : store.Respects table cells value)
    (closed : ∀ address ∈ cells, ∀ word, store.load address = .ok word →
      ∀ next, word.cell = .reference next → next ∈ cells)
    {address root : Address} (inside : address ∈ cells)
    (leads : store.Leads address root) : value address = value root := by
  induction leads with
  | here => rfl
  | @there address next _ _ found refers _ _ ih =>
      have denotes := respects _ inside _ found
      simp only [Word.Denotes, refers] at denotes
      rw [denotes]
      exact ih (closed _ inside _ found _ refers)

end Store

end LogicMachine
