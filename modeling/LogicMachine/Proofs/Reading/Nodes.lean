import LogicMachine.Store.ReadBack
import LogicMachine.Proofs.Copy.Graph

/-!
# The nodes that are read

A cell that can be read shows an unbound variable, an atom that has a name, or
a compound.  Structures and list pairs are both compounds: each has a cell where
it starts, a functor name and a list of the cells of its arguments.
-/

namespace LogicMachine

/-- A word of a term.  Functor cells and opaque payloads are none. -/
def Cell.Readable (table : FunctorTable) : Cell → Prop
  | .constant id => ∃ functor, table.functor id = .ok functor
  | .functor _ | .other _ => False
  | _ => True

namespace Store

/-- Cells that hold words of terms and everything that these point at.
References run in no circle; structures and list pairs may. -/
structure Readable (table : FunctorTable) (store : Store)
    (cells : Set Address) : Prop extends store.Sound table cells where
  terms : ∀ address ∈ cells, ∀ word, store.load address = .ok word →
    word.cell.Readable table

/-- A compound: the cell where it starts, its functor name and the cells of its
arguments. -/
inductive Compound (table : FunctorTable) (store : Store) :
    Cell → Address → String → List Address → Prop where
  | headed {header : Address} {functor : Functor}
      (known : table.functorAt store header = .ok functor) :
      Compound table store (.compound header) header functor.name
        ((List.range functor.arity).map fun index => header.plus (index + 1))
  | pair (pair : Address) :
      Compound table store (.list pair) pair Term.listFunctor
        [pair, pair.plus 1]

variable {table : FunctorTable} {store : Store} {cells : Set Address}

/-- A cell in use that holds a word of a term and leads to a root. -/
structure Legible (table : FunctorTable) (store : Store) (cells : Set Address)
    (address : Address) : Prop where
  formed : ∃ word, store.load address = .ok word ∧
    word.cell.Sound table store cells ∧ word.cell.Readable table
  claimed : address ∈ store.allocated
  leads : ∃ root, store.Leads address root

theorem Legible.of_root {address : Address} {word : Word}
    (loaded : store.load address = .ok word)
    (claimed : address ∈ store.allocated)
    (formed : word.cell.Sound table store cells)
    (isTerm : word.cell.Readable table)
    (ends : ∀ next, word.cell = .reference next → next = address) :
    store.Legible table cells address where
  formed := ⟨word, loaded, formed, isTerm⟩
  claimed := claimed
  leads := ⟨address, .here ⟨word, loaded, ends⟩⟩

/-- Cells are readable if each of them is. -/
theorem Readable.of_each
    (each : ∀ address ∈ cells, store.Legible table cells address) :
    store.Readable table cells where
  formed := by
    intro address inside
    obtain ⟨word, loaded, formed, -⟩ := (each address inside).formed
    exact ⟨word, loaded, formed⟩
  inside := fun address inside => (each address inside).claimed
  acyclic := fun address inside => (each address inside).leads
  terms := by
    intro address inside other again
    obtain ⟨word, loaded, -, isTerm⟩ := (each address inside).formed
    cases loaded.symm.trans again
    exact isTerm

theorem Compound.unique {node : Cell} {key other : Address}
    {name otherName : String} {parts others : List Address}
    (isCompound : store.Compound table node key name parts)
    (again : store.Compound table node other otherName others) :
    other = key ∧ otherName = name ∧ others = parts := by
  cases isCompound with
  | headed known =>
      cases again with
      | headed known' =>
          cases known.symm.trans known'
          exact ⟨rfl, rfl, rfl⟩
  | pair =>
      cases again
      exact ⟨rfl, rfl, rfl⟩

/-- The arguments are the parts of the node. -/
theorem Compound.part {node : Cell} {key : Address} {name : String}
    {parts : List Address} (isCompound : store.Compound table node key name parts)
    {part : Address} (member : part ∈ parts) :
    ∃ index, store.Part table node index part := by
  cases isCompound with
  | headed known =>
      obtain ⟨index, below, rfl⟩ := List.mem_map.mp member
      exact ⟨index, .argument known (List.mem_range.mp below)⟩
  | pair pair =>
      rcases List.mem_cons.mp member with rfl | member
      · exact ⟨0, .head _⟩
      · cases List.mem_singleton.mp member
        exact ⟨1, .tail _⟩

/-- A structure starts at its functor cell, which is no cell of a term. -/
theorem Readable.header_notMem (readable : store.Readable table cells)
    {header : Address} {functor : Functor}
    (known : table.functorAt store header = .ok functor) : header ∉ cells := by
  intro inside
  obtain ⟨word, id, loaded, decoded, -⟩ := load_of_functorAt known
  have isTerm := readable.terms header inside word loaded
  simp [decoded, Cell.Readable] at isTerm

/-- What a readable cell shows. -/
inductive Shown (table : FunctorTable) (store : Store) (cells : Set Address) :
    Cell → Prop where
  | unbound (target : Address) : Shown table store cells (.reference target)
  | atom {id : FunctorId} {functor : Functor}
      (known : table.functor id = .ok functor) :
      Shown table store cells (.constant id)
  | compound {node : Cell} {key : Address} {name : String}
      {parts : List Address}
      (isCompound : store.Compound table node key name parts)
      (inside : ∀ part ∈ parts, part ∈ cells)
      (present : ∃ word, store.load key = .ok word) :
      Shown table store cells node

theorem Readable.shown_of_sound (readable : store.Readable table cells)
    {node : Cell} (formed : node.Sound table store cells)
    (isTerm : node.Readable table) : store.Shown table cells node := by
  cases node with
  | reference target => exact .unbound target
  | constant id =>
      obtain ⟨functor, known⟩ := isTerm
      exact .atom known
  | compound header =>
      obtain ⟨-, functor, known, arguments⟩ := formed
      obtain ⟨headerWord, -, present, -⟩ := load_of_functorAt known
      refine .compound (.headed known) ?_ ⟨headerWord, present⟩
      intro part member
      obtain ⟨index, below, rfl⟩ := List.mem_map.mp member
      exact arguments index (List.mem_range.mp below)
  | list pair =>
      refine .compound (.pair pair) ?_ ?_
      · intro part member
        rcases List.mem_cons.mp member with rfl | member
        · exact formed.1
        · exact List.mem_singleton.mp member ▸ formed.2
      · obtain ⟨head, present, -⟩ := readable.formed pair formed.1
        exact ⟨head, present⟩
  | functor id | other payload => cases isTerm

theorem Readable.shown (readable : store.Readable table cells)
    {address : Address} (inside : address ∈ cells) {node : Cell}
    (found : store.At address node) : store.Shown table cells node := by
  have formed := readable.sound_of_at inside found
  obtain ⟨root, word, leads, loaded, rfl⟩ := found
  exact readable.shown_of_sound formed
    (readable.terms root (leads.mem readable.references inside) word loaded)

theorem Readable.parts_mem (readable : store.Readable table cells)
    {address : Address} (inside : address ∈ cells) {node : Cell}
    (found : store.At address node) {key : Address} {name : String}
    {parts : List Address}
    (isCompound : store.Compound table node key name parts) :
    ∀ part ∈ parts, part ∈ cells := by
  intro part member
  obtain ⟨index, isPart⟩ := isCompound.part member
  exact (readable.sound_of_at inside found).part_mem isPart

theorem Readable.load_ok (readable : store.Readable table cells)
    {address : Address} (inside : address ∈ cells) :
    ∃ word, store.load address = .ok word := by
  obtain ⟨word, loaded, -⟩ := readable.formed address inside
  exact ⟨word, loaded⟩

theorem Readable.arity_small (readable : store.Readable table cells)
    {header : Address} {functor : Functor}
    (known : table.functorAt store header = .ok functor)
    (inside : ∀ part ∈ (List.range functor.arity).map
      fun index => header.plus (index + 1), part ∈ cells) :
    functor.arity < 2 ^ 31 := by
  obtain ⟨word, -, present, -⟩ := load_of_functorAt known
  refine arity_lt present fun index below => ?_
  exact readable.load_ok (inside _
    (List.mem_map.mpr ⟨index, List.mem_range.mpr below, rfl⟩))

/-- Cells at different distances from one cell are different. -/
theorem plus_inj {address : Address} (isCell : address.IsCell)
    {count other : Nat} (small : count < 2 ^ 31) (otherSmall : other < 2 ^ 31)
    (same : address.plus count = address.plus other) : count = other := by
  have offsets : address.offset + Int32.ofNat count =
      address.offset + Int32.ofNat other := by
    cases address with
    | heap _ | retained _ | stack _ => simpa [Address.plus, Address.shift?] using same
    | _ => cases isCell
  have deltas := congrArg Int32.toInt ((Int32.add_right_inj _).mp offsets)
  rw [Int32.toInt_ofNat_of_lt small, Int32.toInt_ofNat_of_lt otherSmall] at deltas
  exact_mod_cast deltas

/-- No compound has more arguments than there are cells. -/
theorem Readable.parts_length_le (readable : store.Readable table cells)
    {node : Cell} {key : Address} {name : String} {parts : List Address}
    (isCompound : store.Compound table node key name parts)
    (inside : ∀ part ∈ parts, part ∈ cells) :
    parts.length ≤ store.cellCount := by
  refine length_le_cellCount ?_ fun part member =>
    readable.load_ok (inside part member)
  cases isCompound with
  | @headed header functor known =>
      obtain ⟨word, -, present, -⟩ := load_of_functorAt known
      have small := readable.arity_small known inside
      refine List.Nodup.map_on ?_ List.nodup_range
      intro index below other otherBelow same
      rw [List.mem_range] at below otherBelow
      have counts := plus_inj (isCell_of_load present).1
        (show index + 1 < 2 ^ 31 by omega) (show other + 1 < 2 ^ 31 by omega)
        same
      omega
  | pair =>
      obtain ⟨head, present⟩ := readable.load_ok
        (inside _ List.mem_cons_self)
      simp only [List.nodup_cons, List.mem_singleton, List.not_mem_nil,
        not_false_eq_true, List.nodup_nil, and_true]
      intro same
      have counts := plus_inj (isCell_of_load present).1
        (show 0 < 2 ^ 31 by omega) (show 1 < 2 ^ 31 by omega)
        (by rwa [Address.plus_zero])
      omega

section Visiting

variable {address : Address} {state : ReadState}

theorem visit_variable {target : Address}
    (found : store.At address (.reference target)) :
    visit table store address state =
      .ok { state with finished := variableAt target :: state.finished } := by
  obtain ⟨unbound, leads⟩ := found.unbound
  obtain ⟨word, loaded, decoded⟩ := unbound
  simp only [visit, leads.deref_eq, loaded, decoded, bind, Except.bind]
  rfl

theorem visit_atom {id : FunctorId} {functor : Functor}
    (found : store.At address (.constant id))
    (known : table.functor id = .ok functor) :
    visit table store address state =
      .ok { state with finished := .atom functor.name :: state.finished } := by
  obtain ⟨root, word, leads, loaded, decoded⟩ := found
  simp only [visit, leads.deref_eq, loaded, decoded, known, bind, Except.bind]
  rfl

/-- A compound in readable cells is entered at the cell where it starts. -/
theorem Readable.visit_compound (readable : store.Readable table cells)
    {node : Cell} {key : Address} {name : String} {parts : List Address}
    (found : store.At address node)
    (isCompound : store.Compound table node key name parts)
    (inside : ∀ part ∈ parts, part ∈ cells) :
    visit table store address state = enter state key name (.ok parts) := by
  obtain ⟨root, word, leads, loaded, decoded⟩ := found
  cases isCompound with
  | @headed header functor known =>
      obtain ⟨headerWord, -, present, -⟩ := load_of_functorAt known
      have small := readable.arity_small known inside
      have listed := arguments_eq (isCell_of_load present).1 small
      simp only [visit, leads.deref_eq, loaded, decoded, known, listed, bind,
        Except.bind]
  | pair =>
      obtain ⟨head, present⟩ := readable.load_ok
        (inside _ List.mem_cons_self)
      have next := (isCell_of_load present).1.shift_eq 1
      rw [show Int32.ofNat 1 = 1 from rfl] at next
      simp only [visit, leads.deref_eq, loaded, decoded, next, bind,
        Except.bind]
      rfl

end Visiting

end Store

end LogicMachine
