import LogicMachine.Proofs.Store.Growth
import LogicMachine.Store.Copy

/-!
# The graph of a term

A term is a graph whose nodes are what the cells of a store stand for once all
references have been followed: an unbound variable, a structure, a list pair, or
a word that points nowhere.  A node is given by its decoded word, so two cells
show the same node exactly if they are aliases.  The parts of a node are the
cells of its arguments.  The nodes of a term say how many cells a copy of it
takes.
-/

namespace LogicMachine

namespace Store

/-- The node that is found at an address by following references. -/
def At (store : Store) (address : Address) (node : Cell) : Prop :=
  ∃ root word, store.Leads address root ∧ store.load root = .ok word ∧
    word.cell = node

/-- The node that a word stands for. -/
def Resolves (store : Store) (word : Word) (node : Cell) : Prop :=
  match word.cell with
  | .reference target => store.At target node
  | found => node = found

/-- The cell of an argument of a node, with its position. -/
inductive Part (table : FunctorTable) (store : Store) :
    Cell → Nat → Address → Prop where
  | argument {header : Address} {functor : Functor} {index : Nat}
      (known : table.functorAt store header = .ok functor)
      (below : index < functor.arity) :
      Part table store (.compound header) index (header.plus (index + 1))
  | head (pair : Address) : Part table store (.list pair) 0 pair
  | tail (pair : Address) : Part table store (.list pair) 1 (pair.plus 1)

/-- The nodes of the term that a node is the root of. -/
inductive Reaches (table : FunctorTable) (store : Store) (start : Cell) :
    Cell → Prop where
  | start : Reaches table store start start
  | part {node next : Cell} {index : Nat} {address : Address}
      (reached : Reaches table store start node)
      (isPart : store.Part table node index address)
      (found : store.At address next) : Reaches table store start next

end Store

/-- The cells that a word points at.  A structure points at its functor cell
and at its arguments. -/
def Word.Points (table : FunctorTable) (store : Store) (word : Word)
    (address : Address) : Prop :=
  match word.cell with
  | .reference target => address = target
  | .compound header =>
      address = header ∨ ∃ index, store.Part table word.cell index address
  | .list _ => ∃ index, store.Part table word.cell index address
  | _ => False

namespace Store

/-- The cells that are looked at when all of a term is read, references on the
way included. -/
inductive Visits (table : FunctorTable) (store : Store) :
    Word → Address → Prop where
  | here {word : Word} {address : Address}
      (points : word.Points table store address) :
      Visits table store word address
  | onward {word next : Word} {address last : Address}
      (points : word.Points table store address)
      (found : store.load address = .ok next)
      (rest : Visits table store next last) : Visits table store word last

end Store

/-- The number of cells that the copy of a node takes. -/
def Cell.extent (table : FunctorTable) (store : Store) : Cell → Nat
  | .reference _ => 1
  | .compound header =>
      match table.functorAt store header with
      | .ok named => named.arity + 1
      | .error _ => 0
  | .list _ => 2
  | _ => 0

namespace Store

section Room

variable (table : FunctorTable) (region : Region) (mode : CopyMode)
  (store : Store)

/-- Nodes that get cells of their own when the term with a given root is copied.
They are not shared.  A variable is copied into the cell that it is met in, so
it takes no cell of its own unless it is the root. -/
structure Claiming (source : Cell) (nodes : List Cell) : Prop where
  distinct : nodes.Nodup
  reached : ∀ node ∈ nodes, store.Reaches table source node
  copied : ∀ node ∈ nodes, ∃ key, node.key? = some key ∧
    StoreM.shares region mode key.2 = false
  variable_root : ∀ address, .reference address ∈ nodes →
    source = .reference address

/-- The nodes of a term do not fit in a region. -/
def Overfills (source : Cell) : Prop :=
  ∃ nodes, store.Claiming table region mode source nodes ∧
    ¬ store.Fits region (nodes.map (Cell.extent table store)).sum

/-- The copy of a term does not fit in a region. -/
def Exceeds (root : Word) : Prop :=
  ∃ source, store.Resolves root source ∧
    store.Overfills table region mode source

end Room

end Store

/-- A node whose pointers lead to some cells.  Structures have a functor cell
in use. -/
def Cell.Sound (table : FunctorTable) (store : Store) (cells : Set Address)
    (node : Cell) : Prop :=
  match node with
  | .reference target => target ∈ cells
  | .compound header =>
      header ∈ store.allocated ∧
        ∃ functor, table.functorAt store header = .ok functor ∧
          ∀ index < functor.arity, header.plus (index + 1) ∈ cells
  | .list pair => pair ∈ cells ∧ pair.plus 1 ∈ cells
  | _ => True

/-- A sound node stays sound when cells are added and the functor cells stay. -/
theorem Cell.Sound.imp {table : FunctorTable} {store later : Store}
    {cells larger : Set Address} {node : Cell}
    (formed : node.Sound table store cells) (more : cells ⊆ larger)
    (allocated : store.allocated ⊆ later.allocated)
    (agrees : table.Agrees store.allocated store later) :
    node.Sound table later larger := by
  cases node with
  | reference target => exact more formed
  | compound header =>
      obtain ⟨inUse, functor, known, arguments⟩ := formed
      exact ⟨allocated inUse, functor, agrees header inUse functor known,
        fun index below => more (arguments index below)⟩
  | list pair => exact ⟨more formed.1, more formed.2⟩
  | _ => trivial

theorem Cell.Sound.mono {table : FunctorTable} {store : Store}
    {cells larger : Set Address} {node : Cell}
    (formed : node.Sound table store cells) (more : cells ⊆ larger) :
    node.Sound table store larger :=
  formed.imp more subset_rfl fun _ _ _ known => known

namespace Store

/-- A set of cells in use that holds everything its words point at and in which
references run in no circle.  Terms may be shared and may be cyclic. -/
structure Sound (table : FunctorTable) (store : Store)
    (cells : Set Address) : Prop where
  formed : ∀ address ∈ cells, ∃ word, store.load address = .ok word ∧
    word.cell.Sound table store cells
  inside : cells ⊆ store.allocated
  acyclic : store.Acyclic cells

theorem Leads.unique {store : Store} {address root other : Address}
    (leads : store.Leads address root) (again : store.Leads address other) :
    root = other := by
  obtain ⟨_, chain⟩ := leads.exists_chain
  obtain ⟨_, chain'⟩ := again.exists_chain
  exact (chain.unique chain').2

theorem At.unique {store : Store} {address : Address} {node other : Cell}
    (found : store.At address node) (again : store.At address other) :
    node = other := by
  obtain ⟨root, word, leads, loaded, rfl⟩ := found
  obtain ⟨root', word', leads', loaded', rfl⟩ := again
  cases leads.unique leads'
  cases loaded.symm.trans loaded'
  rfl

/-- The node of an unbound variable is its own cell. -/
theorem At.unbound {store : Store} {address target : Address}
    (found : store.At address (.reference target)) :
    store.Unbound target ∧ store.Leads address target := by
  obtain ⟨root, word, leads, loaded, refers⟩ := found
  obtain ⟨same, loaded', ends⟩ := leads.root
  cases loaded.symm.trans loaded'
  cases ends target refers
  exact ⟨⟨word, loaded, refers⟩, leads⟩

theorem At.load {store : Store} {address : Address} {node : Cell}
    (found : store.At address node) : ∃ word, store.load address = .ok word := by
  obtain ⟨root, word, leads, loaded, -⟩ := found
  cases leads with
  | here => exact ⟨word, loaded⟩
  | there present => exact ⟨_, present⟩

theorem At.of_load {store : Store} {address : Address} {word : Word}
    (found : store.load address = .ok word)
    (ends : ∀ next, word.cell = .reference next → next = address) :
    store.At address word.cell :=
  ⟨address, word, .here ⟨word, found, ends⟩, found, rfl⟩

/-- The cell shows what its word resolves to. -/
theorem At.resolves {store : Store} {address : Address} {node : Cell}
    {word : Word} (found : store.At address node)
    (loaded : store.load address = .ok word) : store.Resolves word node := by
  obtain ⟨root, last, leads, present, rfl⟩ := found
  cases leads with
  | here isRoot =>
      cases present.symm.trans loaded
      unfold Resolves
      cases decoded : word.cell with
      | reference target =>
          obtain ⟨_, again, ends⟩ := isRoot
          cases loaded.symm.trans again
          cases ends target decoded
          exact ⟨_, word, .here ⟨word, loaded, ends⟩, loaded, decoded⟩
      | _ => rfl
  | there found refers different rest =>
      cases found.symm.trans loaded
      unfold Resolves
      rw [refers]
      exact ⟨root, last, rest, present, rfl⟩

theorem Resolves.unique {store : Store} {word : Word} {node other : Cell}
    (resolves : store.Resolves word node) (again : store.Resolves word other) :
    node = other := by
  unfold Resolves at resolves again
  cases decoded : word.cell with
  | reference target =>
      simp only [decoded] at resolves again
      exact resolves.unique again
  | _ =>
      simp only [decoded] at resolves again
      rw [resolves, again]

theorem Resolves.unbound {store : Store} {word : Word} {address : Address}
    (resolves : store.Resolves word (.reference address)) :
    store.Unbound address := by
  unfold Resolves at resolves
  cases decoded : word.cell with
  | reference target =>
      simp only [decoded] at resolves
      exact resolves.unbound.1
  | _ => simp [decoded] at resolves

/-- A set that holds whatever its cells point at is never left. -/
theorem Visits.mem {table : FunctorTable} {store : Store} {set : Set Address}
    (closed : ∀ address ∈ set, ∀ word, store.load address = .ok word →
      ∀ next, word.Points table store next → next ∈ set)
    {word : Word}
    (inside : ∀ address, word.Points table store address → address ∈ set)
    {address : Address} (visits : store.Visits table word address) :
    address ∈ set := by
  induction visits with
  | here points => exact inside _ points
  | onward points found _ ih => exact ih (closed _ (inside _ points) _ found)

namespace Sound

variable {table : FunctorTable} {store : Store} {cells : Set Address}

theorem references (sound : store.Sound table cells) :
    ∀ address ∈ cells, ∀ word, store.load address = .ok word →
      ∀ next, word.cell = .reference next → next ∈ cells := by
  intro address inside word found next refers
  obtain ⟨other, loaded, formed⟩ := sound.formed address inside
  cases found.symm.trans loaded
  simpa only [Cell.Sound, refers] using formed

theorem exists_at (sound : store.Sound table cells) {address : Address}
    (inside : address ∈ cells) : ∃ node, store.At address node := by
  obtain ⟨root, leads⟩ := sound.acyclic address inside
  obtain ⟨word, found, -⟩ := leads.root
  exact ⟨word.cell, root, word, leads, found, rfl⟩

theorem sound_of_at (sound : store.Sound table cells) {address : Address}
    (inside : address ∈ cells) {node : Cell} (found : store.At address node) :
    node.Sound table store cells := by
  obtain ⟨root, word, leads, loaded, rfl⟩ := found
  obtain ⟨other, again, formed⟩ :=
    sound.formed root (leads.mem sound.references inside)
  cases loaded.symm.trans again
  exact formed

theorem exists_resolves (sound : store.Sound table cells) {word : Word}
    (formed : word.cell.Sound table store cells) :
    ∃ node, store.Resolves word node ∧ node.Sound table store cells := by
  cases decoded : word.cell with
  | reference target =>
      simp only [decoded, Cell.Sound] at formed
      obtain ⟨node, found⟩ := sound.exists_at formed
      refine ⟨node, ?_, sound.sound_of_at formed found⟩
      simpa only [Resolves, decoded] using found
  | _ =>
      refine ⟨word.cell, ?_, formed⟩
      simp only [Resolves, decoded]

end Sound

end Store

theorem Cell.Sound.part_mem {table : FunctorTable} {store : Store}
    {cells : Set Address} {node : Cell} (formed : node.Sound table store cells)
    {index : Nat} {address : Address}
    (isPart : store.Part table node index address) : address ∈ cells := by
  cases isPart with
  | argument known below =>
      obtain ⟨-, functor, known', inside⟩ := formed
      cases known.symm.trans known'
      exact inside _ below
  | head => exact formed.1
  | tail => exact formed.2

@[simp]
theorem Address.isRetained_plus (address : Address) (count : Nat) :
    (address.plus count).isRetained = address.isRetained := by
  cases address <;> rfl

end LogicMachine
