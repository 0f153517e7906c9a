import LogicMachine.Proofs.Execution.Stack
import LogicMachine.Proofs.Unification.MostGeneral

/-!
# The terms in the memory

Running code keeps a set of cells that hold terms.  The words of these cells are
of the kinds that compiled code makes, and the cells may only become more: while
the memory evolves, a word that stands for a term keeps doing so.
-/

namespace LogicMachine

namespace Word

/-- A constant has one written form. -/
def Sound (word : Word) : Prop :=
  ∀ id, word.cell = .constant id → word = .constant id

/-- A word that stands for a term with the given cells. -/
structure IsTerm (table : FunctorTable) (memory : Store) (cells : Set Address)
    (word : Word) : Prop where
  formed : word.Formed table memory ⟨cells, memory.allocated, cells⟩
  sound : word.Sound

theorem Sound.of_cell {word : Word} {tag : Tag} {address : Address}
    (isPointer : tag ∈ [Tag.reference, .compound, .list])
    (made : word = Cell.tagged tag address) : word.Sound := by
  intro id decoded
  have isConstant : word.tag = .constant := tag_of_cell decoded
  rw [made, tag_tagged] at isConstant
  rw [isConstant] at isPointer
  simp at isPointer

end Word

namespace Store

/-- The cells of a memory hold terms. -/
structure Terms (table : FunctorTable) (memory : Store) (cells : Set Address) :
    Prop extends memory.WellFormed table cells where
  bare : memory.memory = memory
  sound : ∀ address ∈ cells, ∀ word, memory.load address = .ok word →
    word.Sound
  segments : ∀ address ∈ cells, ∃ (region : Region) (index : Int32),
    address = region.address index
  /-- A functor cell has one written form. -/
  canonical : ∀ address ∈ memory.allocated, ∀ word id,
    memory.load address = .ok word → word.cell = .functor id →
      word = .functor id

theorem Terms.isTerm {table : FunctorTable} {memory : Store}
    {cells : Set Address} (terms : memory.Terms table cells)
    {address : Address} (inside : address ∈ cells) :
    ∃ word, memory.load address = .ok word ∧
      word.IsTerm table memory cells := by
  obtain ⟨word, found, formed⟩ := terms.formed address inside
  exact ⟨word, found, formed, terms.sound address inside word found⟩

/-- The cells of a later memory take in those of an earlier one.  Cells in use
that belong to no term are left alone. -/
structure Evolves (table : FunctorTable) (cells : Set Address)
    (before : Store) (larger : Set Address) (after : Store) : Prop where
  more : cells ⊆ larger
  terms : after.Terms table larger
  agrees : table.Agrees before.allocated before after
  top_le : ∀ region, before.top region ≤ after.top region
  pointer : after.pointer = before.pointer
  capacity : ∀ region, after.capacity region = before.capacity region
  fresh : ∀ address ∈ larger, address ∈ cells ∨ address ∉ before.allocated
  kept : ∀ address ∈ before.allocated, address ∉ cells →
    after.load address = before.load address

namespace Evolves

variable {table : FunctorTable} {cells larger : Set Address}
  {before after : Store}

theorem allocated (evolves : Evolves table cells before larger after) :
    before.allocated ⊆ after.allocated := by
  intro address inUse
  cases address with
  | heap index => exact Int32.lt_of_lt_of_le inUse (evolves.top_le .heap)
  | retained index =>
      exact Int32.lt_of_lt_of_le inUse (evolves.top_le .retained)
  | stack index =>
      rw [stack_mem_allocated] at inUse ⊢
      rw [evolves.pointer]
      exact inUse
  | _ => cases inUse

theorem trans {largest : Set Address} {final : Store}
    (first : Evolves table cells before larger after)
    (second : Evolves table larger after largest final) :
    Evolves table cells before largest final where
  more := first.more.trans second.more
  terms := second.terms
  agrees := fun header inUse functor found =>
    second.agrees header (first.allocated inUse) functor
      (first.agrees header inUse functor found)
  top_le := fun region =>
    Int32.le_trans (first.top_le region) (second.top_le region)
  pointer := second.pointer.trans first.pointer
  capacity := fun region =>
    (second.capacity region).trans (first.capacity region)
  fresh := by
    intro address inside
    rcases second.fresh address inside with old | new
    · exact first.fresh address old
    · exact .inr fun inUse => new (first.allocated inUse)
  kept := by
    intro address inUse outside
    have still : address ∉ larger := fun inside =>
      (first.fresh address inside).elim outside (absurd inUse)
    rw [second.kept address (first.allocated inUse) still]
    exact first.kept address inUse outside

/-- A word that stands for a term keeps doing so. -/
theorem isTerm (evolves : Evolves table cells before larger after)
    {word : Word} (isTerm : word.IsTerm table before cells) :
    word.IsTerm table after larger where
  formed := isTerm.formed.imp
    ⟨evolves.more, evolves.allocated, evolves.more⟩ evolves.agrees
  sound := isTerm.sound

/-- The tree of a word depends on the trees of the old cells only. -/
theorem denotes {T : Type} [TreeAlgebra T]
    (evolves : Evolves table cells before larger after) {word : Word}
    (isTerm : word.IsTerm table before cells) {value known : Address → T}
    (same : ∀ address ∈ cells, value address = known address) {tree : T} :
    word.Denotes table after value tree ↔
      word.Denotes table before known tree := by
  have forward {other : T} (denotes : word.Denotes table before known other) :
      word.Denotes table after value other :=
    denotes.congr isTerm.formed evolves.agrees same same
  refine ⟨fun denotes => ?_, forward⟩
  obtain ⟨other, known⟩ := isTerm.formed.denotes known
  rw [denotes.unique (forward known)]
  exact known

end Evolves

/-! ## A memory with its stack -/

section Stack

variable {table : FunctorTable} {store : Store} {cells slots : Set Address}

theorem load_region_memory {address : Address}
    (isCell : ∃ (region : Region) (index : Int32),
      address = region.address index) :
    store.memory.load address = store.load address := by
  obtain ⟨region, index, rfl⟩ := isCell
  exact load_memory store region index

theorem region_of_load_memory {address : Address} {word : Word}
    (found : store.memory.load address = .ok word) :
    ∃ (region : Region) (index : Int32), address = region.address index := by
  cases address with
  | heap index => exact ⟨.heap, index, rfl⟩
  | retained index => exact ⟨.retained, index, rfl⟩
  | stack index => exact absurd found (load_memory_stack store index word)
  | _ => cases found

theorem agrees_of_memory (headers : Set Address) :
    table.Agrees headers store.memory store := by
  intro header _ functor found
  obtain ⟨word, id, loaded, decoded, known⟩ := load_of_functorAt found
  exact functorAt_of_load (load_of_memory loaded) decoded known

theorem functorAt_memory {header : Address}
    (isCell : ∃ (region : Region) (index : Int32),
      header = region.address index) :
    table.functorAt store.memory header = table.functorAt store header :=
  FunctorTable.functorAt_congr (load_region_memory isCell)

theorem allocated_memory {address : Address}
    (isCell : ∃ (region : Region) (index : Int32),
      address = region.address index) :
    address ∈ store.memory.allocated ↔ address ∈ store.allocated := by
  obtain ⟨region, index, rfl⟩ := isCell
  rw [allocated_below, allocated_below, top_memory]

theorem Leads.of_memory {address root : Address}
    (leads : store.memory.Leads address root) : store.Leads address root := by
  induction leads with
  | here isRoot =>
      obtain ⟨word, found, ends⟩ := isRoot
      exact .here ⟨word, load_of_memory found, ends⟩
  | there found refers different _ ih =>
      exact .there (load_of_memory found) refers different ih

theorem Leads.memory
    (references : ∀ address ∈ cells, ∀ word,
      store.load address = .ok word →
        ∀ next, word.cell = .reference next → next ∈ cells)
    (segments : ∀ address ∈ cells, ∃ (region : Region) (index : Int32),
      address = region.address index)
    {address root : Address} (inside : address ∈ cells)
    (leads : store.Leads address root) : store.memory.Leads address root := by
  induction leads with
  | here isRoot =>
      obtain ⟨word, found, ends⟩ := isRoot
      rw [← load_region_memory (segments _ inside)] at found
      exact .here ⟨word, found, ends⟩
  | there found refers different _ ih =>
      have next := references _ inside _ found _ refers
      rw [← load_region_memory (segments _ inside)] at found
      exact .there found refers different (ih next)

/-- Stack slots that hold words for terms. -/
def Holding (table : FunctorTable) (store : Store) (cells slots : Set Address) :
    Prop :=
  ∀ address ∈ slots,
    (∃ index, address = .stack index ∧ index ≤ store.pointer) ∧
      ∃ word, store.load address = .ok word ∧
        word.IsTerm table store.memory cells

theorem allocated_of_memory (bottom : -1 ≤ store.pointer) :
    store.memory.allocated ⊆ store.allocated := by
  intro address inUse
  cases address with
  | heap index => exact inUse
  | retained index => exact inUse
  | stack index =>
      rw [stack_mem_allocated] at inUse ⊢
      exact Int32.le_trans inUse bottom
  | _ => cases inUse

/-- The word of a cell or of a slot stands for a term. -/
theorem Holding.isTerm (holding : store.Holding table cells slots)
    (terms : store.memory.Terms table cells) {address : Address}
    (inside : address ∈ cells ∪ slots) :
    ∃ word, store.load address = .ok word ∧
      word.IsTerm table store.memory cells := by
  rcases inside with cell | slot
  · obtain ⟨word, found, isTerm⟩ := terms.isTerm cell
    exact ⟨word, load_of_memory found, isTerm⟩
  · exact (holding address slot).2

theorem Terms.wellFormed_with (terms : store.memory.Terms table cells)
    (bottom : -1 ≤ store.pointer) (holding : store.Holding table cells slots) :
    store.WellFormed table (cells ∪ slots) where
  formed := by
    intro address inside
    obtain ⟨word, found, isTerm⟩ := holding.isTerm terms inside
    exact ⟨word, found, isTerm.formed.imp ⟨Set.subset_union_left,
      allocated_of_memory bottom, Set.subset_union_left⟩
      (agrees_of_memory _)⟩
  inside := by
    intro address inside
    rcases inside with cell | slot
    · exact allocated_of_memory bottom (terms.inside cell)
    · obtain ⟨⟨index, rfl, below⟩, -⟩ := holding address slot
      exact below
  retained := by
    intro address inside isRetained word found
    rcases inside with cell | slot
    · rw [← load_region_memory (terms.segments address cell)] at found
      exact terms.retained address cell isRetained word found
    · obtain ⟨⟨index, rfl, -⟩, -⟩ := holding address slot
      cases isRetained
  acyclic := by
    intro address inside
    have fromCell {cell : Address} (isCell : cell ∈ cells) :
        ∃ root, store.Leads cell root :=
      (terms.acyclic cell isCell).imp fun _ => Leads.of_memory
    rcases inside with cell | slot
    · exact fromCell cell
    · obtain ⟨⟨index, rfl, -⟩, word, found, isTerm⟩ := holding address slot
      by_cases refers : ∃ next, word.cell = .reference next
      · obtain ⟨next, decoded⟩ := refers
        have member : next ∈ cells := by
          simpa only [Word.Formed, decoded] using isTerm.formed
        obtain ⟨region, place, rfl⟩ := terms.segments next member
        obtain ⟨root, leads⟩ := fromCell member
        exact ⟨root, .there found decoded (by cases region <;> simp [Region.address]) leads⟩
      · exact ⟨_, .here ⟨word, found, fun next decoded =>
          absurd ⟨next, decoded⟩ refers⟩⟩

/-- The cells of a set that lie in a segment for terms. -/
def inMemory (cells : Set Address) : Set Address :=
  { address ∈ cells | ∃ (region : Region) (index : Int32),
    address = region.address index }

section Extended

variable {region : Region} {larger : Set Address} {after : Store}

theorem Extends.stack_eq (terms : store.memory.Terms table cells)
    (holding : store.Holding table cells slots)
    (extended : Extends table region (cells ∪ slots) store larger after)
    (index : Int32) : after.load (.stack index) = store.load (.stack index) := by
  rcases extended.grows.kept (.stack index) with
    same | ⟨inside, word, found, refers⟩ | ⟨place, isCell, -⟩
  · exact same
  · obtain ⟨other, loaded, isTerm⟩ := holding.isTerm terms inside
    rw [found] at loaded
    cases loaded
    have member : .stack index ∈ cells := by
      simpa only [Word.Formed, refers] using isTerm.formed
    obtain ⟨there, place, isCell⟩ := terms.segments _ member
    cases there <;> cases isCell
  · cases region <;> cases isCell

theorem Extends.agrees_memory (bottom : -1 ≤ store.pointer)
    (extended : Extends table region (cells ∪ slots) store larger after) :
    table.Agrees store.memory.allocated store.memory after.memory := by
  intro header inUse functor found
  obtain ⟨word, id, loaded, -⟩ := load_of_functorAt found
  rw [functorAt_memory (region_of_load_memory loaded)] at found ⊢
  exact extended.agrees header (allocated_of_memory bottom inUse) functor found

theorem Extends.allocated_subset_memory
    (extended : Extends table region (cells ∪ slots) store larger after) :
    store.memory.allocated ⊆ after.memory.allocated := by
  intro address inUse
  have ofRegion (isCell : ∃ (other : Region) (place : Int32),
      address = other.address place) : address ∈ after.memory.allocated :=
    (allocated_memory isCell).mpr
      (extended.allocated ((allocated_memory isCell).mp inUse))
  cases address with
  | heap index => exact ofRegion ⟨.heap, index, rfl⟩
  | retained index => exact ofRegion ⟨.retained, index, rfl⟩
  | stack index =>
      rw [stack_mem_allocated] at inUse ⊢
      exact inUse
  | _ => cases inUse

/-- The word of a cell of the extended store is an old one or points at new
cells. -/
theorem Extends.isTerm_memory (terms : store.memory.Terms table cells)
    (bottom : -1 ≤ store.pointer) (holding : store.Holding table cells slots)
    (extended : Extends table region (cells ∪ slots) store larger after)
    {word : Word}
    (formed : word.Formed table after ⟨larger, after.allocated, larger⟩)
    (stems : word.Stems region (cells ∪ slots) store) :
    word.IsTerm table after.memory (inMemory larger) := by
  rcases stems with ⟨origin, inside, loaded⟩ | ⟨tag, index, points⟩
  · obtain ⟨other, found, isTerm⟩ := holding.isTerm terms inside
    rw [loaded] at found
    cases found
    have more : cells ⊆ inMemory larger := fun cell member =>
      ⟨extended.more (.inl member), terms.segments cell member⟩
    exact ⟨isTerm.formed.imp ⟨more, extended.allocated_subset_memory, more⟩
      (extended.agrees_memory bottom), isTerm.sound⟩
  · have isCell (count : Nat) : ∃ (other : Region) (place : Int32),
        (region.address index).plus count = other.address place :=
      ⟨region, _, Address.plus_address region index count⟩
    have here : ∃ (other : Region) (place : Int32),
        region.address index = other.address place := ⟨region, index, rfl⟩
    refine ⟨?_, fun id decoded => by simp [decoded, Cell.key?] at points⟩
    unfold Word.Formed at formed ⊢
    cases decoded : word.cell <;>
      simp only [decoded, Cell.key?, reduceCtorEq, Option.some.injEq,
        Prod.mk.injEq] at points formed ⊢
    case reference =>
      obtain ⟨-, rfl⟩ := points
      exact ⟨formed, here⟩
    case compound =>
      obtain ⟨-, rfl⟩ := points
      obtain ⟨inUse, functor, found, arguments⟩ := formed
      refine ⟨(allocated_memory here).mpr inUse, functor, ?_, ?_⟩
      · rw [functorAt_memory here]
        exact found
      · exact fun position below => ⟨arguments position below, isCell _⟩
    case list =>
      obtain ⟨-, rfl⟩ := points
      exact ⟨⟨formed.1, here⟩, formed.2, isCell 1⟩

theorem Extends.terms_memory (terms : store.memory.Terms table cells)
    (bottom : -1 ≤ store.pointer) (holding : store.Holding table cells slots)
    (extended : Extends table region (cells ∪ slots) store larger after) :
    after.memory.Terms table (inMemory larger) := by
  have isTerm {address : Address} (inside : address ∈ inMemory larger) :
      ∃ word, after.memory.load address = .ok word ∧
        word.IsTerm table after.memory (inMemory larger) := by
    obtain ⟨word, found, formed⟩ := extended.closed.formed address inside.1
    refine ⟨word, ?_, extended.isTerm_memory terms bottom holding formed
      (extended.stems address inside.1 word found)⟩
    rw [load_region_memory inside.2]
    exact found
  constructor
  case bare => rfl
  case segments => exact fun address inside => inside.2
  case sound =>
    intro address inside word found
    obtain ⟨other, loaded, known⟩ := isTerm inside
    rw [found] at loaded
    cases loaded
    exact known.sound
  case canonical =>
    intro address inUse word id found decoded
    have isCell := region_of_load_memory found
    rw [load_region_memory isCell] at found
    have isHeader : after.IsHeader address := ⟨word, id, found, decoded⟩
    have inUseThere := (allocated_memory isCell).mp inUse
    have known {source : Address} (wasUsed : source ∈ store.allocated)
        (ofRegion : ∃ (other : Region) (place : Int32),
          source = other.address place)
        (loaded : store.load source = .ok word) : word = .functor id := by
      rw [← load_region_memory ofRegion] at loaded
      exact terms.canonical source ((allocated_memory ofRegion).mpr wasUsed)
        word id loaded decoded
    by_cases wasUsed : address ∈ store.allocated
    · rcases extended.grows.kept address with same | ⟨inside, -⟩ | above
      · exact known wasUsed isCell (same ▸ found)
      · exact absurd isHeader
          (extended.closed.not_isHeader (extended.more inside))
      · exact absurd above (not_above_of_allocated wasUsed)
    · obtain ⟨index, rfl, up⟩ :=
        extended.grows.above_of_allocated inUseThere wasUsed
      rw [allocated_below] at inUseThere
      obtain ⟨source, sourceUsed, -, same, named⟩ :=
        (extended.covered index up inUseThere).resolve_left
          fun inside => extended.closed.not_isHeader inside isHeader
      refine known sourceUsed ?_ (same ▸ found)
      rcases named with ⟨place, rfl⟩ | ⟨cell, inside, pointer, loaded, points⟩
      · exact ⟨region, place, rfl⟩
      · obtain ⟨other, there, isTerm⟩ := holding.isTerm terms inside
        rw [loaded] at there
        cases there
        have formed := isTerm.formed
        simp only [Word.Formed, points] at formed
        obtain ⟨-, functor, atHeader, -⟩ := formed
        obtain ⟨header, id, headerFound, -⟩ := load_of_functorAt atHeader
        exact region_of_load_memory headerFound
  case toWellFormed =>
    refine ⟨⟨?_, ?_, ?_⟩, ?_⟩
    · intro address inside
      obtain ⟨word, found, known⟩ := isTerm inside
      exact ⟨word, found, known.formed⟩
    · intro address inside
      exact (allocated_memory inside.2).mpr (extended.closed.inside inside.1)
    · intro address inside isRetained word found
      rw [load_region_memory inside.2] at found
      exact extended.closed.retained address inside.1 isRetained word found
    · intro address inside
      have straight := extended.acyclic
        (terms.wellFormed_with bottom holding).acyclic
      obtain ⟨root, leads⟩ := straight address inside.1
      refine ⟨root, leads.memory ?_ (fun _ member => member.2) inside⟩
      intro cell member word found next refers
      obtain ⟨other, loaded, known⟩ := isTerm member
      rw [load_region_memory member.2, found] at loaded
      cases loaded
      simpa only [Word.Formed, refers] using known.formed

/-- A cell that is in use in the later memory only is one of a term, or holds a
functor. -/
theorem Extends.covered_memory
    (extended : Extends table region (cells ∪ slots) store larger after)
    {address : Address} (inUse : address ∈ after.memory.allocated) :
    address ∈ store.memory.allocated ∨ address ∈ inMemory larger ∨
      after.memory.IsHeader address := by
  have ofRegion (isCell : ∃ (other : Region) (place : Int32),
      address = other.address place) :
      address ∈ store.memory.allocated ∨ address ∈ inMemory larger ∨
        after.memory.IsHeader address := by
    by_cases wasUsed : address ∈ store.allocated
    · exact .inl ((allocated_memory isCell).mpr wasUsed)
    · have inUseThere := (allocated_memory isCell).mp inUse
      obtain ⟨index, rfl, up⟩ :=
        extended.grows.above_of_allocated inUseThere wasUsed
      rw [allocated_below] at inUseThere
      rcases extended.covered index up inUseThere with inside | copy
      · exact .inr (.inl ⟨inside, isCell⟩)
      · exact .inr (.inr (copy.isHeader.of_load (load_region_memory isCell)))
  cases address with
  | heap index => exact ofRegion ⟨.heap, index, rfl⟩
  | retained index => exact ofRegion ⟨.retained, index, rfl⟩
  | stack index =>
      rw [stack_mem_allocated] at inUse
      exact .inl ((stack_mem_allocated ..).mpr inUse)
  | _ => cases inUse

theorem Extends.evolves (terms : store.memory.Terms table cells)
    (bottom : -1 ≤ store.pointer) (holding : store.Holding table cells slots)
    (extended : Extends table region (cells ∪ slots) store larger after) :
    Evolves table cells store.memory (inMemory larger) after.memory := by
  have old {address : Address} (inside : address ∈ cells ∪ slots)
      (isCell : ∃ (other : Region) (place : Int32),
        address = other.address place) : address ∈ cells := by
    rcases inside with cell | slot
    · exact cell
    · obtain ⟨⟨index, rfl, -⟩, -⟩ := holding address slot
      obtain ⟨other, place, same⟩ := isCell
      cases other <;> cases same
  constructor
  case more =>
    exact fun cell member =>
      ⟨extended.more (.inl member), terms.segments cell member⟩
  case agrees => exact extended.agrees_memory bottom
  case top_le =>
    intro other
    rw [top_memory, top_memory]
    by_cases same : other = region
    · rw [same]
      exact extended.grows.top_le
    · rw [extended.grows.top_eq other same]
      exact Int32.le_refl _
  case pointer => rfl
  case capacity =>
    intro other
    rw [capacity_memory, capacity_memory]
    exact extended.grows.capacity other
  case fresh =>
    intro address ⟨inside, isCell⟩
    rcases extended.fresh address inside with known | above
    · exact .inl (old known isCell)
    · refine .inr fun inUse => ?_
      exact not_above_of_allocated (allocated_of_memory bottom inUse) above
  case kept =>
    intro address inUse outside
    have ofRegion (isCell : ∃ (other : Region) (place : Int32),
        address = other.address place) :
        after.memory.load address = store.memory.load address := by
      rw [load_region_memory isCell, load_region_memory isCell]
      rcases extended.grows.kept address with same | ⟨inside, -⟩ | above
      · exact same
      · exact absurd (old inside isCell) outside
      · exact absurd above
          (not_above_of_allocated (allocated_of_memory bottom inUse))
    cases address with
    | heap index => exact ofRegion ⟨.heap, index, rfl⟩
    | retained index => exact ofRegion ⟨.retained, index, rfl⟩
    | _ => rfl
  case terms => exact extended.terms_memory terms bottom holding

theorem Extends.holding (terms : store.memory.Terms table cells)
    (bottom : -1 ≤ store.pointer) (holding : store.Holding table cells slots)
    (extended : Extends table region (cells ∪ slots) store larger after) :
    after.Holding table (inMemory larger) slots := by
  intro address member
  obtain ⟨⟨index, rfl, below⟩, word, found, isTerm⟩ := holding address member
  refine ⟨⟨index, rfl, extended.grows.pointer ▸ below⟩, word, ?_, ?_⟩
  · rw [extended.stack_eq terms holding]
    exact found
  · exact (extended.evolves terms bottom holding).isTerm isTerm

theorem Extends.inMemory_union (terms : store.memory.Terms table cells)
    (extended : Extends table region (cells ∪ slots) store larger after) :
    inMemory larger ∪ slots = larger := by
  apply Set.Subset.antisymm
  · rintro address (⟨inside, -⟩ | slot)
    · exact inside
    · exact extended.more (.inr slot)
  · intro address inside
    rcases extended.fresh address inside with (cell | slot) | ⟨index, rfl, -⟩
    · exact .inl ⟨inside, terms.segments address cell⟩
    · exact .inr slot
    · exact .inl ⟨inside, region, index, rfl⟩

end Extended

section Trees

variable {T : Type} [TreeAlgebra T]

theorem denotes_memory {word : Word}
    (isTerm : word.IsTerm table store.memory cells) {value : Address → T}
    {tree : T} :
    word.Denotes table store value tree ↔
      word.Denotes table store.memory value tree := by
  have forward {other : T}
      (denotes : word.Denotes table store.memory value other) :
      word.Denotes table store value other :=
    denotes.congr isTerm.formed (agrees_of_memory _) (fun _ _ => rfl)
      (fun _ _ => rfl)
  refine ⟨fun denotes => ?_, forward⟩
  obtain ⟨other, known⟩ := isTerm.formed.denotes value
  rw [denotes.unique (forward known)]
  exact known

/-- Every slot has the tree of its word. -/
def SlotsRespect (table : FunctorTable) (store : Store) (slots : Set Address)
    (value : Address → T) : Prop :=
  ∀ address ∈ slots, ∀ word, store.load address = .ok word →
    word.Denotes table store.memory value (value address)

theorem respects_with (terms : store.memory.Terms table cells)
    (holding : store.Holding table cells slots) {value : Address → T} :
    store.Respects table (cells ∪ slots) value ↔
      store.memory.Respects table cells value ∧
        store.SlotsRespect table slots value := by
  have shown {address : Address} (inside : address ∈ cells ∪ slots)
      {word : Word} (found : store.load address = .ok word) {tree : T} :
      word.Denotes table store value tree ↔
        word.Denotes table store.memory value tree := by
    obtain ⟨other, loaded, isTerm⟩ := holding.isTerm terms inside
    rw [found] at loaded
    cases loaded
    exact denotes_memory isTerm
  constructor
  · intro respects
    constructor
    · intro address cell word found
      have there := load_of_memory found
      exact (shown (.inl cell) there).mp
        (respects address (.inl cell) word there)
    · intro address slot word found
      exact (shown (.inr slot) found).mp
        (respects address (.inr slot) word found)
  · rintro ⟨inCells, inSlots⟩ address inside word found
    rw [shown inside found]
    rcases inside with cell | slot
    · rw [← load_region_memory (terms.segments address cell)] at found
      exact inCells address cell word found
    · exact inSlots address slot word found

/-- The trees of the cells give the slots their trees. -/
theorem exists_slotsRespect (terms : store.memory.Terms table cells)
    (holding : store.Holding table cells slots) (value : Address → T) :
    ∃ lifted : Address → T, (∀ address ∈ cells, lifted address = value address) ∧
      store.SlotsRespect table slots lifted := by
  have apart {address : Address} (slot : address ∈ slots) :
      address ∉ cells := by
    intro cell
    obtain ⟨⟨index, rfl, -⟩, -⟩ := holding address slot
    obtain ⟨region, place, same⟩ := terms.segments _ cell
    cases region <;> cases same
  have treeOf : ∀ address, ∃ tree : T, address ∉ slots ∧
      tree = value address ∨ address ∈ slots ∧ ∃ word,
        store.load address = .ok word ∧
          word.IsTerm table store.memory cells ∧
          word.Denotes table store.memory value tree := by
    intro address
    by_cases slot : address ∈ slots
    · obtain ⟨-, word, found, isTerm⟩ := holding address slot
      obtain ⟨tree, denotes⟩ := isTerm.formed.denotes value
      exact ⟨tree, .inr ⟨slot, word, found, isTerm, denotes⟩⟩
    · exact ⟨value address, .inl ⟨slot, rfl⟩⟩
  choose lifted chosen using treeOf
  have same : ∀ address ∈ cells, lifted address = value address := by
    intro address cell
    rcases chosen address with ⟨-, equal⟩ | ⟨slot, -⟩
    · exact equal
    · exact absurd cell (apart slot)
  refine ⟨lifted, same, ?_⟩
  intro address slot word found
  rcases chosen address with ⟨outside, -⟩ | ⟨-, other, loaded, isTerm, denotes⟩
  · exact absurd slot outside
  · rw [found] at loaded
    cases loaded
    exact denotes.congr isTerm.formed (fun _ _ _ => id) same same

end Trees

end Stack

end Store

end LogicMachine
