import LogicMachine.Proofs.Execution.Terms

/-!
# Cells that are added on the heap

Code builds a term cell by cell.  A cell is written beyond the top of the heap
and then claimed.  It may become a cell of the terms, or stand among them for
the functor of a structure.
-/

namespace LogicMachine

namespace Store

/-- Claims the next heap cell with a word in it. -/
def grown (memory : Store) (word : Word) : Store :=
  { memory.put (.heap memory.heapTop) word with
    heapTop := memory.heapTop + 1 }

/-- There is room for another heap cell. -/
structure Growable (memory : Store) : Prop where
  nonnegative : 0 ≤ memory.heapTop
  fits : memory.heapTop.toNatClampNeg < memory.heap.size
  small : memory.heap.size < 2 ^ 31

section Grown

variable {table : FunctorTable} {memory : Store} {cells : Set Address}
  {word : Word}

theorem Growable.toInt_succ (growable : memory.Growable) :
    (memory.heapTop + 1).toInt = memory.heapTop.toInt + 1 := by
  have index := Int32.cast_toNatClampNeg _ growable.nonnegative
  have fits := growable.fits
  have small := growable.small
  rw [Int32.toInt_add, show (1 : Int32).toInt = 1 from rfl]
  apply Int.bmod_eq_of_le <;> omega

theorem Growable.lt_succ (growable : memory.Growable) {index : Int32} :
    index < memory.heapTop + 1 ↔ index < memory.heapTop ∨
      index = memory.heapTop := by
  rw [Int32.lt_iff_toInt_lt, Int32.lt_iff_toInt_lt, ← Int32.toInt_inj,
    growable.toInt_succ]
  omega

theorem load_grown_self (growable : memory.Growable) :
    (memory.grown word).load (.heap memory.heapTop) = .ok word := by
  obtain ⟨old, found⟩ := @exists_load memory .heap _ growable.nonnegative
    growable.fits
  exact load_put_self found word

theorem load_grown_of_ne (growable : memory.Growable) {address : Address}
    (different : address ≠ .heap memory.heapTop) :
    (memory.grown word).load address = memory.load address := by
  obtain ⟨old, found⟩ := @exists_load memory .heap _ growable.nonnegative
    growable.fits
  exact load_put_of_ne found word different

theorem top_notMem_allocated (memory : Store) :
    Address.heap memory.heapTop ∉ memory.allocated := by
  rw [heap_mem_allocated]
  exact Int32.lt_irrefl

theorem allocated_grown (growable : memory.Growable) :
    (memory.grown word).allocated =
      insert (.heap memory.heapTop) memory.allocated := by
  ext address
  rw [Set.mem_insert_iff]
  cases address with
  | heap index =>
      rw [heap_mem_allocated, heap_mem_allocated, Address.heap.injEq]
      exact growable.lt_succ.trans or_comm
  | retained index => simp [grown]
  | stack index => simp [grown]
  | _ => simp [allocated]

theorem eq_or_mem_of_grown (growable : memory.Growable) {address : Address}
    (inUse : address ∈ (memory.grown word).allocated) :
    address = .heap memory.heapTop ∨ address ∈ memory.allocated := by
  rwa [allocated_grown growable, Set.mem_insert_iff] at inUse

theorem load_grown_of_allocated (growable : memory.Growable)
    {address : Address} (inUse : address ∈ memory.allocated) :
    (memory.grown word).load address = memory.load address := by
  apply load_grown_of_ne growable
  rintro rfl
  exact top_notMem_allocated memory inUse

theorem agrees_grown (growable : memory.Growable) :
    table.Agrees memory.allocated memory (memory.grown word) :=
  .of_load fun _ inUse => load_grown_of_allocated growable inUse

/-- The cells hold terms also with the next heap cell. -/
theorem Terms.grown (terms : memory.Terms table cells)
    (growable : memory.Growable) {larger : Set Address}
    (more : cells ⊆ larger)
    (fresh : ∀ address ∈ larger, address ∈ cells ∨
      address = .heap memory.heapTop)
    (added : .heap memory.heapTop ∈ larger →
      word.IsTerm table (memory.grown word) larger)
    (written : ∀ id, word.cell = .functor id → word = .functor id) :
    (memory.grown word).Terms table larger := by
  have raised : memory.allocated ⊆ (memory.grown word).allocated := by
    rw [allocated_grown growable]
    exact Set.subset_insert _ _
  have old {address : Address} (inside : address ∈ cells) :
      (memory.grown word).load address = memory.load address :=
    load_grown_of_allocated growable (terms.inside inside)
  have isTerm {address : Address} (inside : address ∈ larger) :
      ∃ content, (memory.grown word).load address = .ok content ∧
        content.IsTerm table (memory.grown word) larger := by
    rcases fresh address inside with known | rfl
    · obtain ⟨content, found, isTerm⟩ := terms.isTerm known
      exact ⟨content, (old known).trans found,
        isTerm.formed.imp ⟨more, raised, more⟩ (agrees_grown growable),
        isTerm.sound⟩
    · exact ⟨word, load_grown_self growable, added inside⟩
  have straight {address : Address} (inside : address ∈ cells) :
      ∃ root, (memory.grown word).Leads address root := by
    obtain ⟨root, leads⟩ := terms.acyclic address inside
    exact leads.transfer terms.references (fun _ member => .inl (old member))
      inside
  refine ⟨⟨⟨?_, ?_, ?_⟩, ?_⟩, ?_, ?_, ?_, ?_⟩
  · intro address inside
    obtain ⟨content, found, isTerm⟩ := isTerm inside
    exact ⟨content, found, isTerm.formed⟩
  · intro address inside
    rcases fresh address inside with known | rfl
    · exact raised (terms.inside known)
    · rw [allocated_grown growable]
      exact Set.mem_insert _ _
  · intro address inside isRetained content found
    rcases fresh address inside with known | rfl
    · rw [old known] at found
      exact terms.retained address known isRetained content found
    · cases isRetained
  · intro address inside
    rcases fresh address inside with known | rfl
    · exact straight known
    · by_cases refers : ∃ next, word.cell = .reference next ∧
          next ≠ .heap memory.heapTop
      · obtain ⟨next, decoded, different⟩ := refers
        have member : next ∈ larger := by
          simpa only [Word.Formed, decoded] using (added inside).formed
        obtain ⟨root, leads⟩ :=
          straight ((fresh next member).resolve_right different)
        exact ⟨root, .there (load_grown_self growable) decoded different leads⟩
      · refine ⟨_, .here ⟨word, load_grown_self growable, ?_⟩⟩
        intro next decoded
        by_contra different
        exact refers ⟨next, decoded, different⟩
  · have bare := terms.bare
    unfold Store.memory at bare ⊢
    rw [Store.mk.injEq] at bare
    simp only [Store.grown, put, Store.mk.injEq, true_and]
    exact ⟨bare.2.2.2.2.1, bare.2.2.2.2.2.1, bare.2.2.2.2.2.2⟩
  · intro address inside content found
    obtain ⟨other, loaded, isTerm⟩ := isTerm inside
    rw [found] at loaded
    cases loaded
    exact isTerm.sound
  · intro address inside
    rcases fresh address inside with known | rfl
    · exact terms.segments address known
    · exact ⟨.heap, _, rfl⟩
  · intro address inUse content id found decoded
    rw [allocated_grown growable] at inUse
    rcases inUse with rfl | before
    · rw [load_grown_self growable] at found
      cases found
      exact written id decoded
    · rw [load_grown_of_allocated growable before] at found
      exact terms.canonical address before content id found decoded

theorem Terms.evolves_grown (terms : memory.Terms table cells)
    (growable : memory.Growable) {larger : Set Address}
    (more : cells ⊆ larger)
    (fresh : ∀ address ∈ larger, address ∈ cells ∨
      address = .heap memory.heapTop)
    (added : .heap memory.heapTop ∈ larger →
      word.IsTerm table (memory.grown word) larger)
    (written : ∀ id, word.cell = .functor id → word = .functor id) :
    Evolves table cells memory larger (memory.grown word) where
  more := more
  terms := terms.grown growable more fresh added written
  agrees := agrees_grown growable
  top_le := by
    intro region
    cases region with
    | heap =>
        rw [Int32.le_iff_toInt_le]
        show memory.heapTop.toInt ≤ (memory.heapTop + 1).toInt
        rw [growable.toInt_succ]
        omega
    | retained => exact Int32.le_refl _
  pointer := rfl
  capacity := by
    intro region
    cases region with
    | heap => simp [Store.grown, capacity, put]
    | retained => rfl
  fresh := by
    intro address inside
    rcases fresh address inside with known | rfl
    · exact .inl known
    · exact .inr (top_notMem_allocated memory)
  kept := fun address inUse _ => load_grown_of_allocated growable inUse

/-- A cell that is no term. -/
theorem Terms.evolves_header (terms : memory.Terms table cells)
    (growable : memory.Growable)
    (written : ∀ id, word.cell = .functor id → word = .functor id) :
    Evolves table cells memory cells (memory.grown word) := by
  refine terms.evolves_grown growable subset_rfl (fun _ => .inl) ?_ written
  intro inside
  exact absurd (terms.inside inside) (top_notMem_allocated memory)

/-- A new cell of the terms. -/
theorem Terms.evolves_cell (terms : memory.Terms table cells)
    (growable : memory.Growable)
    (isTerm : word.IsTerm table (memory.grown word)
      (insert (.heap memory.heapTop) cells)) :
    Evolves table cells memory (insert (.heap memory.heapTop) cells)
      (memory.grown word) := by
  refine terms.evolves_grown growable (Set.subset_insert _ _) ?_
    (fun _ => isTerm) ?_
  · intro address inside
    exact (Set.mem_insert_iff.mp inside).symm
  · intro id decoded
    have formed := isTerm.formed
    simp [Word.Formed, decoded] at formed

section Trees

variable {T : Type} [TreeAlgebra T]

theorem Evolves.respects_iff {before after : Store} {larger : Set Address}
    (evolves : Evolves table cells before larger after)
    (terms : before.Terms table cells)
    (same : ∀ address ∈ cells, after.load address = before.load address)
    {value : Address → T} :
    after.Respects table cells value ↔ before.Respects table cells value := by
  constructor
  · intro respects address inside word found
    obtain ⟨other, loaded, isTerm⟩ := terms.isTerm inside
    rw [found] at loaded
    cases loaded
    exact (evolves.denotes isTerm fun _ _ => rfl).mp
      (respects address inside word ((same address inside).trans found))
  · intro respects address inside word found
    obtain ⟨other, loaded, isTerm⟩ := terms.isTerm inside
    rw [same address inside, loaded] at found
    cases found
    exact (evolves.denotes isTerm fun _ _ => rfl).mpr
      (respects address inside _ loaded)

/-- A new cell has the tree of its word. -/
theorem Terms.respects_cell (terms : memory.Terms table cells)
    (growable : memory.Growable)
    (isTerm : word.IsTerm table (memory.grown word)
      (insert (.heap memory.heapTop) cells)) {value : Address → T} :
    (memory.grown word).Respects table
        (insert (.heap memory.heapTop) cells) value ↔
      memory.Respects table cells value ∧
        word.Denotes table (memory.grown word) value
          (value (.heap memory.heapTop)) := by
  have evolves := terms.evolves_cell growable isTerm
  have old : ∀ address ∈ cells,
      (memory.grown word).load address = memory.load address :=
    fun address inside =>
      load_grown_of_allocated growable (terms.inside inside)
  rw [← evolves.respects_iff terms old]
  constructor
  · intro respects
    refine ⟨fun address inside => respects address (.inr inside), ?_⟩
    exact respects _ (Set.mem_insert _ _) word (load_grown_self growable)
  · rintro ⟨respects, denotes⟩ address inside content found
    rcases Set.mem_insert_iff.mp inside with rfl | known
    · rw [load_grown_self growable] at found
      cases found
      exact denotes
    · exact respects address known content found

end Trees

end Grown

end Store

end LogicMachine
