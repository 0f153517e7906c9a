import LogicMachine.Proofs.Execution.Growing
import LogicMachine.Proofs.Reading.Preserving

/-!
# Cells that are claimed one after another

Building claims heap cells one after another and writes one word in each.  The
cells in use stay as they were, so what could be read can still be read, and the
new cells hold the words in their order.
-/

namespace LogicMachine

/-- The heap cells from an index on. -/
def Address.heapBlock (start : Int32) (count : Nat) : List Address :=
  (List.range count).map fun index => .heap (start + Int32.ofNat index)

theorem Address.heapBlock_succ (start : Int32) (count : Nat) :
    heapBlock start (count + 1) = .heap start :: heapBlock (start + 1) count := by
  have next (index : Nat) : start + Int32.ofNat (index + 1) =
      start + 1 + Int32.ofNat index := by
    rw [Int32.add_assoc, Int32.ofNat_add, Int32.add_comm (Int32.ofNat index)]
    rfl
  simp only [heapBlock, List.range_succ_eq_map, List.map_cons, List.map_map,
    List.cons.injEq, Address.heap.injEq]
  refine ⟨Int32.add_zero start, List.map_congr_left fun index _ => ?_⟩
  exact congrArg Address.heap (next index)

namespace Store

variable {table : FunctorTable} {memory : Store} {cells : Set Address}
  {word : Word} {words : List Word} {count : Nat}

/-- There is room for so many more heap cells. -/
structure Spares (memory : Store) (count : Nat) : Prop where
  nonnegative : 0 ≤ memory.heapTop
  fits : memory.heapTop.toNatClampNeg + count ≤ memory.heap.size
  small : memory.heap.size < 2 ^ 31

theorem Spares.mono {fewer : Nat} (spares : memory.Spares count)
    (le : fewer ≤ count) : memory.Spares fewer :=
  ⟨spares.nonnegative, by have fits := spares.fits; omega, spares.small⟩

theorem Spares.growable (spares : memory.Spares (count + 1)) :
    memory.Growable :=
  ⟨spares.nonnegative, by have fits := spares.fits; omega, spares.small⟩

theorem Growable.toNatClampNeg_succ (growable : memory.Growable) :
    (memory.heapTop + 1).toNatClampNeg = memory.heapTop.toNatClampNeg + 1 := by
  have index := Int32.cast_toNatClampNeg _ growable.nonnegative
  have next := growable.toInt_succ
  rw [Int32.toNatClampNeg, next]
  omega

theorem Growable.le_succ (growable : memory.Growable) :
    memory.heapTop ≤ memory.heapTop + 1 := by
  rw [Int32.le_iff_toInt_le, growable.toInt_succ]
  omega

theorem heap_size_grown (memory : Store) (word : Word) :
    (memory.grown word).heap.size = memory.heap.size := by
  simp [grown, put]

theorem Spares.grown (spares : memory.Spares (count + 1)) (word : Word) :
    (memory.grown word).Spares count where
  nonnegative :=
    Int32.le_trans spares.nonnegative spares.growable.le_succ
  fits := by
    have fits := spares.fits
    rw [heap_size_grown]
    show (memory.heapTop + 1).toNatClampNeg + count ≤ _
    rw [spares.growable.toNatClampNeg_succ]
    omega
  small := by
    rw [heap_size_grown]
    exact spares.small

/-! ## One cell -/

theorem Growable.preserves (growable : memory.Growable) (word : Word) :
    memory.Preserves (memory.grown word) where
  allocated := by
    rw [allocated_grown growable]
    exact Set.subset_insert _ _
  load := fun _ inUse => load_grown_of_allocated growable inUse

theorem Growable.holds (growable : memory.Growable) (word : Word) :
    (memory.grown word).Holds (.heap memory.heapTop) word := by
  refine ⟨?_, load_grown_self growable⟩
  rw [allocated_grown growable]
  exact Set.mem_insert _ _

/-- A new cell with a word that could be read before. -/
theorem Readable.grown (readable : memory.Readable table cells)
    (growable : memory.Growable)
    (isReadable : word.Readable table memory cells) :
    (memory.grown word).Readable table
      (insert (.heap memory.heapTop) cells) := by
  have preserves := growable.preserves word
  have holds := growable.holds word
  have later := preserves.word_readable isReadable
  exact (preserves.readable readable).with_cell holds.1 holds.2
    ⟨later.sound.mono (Set.subset_insert _ _), later.isTerm⟩

/-- A new unbound variable. -/
theorem Readable.grown_unbound (readable : memory.Readable table cells)
    (growable : memory.Growable) :
    (memory.grown (.reference (.heap memory.heapTop))).Readable table
      (insert (.heap memory.heapTop) cells) := by
  have holds := growable.holds (.reference (.heap memory.heapTop))
  refine ((growable.preserves _).readable readable).with_cell holds.1 holds.2 ?_
  constructor
  · rw [Word.cell_reference]
    exact Set.mem_insert _ _
  · rw [Word.cell_reference]
    trivial

/-! ## Several cells -/

/-- Claims a cell for each of the words. -/
def grownAll (memory : Store) (words : List Word) : Store :=
  words.foldl grown memory

theorem Spares.grownAll (spares : memory.Spares (words.length + count)) :
    (memory.grownAll words).Spares count := by
  induction words generalizing memory with
  | nil => exact spares.mono (Nat.le_add_left _ _)
  | cons word rest ih =>
      rw [List.length_cons, Nat.add_right_comm] at spares
      exact ih (spares.grown word)

theorem Spares.preserves (spares : memory.Spares words.length) :
    memory.Preserves (memory.grownAll words) := by
  induction words generalizing memory with
  | nil => exact .refl memory
  | cons word rest ih =>
      exact (spares.growable.preserves word).trans (ih (spares.grown word))

theorem heapTop_grownAll (memory : Store) (words : List Word) :
    (memory.grownAll words).heapTop =
      memory.heapTop + Int32.ofNat words.length := by
  induction words generalizing memory with
  | nil => exact (Int32.add_zero _).symm
  | cons word rest ih =>
      refine (ih (memory.grown word)).trans ?_
      rw [List.length_cons, Int32.ofNat_add, Int32.add_comm (Int32.ofNat _),
        ← Int32.add_assoc]
      rfl

/-- The new cells hold the words. -/
theorem Spares.holds (spares : memory.Spares words.length) :
    List.Forall₂ (memory.grownAll words).Holds
      (Address.heapBlock memory.heapTop words.length) words := by
  induction words generalizing memory with
  | nil => exact .nil
  | cons word rest ih =>
      rw [List.length_cons, Address.heapBlock_succ]
      have first := spares.growable.holds word
      exact .cons ((spares.grown word).preserves.holds first)
        (ih (spares.grown word))

/-- New cells with words that could be read before. -/
theorem Readable.grownAll (readable : memory.Readable table cells)
    (spares : memory.Spares words.length)
    (areReadable : ∀ word ∈ words, word.Readable table memory cells) :
    ∃ larger, cells ⊆ larger ∧
      (∀ cell ∈ Address.heapBlock memory.heapTop words.length,
        cell ∈ larger) ∧ (memory.grownAll words).Readable table larger := by
  induction words generalizing memory cells with
  | nil => exact ⟨cells, subset_rfl, nofun, readable⟩
  | cons word rest ih =>
      have growable := spares.growable
      have grown := readable.grown growable
        (areReadable word List.mem_cons_self)
      obtain ⟨larger, more, inside, last⟩ := ih grown (spares.grown word)
        fun other member => by
          have later := (growable.preserves word).word_readable
            (areReadable other (List.mem_cons_of_mem _ member))
          exact ⟨later.sound.mono (Set.subset_insert _ _), later.isTerm⟩
      refine ⟨larger, (Set.subset_insert _ _).trans more, fun cell member => ?_,
        last⟩
      rw [List.length_cons, Address.heapBlock_succ] at member
      rcases List.mem_cons.mp member with rfl | rest
      · exact more (Set.mem_insert _ _)
      · exact inside cell rest

/-! ## Compounds -/

/-- A structure in a block: its own word, its functor and its arguments. -/
def withStructure (memory : Store) (id : FunctorId) (words : List Word) :
    Store :=
  memory.grownAll
    (.compound (.heap (memory.heapTop + 1)) :: .functor id :: words)

/-- What a new compound comes to. -/
structure Compounds (table : FunctorTable) (memory : Store)
    (cells : Set Address) (name : String) (words : List Word) (after : Store)
    (word : Word) (larger : Set Address) (key : Address)
    (parts : List Address) : Prop where
  preserves : memory.Preserves after
  more : cells ⊆ larger
  readable : after.Readable table larger
  isReadable : word.Readable table after larger
  isCompound : after.Compound table word.cell key name parts
  inUse : key ∈ after.allocated
  new : key ∉ memory.allocated
  loads : List.Forall₂ after.Holds parts words

theorem Spares.headed (spares : memory.Spares (words.length + 2))
    (readable : memory.Readable table cells)
    (areReadable : ∀ word ∈ words, word.Readable table memory cells)
    {id : FunctorId} {name : String}
    (known : table.functor id = .ok ⟨name, words.length⟩) :
    ∃ larger parts, Compounds table memory cells name words
      (memory.withStructure id words)
      (.compound (.heap (memory.heapTop + 1))) larger
      (.heap (memory.heapTop + 1)) parts := by
  let own : Word := .compound (.heap (memory.heapTop + 1))
  let headed := (memory.grown own).grown (.functor id)
  have first : memory.Growable := spares.growable
  have second : (memory.grown own).Growable := (spares.grown own).growable
  have room : headed.Spares words.length := (spares.grown own).grown _
  have before : memory.Preserves headed :=
    (first.preserves own).trans (second.preserves _)
  have onward : headed.Preserves (memory.withStructure id words) :=
    room.preserves
  have header : (memory.withStructure id words).Holds
      (.heap (memory.heapTop + 1)) (.functor id) :=
    onward.holds (second.holds (.functor id))
  obtain ⟨larger, more, inside, last⟩ :=
    (before.readable readable).grownAll room fun word member =>
      before.word_readable (areReadable word member)
  have functor : table.functorAt (memory.withStructure id words)
      (.heap (memory.heapTop + 1)) = .ok ⟨name, words.length⟩ :=
    functorAt_of_load header.2 (Word.cell_functor _) known
  have parts : ((List.range words.length).map fun index =>
      (Address.heap (memory.heapTop + 1)).plus (index + 1)) =
        Address.heapBlock headed.heapTop words.length := by
    refine List.map_congr_left fun index _ => ?_
    refine (@Address.plus_address .heap _ _).trans ?_
    refine congrArg Address.heap ?_
    show memory.heapTop + 1 + Int32.ofNat (index + 1) =
      memory.heapTop + 1 + 1 + Int32.ofNat index
    rw [Int32.ofNat_add, Int32.add_comm (Int32.ofNat index),
      ← Int32.add_assoc]
    rfl
  have isCompound : (memory.withStructure id words).Compound table own.cell
      (.heap (memory.heapTop + 1)) name
      (Address.heapBlock headed.heapTop words.length) := by
    rw [← parts, Word.cell_compound]
    exact .headed functor
  refine ⟨larger, _, before.trans onward, more, last, ⟨?_, ?_⟩, isCompound,
    header.1, ?_, room.holds⟩
  · rw [Word.cell_compound]
    refine ⟨header.1, _, functor, fun index below => inside _ ?_⟩
    rw [← parts]
    exact List.mem_map.mpr ⟨index, List.mem_range.mpr below, rfl⟩
  · rw [Word.cell_compound]
    trivial
  · rw [heap_mem_allocated, Int32.not_lt]
    exact first.le_succ

theorem Spares.pair {head tail : Word} (spares : memory.Spares 2)
    (readable : memory.Readable table cells)
    (headReadable : head.Readable table memory cells)
    (tailReadable : tail.Readable table memory cells) :
    ∃ larger parts, Compounds table memory cells Term.listFunctor [head, tail]
      (memory.grownAll [head, tail]) (.list (.heap memory.heapTop)) larger
      (.heap memory.heapTop) parts := by
  have preserves : memory.Preserves (memory.grownAll [head, tail]) :=
    @Spares.preserves _ [head, tail] spares
  have holds := @Spares.holds _ [head, tail] spares
  obtain ⟨larger, more, inside, last⟩ :=
    @Readable.grownAll _ _ _ [head, tail] readable spares (by
      intro word member
      rcases List.mem_cons.mp member with rfl | member
      · exact headReadable
      · exact List.mem_singleton.mp member ▸ tailReadable)
  have parts : [Address.heap memory.heapTop,
      (Address.heap memory.heapTop).plus 1] =
        Address.heapBlock memory.heapTop 2 := by
    have next : (Address.heap memory.heapTop).plus 1 =
        .heap (memory.heapTop + Int32.ofNat 1) := @Address.plus_address .heap _ 1
    rw [next, Address.heapBlock_succ, Address.heapBlock_succ]
    rfl
  have isHead : Address.heap memory.heapTop ∈ larger :=
    inside _ (parts ▸ List.mem_cons_self)
  have isTail : (Address.heap memory.heapTop).plus 1 ∈ larger :=
    inside _ (parts ▸ List.mem_cons_of_mem _ List.mem_cons_self)
  have isCompound : (memory.grownAll [head, tail]).Compound table
      (Word.list (.heap memory.heapTop)).cell (.heap memory.heapTop)
      Term.listFunctor (Address.heapBlock memory.heapTop 2) := by
    rw [← parts, Word.cell_list]
    exact .pair _
  refine ⟨larger, _, preserves, more, last, ⟨?_, ?_⟩, isCompound,
    last.inside isHead, top_notMem_allocated memory, holds⟩
  · rw [Word.cell_list]
    exact ⟨isHead, isTail⟩
  · rw [Word.cell_list]
    trivial

end Store

end LogicMachine
