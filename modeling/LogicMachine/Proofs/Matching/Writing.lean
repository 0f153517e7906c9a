import LogicMachine.Proofs.Construction.Pieces
import LogicMachine.Proofs.Matching.Compound

/-!
# Building a compound of the head

When the subject of a match is a variable that is not bound, the compound is
built on the heap and the variable is bound to it.  Its own word is written
first, in a cell that belongs to no term before all arguments are there.  Each
argument gets a cell, and with it the demand on the compound becomes a demand on
one cell more.
-/

namespace LogicMachine

/-! ## The pieces of code -/

namespace View

variable {view : View} {wanted : View → Prop} {word : Word}

theorem after_top {rest : List Item}
    (holds : (view.push (.address (.heap view.memory.heapTop))).AfterAll wanted
      rest) : view.AfterAll wanted (Item.top :: rest) :=
  holds

/-- Claiming the cell that was just written. -/
theorem after_claimCell (growable : view.memory.Growable)
    (holds : wanted (view.withMemory (view.memory.grown word))) :
    (view.prepare view.memory.heapTop word).AfterAll wanted
      Item.claimCell := by
  refine ⟨.heap, view.memory.heapTop, rfl, growable.nonnegative, ?_⟩
  refine ⟨growable.le_succ, ?_, ?_, holds⟩
  · show (view.memory.heapTop + 1).toNatClampNeg ≤ _
    rw [growable.toNatClampNeg_succ]
    simpa [prepare, push] using Nat.succ_le_of_lt growable.fits
  · intro index low high
    obtain lower | rfl := growable.lt_succ.mp high
    · exact absurd lower (Int32.not_lt.mpr low)
    · exact List.mem_cons_self

/-- Writing a heap cell, if there is room for it. -/
theorem after_storeHeap {index : Int32} {rest : List Operand}
    (nonnegative : 0 ≤ index)
    (top : view.operands = .word word :: .address (.heap index) :: rest)
    (holds : index.toNatClampNeg < view.memory.heap.size →
      wanted (View.prepare { view with operands := rest } index word)) :
    view.After wanted (.plain .store) := by
  simp only [After, top]
  exact .inr ⟨index, rfl, nonnegative, holds⟩

/-- Writing the cell at the top of the heap, if there is room for it. -/
theorem after_storeTop {rest : List Operand} (room : view.memory.Room .heap)
    (small : view.memory.heap.size < 2 ^ 31)
    (top : view.operands =
      .word word :: .address (.heap view.memory.heapTop) :: rest)
    (holds : view.memory.Growable → wanted
      (View.prepare { view with operands := rest } view.memory.heapTop word)) :
    view.After wanted (.plain .store) :=
  after_storeHeap room.1 top fun fits => holds ⟨room.1, fits, small⟩

/-- Putting the word of a slot or a constant in the next cell. -/
theorem after_write {value : Built} (room : view.memory.Room .heap)
    (small : view.memory.heap.size < 2 ^ 31)
    (stands : value.Stands view word)
    (holds : view.memory.Growable →
      wanted (view.withMemory (view.memory.grown word))) :
    view.AfterAll wanted value.write := by
  have stored : ((view.push (.address (.heap view.memory.heapTop))).push
      (.word word)).AfterAll wanted (.plain .store :: Item.claimCell) :=
    after_storeTop room small rfl fun growable =>
      after_claimCell growable (holds growable)
  apply after_top
  cases value with
  | slot place =>
      show View.AfterAll _ wanted
        (Item.onLocal .loadLocal place :: .plain .store :: Item.claimCell)
      exact after_loadLocal stands.1 stands.2 stored
  | constant id =>
      cases stands
      exact ⟨id, rfl, stored⟩

/-- Making a variable in the next cell. -/
theorem after_freshVariable (room : view.memory.Room .heap)
    (small : view.memory.heap.size < 2 ^ 31)
    (holds : view.memory.Growable → wanted (view.withMemory
      (view.memory.grown (.reference (.heap view.memory.heapTop))))) :
    view.AfterAll wanted (Item.freshVariable none) := by
  let cell := Address.heap view.memory.heapTop
  have stored : ((view.push (.address cell)).push
      (.word (.reference cell))).AfterAll wanted
        (.plain .store :: Item.claimCell) :=
    after_storeTop room small rfl fun growable =>
      after_claimCell growable (holds growable)
  exact stored

/-- Making a variable in the next cell, with a slot for it. -/
theorem after_freshVariable_slot {slot : Local} (room : view.memory.Room .heap)
    (small : view.memory.heap.size < 2 ^ 31) (few : slot.index < 2 ^ 31)
    (inside : slot.index < view.locals.length)
    (holds : view.memory.Growable → wanted (view.built
      (view.memory.grown (.reference (.heap view.memory.heapTop))) slot
      (.reference (.heap view.memory.heapTop)))) :
    view.AfterAll wanted (Item.freshVariable (some slot)) := by
  let cell := Address.heap view.memory.heapTop
  let prepared := view.prepare view.memory.heapTop (.reference cell)
  have kept (growable : view.memory.Growable) : prepared.AfterAll wanted
      (Item.top :: .plain .load :: Item.onLocal .storeLocal slot ::
        Item.claimCell) := by
    obtain ⟨old, there⟩ := @Store.exists_load view.memory .heap _
      growable.nonnegative growable.fits
    have loads : (prepared.push (.address cell)).Loads cell
        (.reference cell) :=
      .inl ⟨.inr List.mem_cons_self, Store.load_put_self there _⟩
    apply after_top
    refine after_load rfl loads ?_
    refine after_storeLocal few rfl inside ?_
    exact @after_claimCell (view.setLocal slot.index (.word (.reference cell)))
      wanted (.reference cell) growable (holds growable)
  have stored : ((view.push (.address cell)).push
      (.word (.reference cell))).AfterAll wanted
        (.plain .store :: Item.top :: .plain .load ::
          Item.onLocal .storeLocal slot :: Item.claimCell) :=
    after_storeTop room small rfl kept
  exact stored

/-- Putting a word in the next cell that points at the cell after it, with the
address of the cell in a slot. -/
theorem after_pointer {cursor : Local} {opcode : Opcode} {rest : List Item}
    (tag : Tag) (isTag : ∀ (later : View) (wanted : View → Prop),
      After.tagged later wanted tag → later.After wanted (.plain opcode))
    (room : view.memory.Room .heap) (small : view.memory.heap.size < 2 ^ 31)
    (few : cursor.index < 2 ^ 31) (inside : cursor.index < view.locals.length)
    (holds : view.memory.Growable →
      ((view.setLocal cursor.index (.address (.heap view.memory.heapTop))).prepare
        view.memory.heapTop
        (Cell.tagged tag (.heap (view.memory.heapTop + 1)))).AfterAll wanted
          rest) :
    view.AfterAll wanted
      ([Item.top, .plain .duplicate, .plain .increment, .plain opcode,
        .plain .store, Item.top, Item.onLocal .storeLocal cursor] ++ rest) := by
  let own : Word := Cell.tagged tag (.heap (view.memory.heapTop + 1))
  have kept (growable : view.memory.Growable) :
      ((view.prepare view.memory.heapTop own).push
        (.address (.heap view.memory.heapTop))).AfterAll wanted
          (Item.onLocal .storeLocal cursor :: rest) :=
    after_storeLocal few rfl inside (holds growable)
  have stored : ((view.push (.address (.heap view.memory.heapTop))).push
      (.word own)).AfterAll wanted
        (.plain .store :: Item.top :: Item.onLocal .storeLocal cursor :: rest) :=
    after_storeTop room small rfl kept
  refine ⟨.heap, view.memory.heapTop, rfl, room.1, ?_⟩
  apply isTag
  exact stored

/-- Putting a functor cell behind the cell that was just written. -/
theorem after_claimHeader {id : FunctorId} (growable : view.memory.Growable)
    (holds : (view.memory.grown word).Growable → wanted
      (view.withMemory ((view.memory.grown word).grown (.functor id)))) :
    (view.prepare view.memory.heapTop word).AfterAll wanted
      (Item.claimHeader id) := by
  have nonnegative : 0 ≤ view.memory.heapTop + 1 :=
    Int32.le_trans growable.nonnegative growable.le_succ
  have sum : view.memory.heapTop + Int32.ofNat 2 =
      view.memory.heapTop + 1 + 1 := by
    rw [Int32.add_assoc]
    rfl
  refine ⟨.heap, view.memory.heapTop, rfl, growable.nonnegative, id, rfl, ?_⟩
  refine after_storeHeap nonnegative rfl fun fits => ?_
  have second : (view.memory.grown word).Growable :=
    ⟨nonnegative, fits, by rw [Store.heap_size_grown]; exact growable.small⟩
  refine ⟨.heap, view.memory.heapTop, 2, rfl, growable.nonnegative, by decide,
    rfl, ?_⟩
  rw [sum]
  refine ⟨Int32.le_trans growable.le_succ second.le_succ, ?_, ?_,
    holds second⟩
  · have next : (view.memory.heapTop + 1 + 1).toNatClampNeg =
        (view.memory.heapTop + 1).toNatClampNeg + 1 :=
      second.toNatClampNeg_succ
    show (view.memory.heapTop + 1 + 1).toNatClampNeg ≤ _
    rw [next]
    simpa [prepare, push] using Nat.succ_le_of_lt fits
  · intro index low high
    rcases second.lt_succ.mp high with lower | rfl
    · obtain below | rfl := growable.lt_succ.mp lower
      · exact absurd below (Int32.not_lt.mpr low)
      · exact List.mem_cons_of_mem _ List.mem_cons_self
    · exact List.mem_cons_self

end View

/-! ## A cell for an argument -/

/-- The tree of a word depends on the trees of the cells only. -/
theorem Word.IsTerm.denotes_iff {T : Type} [TreeAlgebra T]
    {table : FunctorTable} {memory : Store} {cells : Set Address} {word : Word}
    (isTerm : word.IsTerm table memory cells) {value known : Address → T}
    (same : ∀ address ∈ cells, value address = known address) {tree : T} :
    word.Denotes table memory value tree ↔
      word.Denotes table memory known tree := by
  constructor
  · intro denotes
    exact denotes.congr isTerm.formed (fun _ _ _ => id)
      (fun address inside => (same address inside).symm)
      (fun address inside => (same address inside).symm)
  · exact fun denotes => denotes.congr isTerm.formed (fun _ _ _ => id) same same

namespace Scene

variable {scene : Scene} {view : View} {cells : Set Address}
  {kept : List Keep} {waiting : List Demand} {content word : Word}
  {symbol : Symbol} {base : Address} {count : Nat} {term : Term}
  {rest : List Term}

theorem Ready.words_built
    (ready : scene.Ready view cells kept
      (⟨content, .builds symbol base count rest⟩ :: waiting)) :
    content.IsTerm scene.table view.memory cells ∧
      ∀ index < count, base.plus index ∈ cells := by
  have known := ready.awaited _ List.mem_cons_self
  refine ⟨known content List.mem_cons_self, fun index below => ?_⟩
  apply (known (.reference (base.plus index)) ?_).mem_of_reference
  exact List.mem_cons_of_mem _ (List.mem_map_of_mem (List.mem_range.mpr below))

theorem Ready.words_written {extra : List Demand}
    (ready : scene.Ready view cells kept
      (⟨content, .builds symbol base count (term :: rest)⟩ :: waiting))
    (place : base.plus count = .heap view.memory.heapTop)
    (evolves : Store.Evolves scene.table cells view.memory
      (insert (.heap view.memory.heapTop) cells) (view.memory.grown word))
    (areTerms : ∀ demand ∈ extra, ∀ other ∈ demand.words,
      other.IsTerm scene.table (view.memory.grown word)
        (insert (.heap view.memory.heapTop) cells)) :
    ∀ demand ∈
        extra ++ ⟨content, .builds symbol base (count + 1) rest⟩ :: waiting,
      ∀ other ∈ demand.words, other.IsTerm scene.table
        (view.memory.grown word)
        (insert (.heap view.memory.heapTop) cells) := by
  obtain ⟨known, filled⟩ := ready.words_built
  intro demand member other isWord
  rcases List.mem_append.mp member with new | member
  · exact areTerms demand new other isWord
  rcases List.mem_cons.mp member with rfl | waits
  · rcases List.mem_cons.mp isWord with rfl | isArgument
    · exact evolves.isTerm known
    · obtain ⟨index, below, rfl⟩ := List.mem_map.mp isArgument
      apply isTerm_reference
      rcases Nat.lt_succ_iff_lt_or_eq.mp (List.mem_range.mp below) with
        old | rfl
      · exact .inr (filled index old)
      · rw [place]
        exact Set.mem_insert _ _
  · exact evolves.isTerm
      (ready.awaited demand (List.mem_cons_of_mem _ waits) other isWord)

theorem Ready.covered_written {extra : List Demand}
    (ready : scene.Ready view cells kept
      (⟨content, .builds symbol base count (term :: rest)⟩ :: waiting))
    (growable : view.memory.Growable) {address : Address}
    (inUse : address ∈ (view.memory.grown word).allocated) :
    address ∈ scene.start.memory.allocated ∨
      address ∈ insert (.heap view.memory.heapTop) cells ∨
      (view.memory.grown word).IsHeader address ∨
      ∃ demand ∈
          extra ++ ⟨content, .builds symbol base (count + 1) rest⟩ :: waiting,
        demand.wish.Spares address := by
  rcases Store.eq_or_mem_of_grown growable inUse with rfl | wasUsed
  · exact .inr (.inl (Set.mem_insert _ _))
  rcases ready.covered address wasUsed with
    old | inside | isHeader | ⟨demand, member, spared⟩
  · exact .inl old
  · exact .inr (.inl (Set.mem_insert_of_mem _ inside))
  · exact .inr (.inr (.inl (isHeader.of_load
      (Store.load_grown_of_allocated growable wasUsed))))
  · refine .inr (.inr (.inr ?_))
    rcases List.mem_cons.mp member with rfl | waits
    · exact ⟨⟨content, .builds symbol base (count + 1) rest⟩, by simp,
        spared⟩
    · exact ⟨demand, by simp [waits], spared⟩

/-- The next cell gets a word for the next argument, and what more there is to
say about the argument becomes a demand of its own. -/
theorem Ready.written {extra : List Demand}
    (ready : scene.Ready view cells kept
      (⟨content, .builds symbol base count (term :: rest)⟩ :: waiting))
    (growable : view.memory.Growable)
    (place : base.plus count = .heap view.memory.heapTop)
    (isTerm : word.IsTerm scene.table (view.memory.grown word)
      (insert (.heap view.memory.heapTop) cells))
    (areTerms : ∀ demand ∈ extra, ∀ other ∈ demand.words,
      other.IsTerm scene.table (view.memory.grown word)
        (insert (.heap view.memory.heapTop) cells))
    (means : ∀ (T : Type) [TreeAlgebra T] (value : Address → T)
      (bound : String → T),
      (∀ demand ∈ waiting ++ kept.map Keep.demand,
        demand.Met scene.table scene.naming view.memory value bound) →
      (word.Denotes scene.table (view.memory.grown word) value
            (value (base.plus count)) ∧
          (∀ demand ∈ extra, demand.Met scene.table scene.naming
            (view.memory.grown word) value bound) ↔
        term.Takes scene.naming bound (value (base.plus count)))) :
    scene.Ready (view.withMemory (view.memory.grown word))
      (insert (.heap view.memory.heapTop) cells) kept
      (extra ++ ⟨content, .builds symbol base (count + 1) rest⟩ :: waiting) := by
  have evolves := ready.terms.evolves_cell growable isTerm
  obtain ⟨known, filled⟩ := ready.words_built
  have others : ∀ demand ∈ waiting ++ kept.map Keep.demand,
      ∀ other ∈ demand.words, other.IsTerm scene.table view.memory cells :=
    fun demand member => ready.isTerm demand (List.mem_cons_of_mem _ member)
  -- The demands other than that on the compound, in both memories.
  have still {T : Type} [TreeAlgebra T] {value earlier : Address → T}
      {bound : String → T}
      (same : ∀ address ∈ cells, value address = earlier address) :
      ∀ demand ∈ waiting ++ kept.map Keep.demand,
        (demand.Met scene.table scene.naming (view.memory.grown word) value
            bound ↔
          demand.Met scene.table scene.naming view.memory earlier bound) :=
    fun demand member => Demand.met_iff evolves (others demand member) same
  refine ⟨evolves.terms, rfl, ready.operands, ready.below, ready.length,
    ready.continuation, ready.cutBase, ?_,
    ready.words_written place evolves areTerms,
    ready.refines.trans ⟨.of_evolves evolves _ _, ?_, ?_⟩,
    fun _ => ready.covered_written growable⟩
  case refine_1 =>
    intro keep member
    obtain ⟨found, isTerm⟩ := ready.stored keep member
    exact ⟨found, evolves.isTerm isTerm⟩
  case refine_2 =>
    intro T _ value bound solves
    obtain ⟨respects, denotes⟩ :=
      (ready.terms.respects_cell growable isTerm).mp solves.respects
    have met : ∀ demand ∈ waiting ++ kept.map Keep.demand,
        demand.Met scene.table scene.naming view.memory value bound := by
      intro demand member
      apply (still (fun _ _ => rfl) demand member).mp
      apply solves.met
      simp only [List.mem_append, List.mem_cons] at member ⊢
      tauto
    have takes := (means T value bound met).mp ⟨place ▸ denotes,
      fun demand member => solves.met demand (by simp [member])⟩
    refine ⟨respects, fun demand member => ?_⟩
    rcases List.mem_cons.mp member with rfl | other
    · obtain ⟨tree, denotes, allows⟩ := solves.met
        ⟨content, .builds symbol base (count + 1) rest⟩ (by simp)
      apply Demand.met_next
      exact ⟨⟨tree, (evolves.denotes known fun _ _ => rfl).mp denotes, allows⟩,
        takes⟩
    · exact met demand other
  case refine_3 =>
    intro T _ earlier bound solves
    obtain ⟨tree, denotes, children, shape, front, takes, more⟩ :=
      solves.met _ List.mem_cons_self
    let value := Function.update earlier (base.plus count) (children count)
    have here : value (base.plus count) = children count :=
      Function.update_self _ _ _
    have same : ∀ address ∈ cells, value address = earlier address := by
      intro address inside
      apply Function.update_of_ne
      rintro rfl
      rw [place] at inside
      exact Store.top_notMem_allocated _ (ready.terms.inside inside)
    have met : ∀ demand ∈ waiting ++ kept.map Keep.demand,
        demand.Met scene.table scene.naming view.memory value bound := by
      intro demand member
      apply (Demand.met_congr fun word isWord _ =>
        (others demand member word isWord).denotes_iff same).mpr
      exact solves.met demand (List.mem_cons_of_mem _ member)
    have fits : term.Takes scene.naming bound (value (base.plus count)) := by
      rw [here]
      exact takes
    obtain ⟨written, added⟩ := (means T value bound met).mpr fits
    rw [place] at written
    refine ⟨value, ⟨(ready.terms.respects_cell growable isTerm).mpr
      ⟨solves.respects.congr ready.terms.toClosed same, written⟩, ?_⟩, same⟩
    intro demand member
    simp only [List.mem_append, List.mem_cons] at member
    rcases member with (new | rfl | waits) | keeps
    · exact added demand new
    · refine ⟨tree, (evolves.denotes known same).mpr denotes, children, shape,
        fun index below => ?_, more.congr fun index _ => ?_⟩
      · rcases Nat.lt_succ_iff_lt_or_eq.mp below with old | rfl
        · rw [front index old, same _ (filled index old)]
        · exact here.symm
      · rw [Nat.add_right_comm, Nat.add_assoc]
    · exact (still (fun _ _ => rfl) demand
        (List.mem_append_left _ waits)).mpr
          (met demand (List.mem_append_left _ waits))
    · exact (still (fun _ _ => rfl) demand
        (List.mem_append_right _ keeps)).mpr
          (met demand (List.mem_append_right _ keeps))

end Scene

end LogicMachine
