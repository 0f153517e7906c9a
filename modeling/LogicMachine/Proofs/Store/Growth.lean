import LogicMachine.Store.Unify
import LogicMachine.Proofs.Unification.Valuation

/-!
# How a store grows

Copying and unifying change a store in two ways only: they bind variables, and
they claim and fill new cells of one region.  `Grows` says so, and the lemmas
before it say what the single actions do to a store that has room.
-/

namespace LogicMachine

namespace Store

section Fields

variable (store : Store) (region : Region) (value : Int32) (address : Address)
  (word : Word)

@[simp]
theorem top_put (other : Region) :
    (store.put address word).top other = store.top other := by
  cases other <;> simp [top]

@[simp]
theorem top_record (other : Region) :
    (store.record address word).top other = store.top other :=
  rfl

@[simp]
theorem top_setTop_self : (store.setTop region value).top region = value := by
  cases region <;> rfl

theorem top_setTop_of_ne {other : Region} (different : other ≠ region) :
    (store.setTop region value).top other = store.top other := by
  cases region <;> cases other <;> first | rfl | exact absurd rfl different

@[simp]
theorem capacity_put (other : Region) :
    (store.put address word).capacity other = store.capacity other := by
  cases other <;> simp [capacity]

@[simp]
theorem capacity_record (other : Region) :
    (store.record address word).capacity other = store.capacity other :=
  rfl

@[simp]
theorem capacity_setTop (other : Region) :
    (store.setTop region value).capacity other = store.capacity other := by
  cases region <;> rfl

@[simp]
theorem pointer_setTop : (store.setTop region value).pointer = store.pointer := by
  cases region <;> rfl

@[simp]
theorem stack_setTop : (store.setTop region value).stack = store.stack := by
  cases region <;> rfl

end Fields

/-- A number of further cells of a region fit in its segment. -/
def Fits (store : Store) (region : Region) (count : Nat) : Prop :=
  0 ≤ store.top region ∧
    (store.top region).toNatClampNeg + count ≤ store.capacity region

/-- The claimed cells of a region fit in its segment. -/
def Room (store : Store) (region : Region) : Prop :=
  0 ≤ store.top region ∧
    (store.top region).toNatClampNeg ≤ store.capacity region

end Store

/-! ## Claimed cells -/

section Claimed

variable {top : Int32} {count : Nat}

/-- Claiming moves the top up by the number of cells. -/
theorem claimed_top (nonnegative : 0 ≤ top)
    (small : top.toNatClampNeg + count < 2 ^ 31) :
    top ≤ top + Int32.ofNat count ∧
      (top + Int32.ofNat count).toNatClampNeg =
        top.toNatClampNeg + count := by
  have value := toInt_add_ofNat nonnegative small
  have base := Int32.cast_toNatClampNeg _ nonnegative
  have higher : top ≤ top + Int32.ofNat count := by
    rw [Int32.le_iff_toInt_le]
    omega
  have place := Int32.cast_toNatClampNeg _
    (Int32.le_trans nonnegative higher)
  exact ⟨higher, by omega⟩

/-- The cells claimed at a place lie between it and the new top. -/
theorem claimed_between (nonnegative : 0 ≤ top)
    (small : top.toNatClampNeg + count < 2 ^ 31) {index : Nat}
    (below : index < count) :
    top ≤ top + Int32.ofNat index ∧
      top + Int32.ofNat index < top + Int32.ofNat count := by
  have value := toInt_add_ofNat nonnegative
    (show top.toNatClampNeg + index < 2 ^ 31 by omega)
  have limit := toInt_add_ofNat nonnegative small
  rw [Int32.le_iff_toInt_le, Int32.lt_iff_toInt_lt]
  omega

theorem claimed_inj (nonnegative : 0 ≤ top)
    (small : top.toNatClampNeg + count < 2 ^ 31) {index other : Nat}
    (below : index < count) (otherBelow : other < count)
    (same : top + Int32.ofNat index = top + Int32.ofNat other) :
    index = other := by
  have value := toInt_add_ofNat nonnegative
    (show top.toNatClampNeg + index < 2 ^ 31 by omega)
  have otherValue := toInt_add_ofNat nonnegative
    (show top.toNatClampNeg + other < 2 ^ 31 by omega)
  rw [same] at value
  omega

/-- Nothing else lies between. -/
theorem exists_claimed (nonnegative : 0 ≤ top)
    (small : top.toNatClampNeg + count < 2 ^ 31) {place : Int32}
    (above : top ≤ place) (below : place < top + Int32.ofNat count) :
    ∃ index < count, place = top + Int32.ofNat index := by
  have limit := toInt_add_ofNat nonnegative small
  rw [Int32.le_iff_toInt_le] at above
  rw [Int32.lt_iff_toInt_lt] at below
  have counted : (place.toInt - top.toInt).toNat < count := by omega
  refine ⟨(place.toInt - top.toInt).toNat, counted, ?_⟩
  have value := toInt_add_ofNat nonnegative
    (show top.toNatClampNeg + (place.toInt - top.toInt).toNat < 2 ^ 31 by
      omega)
  apply Int32.toInt_inj.mp
  omega

theorem Store.load_claimed {store : Store} {region : Region}
    (nonnegative : 0 ≤ top) (fits : top.toNatClampNeg + count ≤
      store.capacity region)
    (small : store.capacity region < 2 ^ 31) {index : Nat}
    (below : index < count) :
    ∃ word, store.load (region.address (top + Int32.ofNat index)) =
      .ok word := by
  have value := toInt_add_ofNat nonnegative
    (show top.toNatClampNeg + index < 2 ^ 31 by omega)
  have base := Int32.cast_toNatClampNeg top nonnegative
  have inside : 0 ≤ top + Int32.ofNat index := by
    rw [Int32.le_iff_toInt_le, show (0 : Int32).toInt = 0 from rfl]
    omega
  have place := Int32.cast_toNatClampNeg _ inside
  have present {words : Array Word} (room : store.capacity region =
      words.size) :
      ∃ word, wordAt? words (top + Int32.ofNat index) = some word := by
    have exists' : (top + Int32.ofNat index).toNatClampNeg < words.size := by
      omega
    exact ⟨_, wordAt?_eq_some.mpr
      ⟨inside, Array.getElem?_eq_getElem exists'⟩⟩
  cases region with
  | heap =>
      obtain ⟨word, found⟩ := present rfl
      exact ⟨word, by simp [Store.load, Region.address, found]⟩
  | retained =>
      obtain ⟨word, found⟩ := present rfl
      exact ⟨word, by simp [Store.load, Region.address, found]⟩

end Claimed

namespace Store

@[simp]
theorem free_put (store : Store) (address : Address) (word : Word)
    (region : Region) :
    (store.put address word).free region = store.free region := by
  simp [free]

@[simp]
theorem free_record (store : Store) (address : Address) (word : Word)
    (region : Region) :
    (store.record address word).free region = store.free region :=
  rfl

/-- Claimed cells are free no more. -/
theorem free_setTop {store : Store} {region : Region} {count : Nat}
    (fits : store.Fits region count) (small : store.capacity region < 2 ^ 31) :
    (store.setTop region (store.top region + Int32.ofNat count)).free region +
      count = store.free region := by
  obtain ⟨nonnegative, fits⟩ := fits
  have value := toInt_add_ofNat nonnegative
    (show (store.top region).toNatClampNeg + count < 2 ^ 31 by omega)
  have base := Int32.cast_toNatClampNeg _ nonnegative
  have inside : 0 ≤ store.top region + Int32.ofNat count := by
    rw [Int32.le_iff_toInt_le, show (0 : Int32).toInt = 0 from rfl]
    omega
  have place := Int32.cast_toNatClampNeg _ inside
  unfold free
  rw [top_setTop_self, capacity_setTop]
  omega

/-- After a claim there is room for further cells if there was room for all of
them before. -/
theorem fits_setTop {store : Store} {region : Region} {count : Nat}
    (fits : store.Fits region count) (small : store.capacity region < 2 ^ 31)
    (more : Nat) :
    (store.setTop region (store.top region + Int32.ofNat count)).Fits region
      more ↔ store.Fits region (count + more) := by
  obtain ⟨nonnegative, below⟩ := fits
  obtain ⟨higher, value⟩ := claimed_top nonnegative
    (show (store.top region).toNatClampNeg + count < 2 ^ 31 by omega)
  have inside := Int32.le_trans nonnegative higher
  unfold Fits
  rw [top_setTop_self, capacity_setTop, value]
  simp only [nonnegative, inside, true_and]
  omega

@[simp]
theorem fits_put (store : Store) (address : Address) (word : Word)
    (region : Region) (count : Nat) :
    (store.put address word).Fits region count ↔ store.Fits region count := by
  simp [Fits]

@[simp]
theorem fits_record (store : Store) (address : Address) (word : Word)
    (region : Region) (count : Nat) :
    (store.record address word).Fits region count ↔
      store.Fits region count :=
  Iff.rfl

end Store

/-! ## Single actions -/

namespace StoreM

theorem store_eq {store : Store} {address : Address} {old : Word}
    (found : store.load address = .ok old) (value : Word) :
    StoreM.store address value store =
      .ok () ((store.record address old).put address value) := by
  unfold StoreM.store
  simp only [bind, EStateM.bind, read, Store.slot_eq_ok_iff.mpr found]
  rfl

theorem storeFresh_eq {store : Store} {region : Region} {index : Int32}
    {old : Word} (found : store.load (region.address index) = .ok old)
    (value : Word) :
    storeFresh (region.address index) value store =
      .ok () (store.put (region.address index) value) := by
  have slot := Store.slot_eq_ok_iff.mpr found
  cases region with
  | heap =>
      simp only [storeFresh, Region.address, bind, EStateM.bind, read]
      rw [show store.slot (.heap index) = .ok old from slot]
      rfl
  | retained =>
      simp only [storeFresh, Region.address, bind, EStateM.bind, read]
      rw [show store.slot (.retained index) = .ok old from slot]
      rfl

/-- Claiming cells either finds room or none. -/
theorem ends_allocate {region : Region} {count : Nat} {store : Store}
    {regular : Address → Store → Prop} {faulty : Fault → Store → Prop}
    (found : store.Fits region count →
      regular (region.address (store.top region))
        (store.setTop region (store.top region + Int32.ofNat count)))
    (full : ¬ store.Fits region count →
      faulty (.exhausted region.segment (store.capacity region)) store) :
    Ends (allocate region count store) regular faulty := by
  simp only [allocate, ends_bind, ends_get]
  split
  case isTrue none =>
    refine full fun fits => ?_
    rw [Store.Fits, ← Int32.not_lt, ← Nat.not_lt] at fits
    exact none.elim fits.1 fits.2
  case isFalse room =>
    simp only [ends_bind, ends_modify, ends_pure]
    rw [not_or, Int32.not_lt, Nat.not_lt] at room
    exact found room

end StoreM

namespace Store

/-- A functor cell that was copied from one of an earlier store.  The earlier
one belongs to a term of the given cells or to the region of the copy. -/
def HeaderCopy (region : Region) (cells : Set Address) (before after : Store)
    (address : Address) : Prop :=
  ∃ source ∈ before.allocated, before.IsHeader source ∧
    after.load address = before.load source ∧
    ((∃ index, source = region.address index) ∨
      ∃ cell ∈ cells, ∃ word, before.load cell = .ok word ∧
        word.cell = .compound source)

section HeaderCopy

variable {region : Region} {cells : Set Address} {before after : Store}
  {address : Address}

theorem HeaderCopy.of_load (copy : HeaderCopy region cells before after address)
    {later : Store} (same : later.load address = after.load address) :
    HeaderCopy region cells before later address := by
  obtain ⟨source, inUse, isHeader, loaded, named⟩ := copy
  exact ⟨source, inUse, isHeader, same.trans loaded, named⟩

theorem HeaderCopy.isHeader
    (copy : HeaderCopy region cells before after address) :
    after.IsHeader address := by
  obtain ⟨source, -, isHeader, loaded, -⟩ := copy
  unfold IsHeader at isHeader ⊢
  rw [loaded]
  exact isHeader

end HeaderCopy

/-- The later store has the cells of the earlier one, except that variables
among the given cells may be bound, and it may have more cells of one
region. -/
structure Grows (region : Region) (cells : Set Address)
    (before after : Store) : Prop where
  capacity : ∀ other, after.capacity other = before.capacity other
  stackSize : after.stack.size = before.stack.size
  pointer : after.pointer = before.pointer
  top_le : before.top region ≤ after.top region
  top_eq : ∀ other, other ≠ region → after.top other = before.top other
  room : before.Room region → after.Room region
  kept : ∀ address, after.load address = before.load address ∨
    (address ∈ cells ∧ before.Unbound address) ∨
    address ∈ above region (before.top region)

namespace Grows

variable {region : Region} {cells : Set Address} {before after : Store}

theorem refl (region : Region) (cells : Set Address) (store : Store) :
    Grows region cells store store where
  capacity := fun _ => rfl
  stackSize := rfl
  pointer := rfl
  top_le := Int32.le_refl _
  top_eq := fun _ _ => rfl
  room := id
  kept := fun _ => .inl rfl

/-- Two stretches of growth are one, if the second binds only old variables
and variables among the new cells. -/
theorem trans {middle : Store} {others : Set Address}
    (first : Grows region cells before middle)
    (second : Grows region others middle after)
    (inside : ∀ address ∈ others, address ∈ cells ∨
      address ∈ above region (before.top region)) :
    Grows region cells before after where
  capacity := fun other => (second.capacity other).trans (first.capacity other)
  stackSize := second.stackSize.trans first.stackSize
  pointer := second.pointer.trans first.pointer
  top_le := Int32.le_trans first.top_le second.top_le
  top_eq := fun other different =>
    (second.top_eq other different).trans (first.top_eq other different)
  room := fun fits => second.room (first.room fits)
  kept := by
    intro address
    rcases second.kept address with same | ⟨member, unbound⟩ | ⟨index, rfl, up⟩
    · rw [same]
      exact first.kept address
    · rcases first.kept address with same | known
      · rcases inside address member with old | new
        · refine .inr (.inl ⟨old, ?_⟩)
          unfold Unbound at unbound ⊢
          rw [← same]
          exact unbound
        · exact .inr (.inr new)
      · exact .inr known
    · exact .inr (.inr ⟨index, rfl, Int32.le_trans first.top_le up⟩)

theorem put (grows : Grows region cells before after) {address : Address}
    {old : Word} (found : after.load address = .ok old) (value : Word)
    (allowed : (address ∈ cells ∧ before.Unbound address) ∨
      address ∈ above region (before.top region)) :
    Grows region cells before (after.put address value) where
  capacity := by simpa using grows.capacity
  stackSize := by simpa using grows.stackSize
  pointer := by simpa using grows.pointer
  top_le := by simpa using grows.top_le
  top_eq := by simpa using grows.top_eq
  room := by simpa [Room] using grows.room
  kept := by
    intro queried
    by_cases same : queried = address
    · subst same
      exact .inr allowed
    · rw [load_put_of_ne found value same]
      exact grows.kept queried

theorem record (grows : Grows region cells before after) (address : Address)
    (saved : Word) :
    Grows region cells before (after.record address saved) where
  capacity := grows.capacity
  stackSize := grows.stackSize
  pointer := grows.pointer
  top_le := grows.top_le
  top_eq := grows.top_eq
  room := grows.room
  kept := grows.kept

theorem setTop (grows : Grows region cells before after) {count : Nat}
    (nonnegative : 0 ≤ after.top region)
    (fits : (after.top region).toNatClampNeg + count ≤ after.capacity region)
    (small : after.capacity region < 2 ^ 31) :
    Grows region cells before
      (after.setTop region (after.top region + Int32.ofNat count)) where
  capacity := by simpa using grows.capacity
  stackSize := by simpa using grows.stackSize
  pointer := by simpa using grows.pointer
  top_le := by
    rw [top_setTop_self]
    exact Int32.le_trans grows.top_le (claimed_top nonnegative (by omega)).1
  top_eq := by
    intro other different
    rw [top_setTop_of_ne _ _ _ different]
    exact grows.top_eq other different
  room := by
    intro _
    obtain ⟨higher, value⟩ := claimed_top nonnegative
      (show (after.top region).toNatClampNeg + count < 2 ^ 31 by omega)
    unfold Room
    rw [top_setTop_self, capacity_setTop]
    exact ⟨Int32.le_trans nonnegative higher, by omega⟩
  kept := by
    intro address
    rw [load_setTop]
    exact grows.kept address

/-- Of two stores grown from the same one, the one with the higher top has the
cells of the other. -/
theorem allocated_subset {later : Store}
    (first : Grows region cells before after)
    (second : Grows region cells before later)
    (higher : after.top region ≤ later.top region) :
    after.allocated ⊆ later.allocated := by
  have tops (other : Region) : after.top other ≤ later.top other := by
    by_cases same : other = region
    · subst same
      exact higher
    · rw [first.top_eq other same, second.top_eq other same]
      exact Int32.le_refl _
  have pointers : later.pointer = after.pointer :=
    second.pointer.trans first.pointer.symm
  intro address member
  cases address with
  | heap index =>
      rw [heap_mem_allocated] at member ⊢
      exact Int32.lt_of_lt_of_le member (tops .heap)
  | retained index =>
      rw [retained_mem_allocated] at member ⊢
      exact Int32.lt_of_lt_of_le member (tops .retained)
  | stack index =>
      rw [stack_mem_allocated] at member ⊢
      rw [pointers]
      exact member
  | _ => cases member

end Grows

/-- Cells come into use in the growing region only. -/
theorem Grows.above_of_allocated {region : Region} {cells : Set Address}
    {before after : Store} (grows : Grows region cells before after)
    {address : Address} (inUse : address ∈ after.allocated)
    (new : address ∉ before.allocated) :
    address ∈ above region (before.top region) := by
  have ofRegion (other : Region) (index : Int32)
      (isCell : address = other.address index) :
      address ∈ above region (before.top region) := by
    subst isCell
    rw [allocated_below] at inUse new
    by_cases same : other = region
    · subst same
      exact ⟨index, rfl, Int32.not_lt.mp new⟩
    · rw [grows.top_eq other same] at inUse
      exact absurd inUse new
  cases address with
  | heap index => exact ofRegion .heap index rfl
  | retained index => exact ofRegion .retained index rfl
  | stack index =>
      rw [stack_mem_allocated] at inUse new
      rw [grows.pointer] at inUse
      exact absurd inUse new
  | _ => cases inUse

theorem not_above_of_allocated {store : Store} {address : Address}
    {region : Region} (inUse : address ∈ store.allocated) :
    address ∉ above region (store.top region) := by
  rintro ⟨index, rfl, higher⟩
  exact absurd (allocated_below.mp inUse) (Int32.not_lt.mpr higher)

theorem above_subset {region : Region} {low high : Int32} (order : low ≤ high) :
    above region high ⊆ above region low := by
  rintro address ⟨index, rfl, higher⟩
  exact ⟨index, rfl, Int32.le_trans order higher⟩

end Store

/-! ## Sets of term cells -/

/-- A valuation makes the two sides of an equation equal. -/
def Equation.Holds {T : Type} (value : Address → T) (equation : Equation) :
    Prop :=
  value equation.left = value equation.right

/-- What a pointer points at, and as what: the key under which the copy of a
node is noted down. -/
def Cell.key? : Cell → Option (Tag × Address)
  | .reference address => some (.reference, address)
  | .compound header => some (.compound, header)
  | .list pair => some (.list, pair)
  | _ => none

/-- A word that was there before, or one that points at a cell of a region. -/
def Word.Stems (region : Region) (cells : Set Address) (before : Store)
    (word : Word) : Prop :=
  (∃ address ∈ cells, before.load address = .ok word) ∨
    ∃ tag index, word.cell.key? = some (tag, region.address index)

/-- The functor cell that such a word points at. -/
theorem Word.Stems.header {region : Region} {cells : Set Address}
    {before : Store} {word : Word} (stems : word.Stems region cells before)
    {header : Address} (decoded : word.cell = .compound header) :
    (∃ index, header = region.address index) ∨
      ∃ cell ∈ cells, ∃ word, before.load cell = .ok word ∧
        word.cell = .compound header := by
  rcases stems with ⟨cell, inside, found⟩ | ⟨tag, index, isKey⟩
  · exact .inr ⟨cell, inside, word, found, decoded⟩
  · rw [decoded] at isKey
    cases isKey
    exact .inl ⟨index, rfl⟩

/-- A word whose pointers all lead into a region. -/
def Word.PointsInto (region : Region) (word : Word) : Prop :=
  match word.cell with
  | .reference target | .compound target | .list target =>
      ∃ index, target = region.address index
  | _ => True

namespace Store

/-- A set of term cells that holds everything its words point at.  Retained
cells point at retained cells only, because they outlive all others. -/
structure Closed (table : FunctorTable) (store : Store)
    (cells : Set Address) : Prop where
  formed : ∀ address ∈ cells, ∃ word, store.load address = .ok word ∧
    word.Formed table store ⟨cells, store.allocated, cells⟩
  inside : cells ⊆ store.allocated
  retained : ∀ address ∈ cells, address.isRetained →
    ∀ word, store.load address = .ok word → word.PointsInto .retained

theorem Closed.word_formed {table : FunctorTable} {store : Store}
    {cells : Set Address} (closed : store.Closed table cells)
    {address : Address} (inside : address ∈ cells) {word : Word}
    (found : store.load address = .ok word) :
    word.Formed table store ⟨cells, store.allocated, cells⟩ := by
  obtain ⟨other, loaded, formed⟩ := closed.formed address inside
  cases found.symm.trans loaded
  exact formed

theorem Closed.references {table : FunctorTable} {store : Store}
    {cells : Set Address} (closed : store.Closed table cells) :
    ∀ address ∈ cells, ∀ word, store.load address = .ok word →
      ∀ next, word.cell = .reference next → next ∈ cells := by
  intro address inside word found next refers
  have formed := closed.word_formed inside found
  simpa only [Word.Formed, refers] using formed

theorem Closed.not_isHeader {table : FunctorTable} {store : Store}
    {cells : Set Address} (closed : store.Closed table cells)
    {address : Address} (inside : address ∈ cells) :
    ¬ store.IsHeader address := by
  rintro ⟨word, id, found, decoded⟩
  have formed := closed.word_formed inside found
  simp [Word.Formed, decoded] at formed

/-- A closed set of term cells whose references run in no circle.  Together
with the functor cells of its structures it may be all that is in use. -/
structure WellFormed (table : FunctorTable) (store : Store)
    (cells : Set Address) : Prop extends Closed table store cells where
  acyclic : store.Acyclic cells

/-- The term cells that are in use in a later store only. -/
def addedTo (before after : Store) : Set Address :=
  { address | address ∈ after.allocated ∧ address ∉ before.allocated ∧
    ¬ after.IsHeader address }

/-- The valuations of some cells of a store, seen on a part of them. -/
def valuations (T : Type) [TreeAlgebra T] (table : FunctorTable)
    (store : Store) (cells seen : Set Address) : Set (seen → T) :=
  { known | ∃ value : Address → T, store.Respects table cells value ∧
    ∀ address, known address = value address }

/-- A closed set of cells that was extended by new cells of one region. -/
structure Extends (table : FunctorTable) (region : Region)
    (cells : Set Address) (before : Store) (larger : Set Address)
    (after : Store) : Prop where
  more : cells ⊆ larger
  closed : after.Closed table larger
  grows : Grows region cells before after
  fresh : ∀ address ∈ larger, address ∈ cells ∨
    address ∈ above region (before.top region)
  covered : ∀ index, before.top region ≤ index → index < after.top region →
    region.address index ∈ larger ∨
      HeaderCopy region cells before after (region.address index)
  stems : ∀ address ∈ larger, ∀ word, after.load address = .ok word →
    word.Stems region cells before
  acyclic : before.Acyclic cells → after.Acyclic larger
  agrees : table.Agrees before.allocated before after

/-- The given equations hold in the earlier store exactly if the remaining ones
hold in the later store. -/
structure Reduces (T : Type) [TreeAlgebra T] (table : FunctorTable)
    (cells : Set Address) (before : Store) (larger : Set Address)
    (after : Store) (given remaining : List Equation) : Prop where
  sound : ∀ value : Address → T, after.Respects table larger value →
    (∀ equation ∈ remaining, equation.Holds value) →
    before.Respects table cells value ∧
      ∀ equation ∈ given, equation.Holds value
  complete : ∀ known : Address → T, before.Respects table cells known →
    (∀ equation ∈ given, equation.Holds known) →
    ∃ value : Address → T, after.Respects table larger value ∧
      (∀ equation ∈ remaining, equation.Holds value) ∧
      ∀ address ∈ cells, value address = known address

end Store

end LogicMachine
