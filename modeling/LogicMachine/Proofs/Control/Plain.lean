import LogicMachine.Proofs.Backtracking.Follow
import LogicMachine.Proofs.Store.Growth
import LogicMachine.Proofs.Store.Packing
import LogicMachine.Store.Unify

/-!
# Memory that keeps off the stack

The cells of terms never refer to stack slots, to code or to registers.  The
words with that property are called plain.  Instructions also count up from the
address in a word, so a plain word leaves room for counting.

Every action on terms keeps the memory plain and leaves the stack alone.  It
writes to unbound variables and to newly claimed cells, so a heap cell that holds
anything but an unbound variable keeps its word.
-/

namespace LogicMachine

/-! ## Plain words -/

/-- The address is no stack slot, no code and no register. -/
def Address.OffStack : Address → Prop
  | .blank _ | .retained _ | .heap _ => True
  | _ => False

theorem Region.offStack (region : Region) (index : Int32) :
    (region.address index).OffStack := by
  cases region <;> trivial

theorem Address.OffStack.shift {address next : Address} {delta : Int32}
    (offStack : address.OffStack) (shifted : address.shift delta = .ok next) :
    next.OffStack := by
  cases address with
  | blank _ | retained _ | heap _ =>
      cases shifted
      trivial
  | _ => cases offStack

namespace Word

/-- The bits of the address in a word as a number. -/
def reach (word : Word) : Nat :=
  word.bits.toNat % 2 ^ 36

/-- The address in a word of that reach keeps off the stack. -/
theorem offStack_of_reach {word : Word} (near : word.reach < 12 * 2 ^ 30) :
    word.address.OffStack := by
  have segment := word.segmentField_toNat
  have low : word.bits.toNat / 2 ^ 32 % 16 < 3 := by
    unfold reach at near
    omega
  unfold Word.address
  rw [segment]
  generalize word.bits.toNat / 2 ^ 32 % 16 = number at low
  match number, low with
  | 0, _ => trivial
  | 1, _ => trivial
  | 2, _ => trivial

theorem reach_withTag (word : Word) (tag : Tag) :
    (word.withTag tag).reach = word.reach := by
  unfold reach
  rw [toNat_withTag]
  omega

/-- Counting up by a number. -/
theorem reach_add_le (word : Word) (count : UInt64) :
    (⟨count + word.bits⟩ : Word).reach ≤ count.toNat + word.reach := by
  unfold reach
  rw [UInt64.toNat_add]
  omega

end Word

theorem Cell.reach_tagged (tag : Tag) (address : Address) :
    (tagged tag address).reach =
      address.segment.toNat * 2 ^ 32 + address.offset.toUInt32.toNat := by
  have small := address.segment_lt
  have bound := address.offset.toUInt32.toNat_lt
  unfold Word.reach
  rw [Cell.tagged_toNat]
  omega

/-- The functors that constants are made of. -/
class Atoms where
  includes : FunctorId → Prop

variable [Atoms]

namespace Word

/-- The address in the word keeps off the stack, and so do the cells some way
above it.  A constant is an atom, and a functor has one written form. -/
structure Plain (word : Word) : Prop where
  near : word.reach < 11 * 2 ^ 30
  atom : ∀ {id}, word.cell = .constant id → Atoms.includes id
  written : ∀ {id}, word.cell = .functor id → word = .functor id

theorem Plain.offStack {word : Word} (plain : word.Plain) :
    word.address.OffStack := by
  have near := plain.near
  exact offStack_of_reach (by omega)

/-- A word that is no constant and no functor. -/
theorem plain_of_tag {word : Word} (other : word.tag ∉ [.constant, .functor])
    (near : word.reach < 11 * 2 ^ 30) : word.Plain where
  near := near
  atom := fun isConstant => absurd (tag_of_cell isConstant) fun same =>
    other (same ▸ List.mem_cons_self)
  written := fun isFunctor => absurd (tag_of_cell isFunctor) fun same =>
    other (same ▸ List.mem_cons_of_mem _ List.mem_cons_self)

/-- Numbers of 32 bits are plain. -/
theorem plain_of_lt {word : Word} (small : word.bits.toNat < 2 ^ 32) :
    word.Plain := by
  apply plain_of_tag
  · unfold tag
    rw [tagField_toNat, Nat.div_eq_of_lt (by omega)]
    decide
  · unfold reach
    omega

end Word

theorem Cell.plain_tagged {tag : Tag} {address : Address}
    (other : tag ∉ [.constant, .functor]) (plain : address.pack.Plain) :
    (tagged tag address).Plain := by
  apply Word.plain_of_tag
  · rwa [Word.tag_tagged]
  · rw [reach_tagged, ← reach_tagged .reference, ← address.pack_eq_tagged]
    exact plain.near

namespace Word

theorem plain_blank (offset : Int32) : (Address.blank offset).pack.Plain := by
  have bound := offset.toUInt32.toNat_lt
  apply plain_of_tag
  · rw [Address.tag_pack]
    decide
  · rw [Address.pack_eq_tagged, Cell.reach_tagged]
    simp only [Address.segment, Address.offset, UInt32.toNat_zero]
    omega

theorem plain_constant {id : FunctorId} (isAtom : Atoms.includes id) :
    (Word.constant id).Plain where
  near := by
    have near := (plain_blank id.index.toInt32).near
    rw [Address.pack_eq_tagged, Cell.reach_tagged] at near
    exact (Cell.reach_tagged ..).trans_lt near
  atom := by
    intro other same
    rw [cell_constant] at same
    cases same
    exact isAtom
  written := by
    intro other same
    rw [cell_constant] at same
    cases same

theorem plain_functor (id : FunctorId) : (Word.functor id).Plain where
  near := by
    have near := (plain_blank id.index.toInt32).near
    rw [Address.pack_eq_tagged, Cell.reach_tagged] at near
    exact (Cell.reach_tagged ..).trans_lt near
  atom := by
    intro other same
    rw [cell_functor] at same
    cases same
  written := by
    intro other same
    rw [cell_functor] at same
    cases same
    rfl

theorem plain_zero : Word.zero.Plain :=
  plain_of_lt (by decide)

/-- The address of a cell. -/
theorem plain_cell {region : Region} {index : Int32} (nonnegative : 0 ≤ index) :
    (region.address index).pack.Plain := by
  have low := Int32.toNat_toUInt32_of_le nonnegative
  have start := Int32.cast_toNatClampNeg index nonnegative
  have limit := Int32.toInt_lt index
  refine plain_of_tag (by rw [Address.tag_pack]; decide) ?_
  rw [Address.pack_eq_tagged, Cell.reach_tagged]
  cases region <;> simp only [Region.address, Address.segment, Address.offset]
  · have value : (2 : UInt32).toNat = 2 := rfl
    omega
  · have value : (1 : UInt32).toNat = 1 := rfl
    omega

end Word

namespace Store

omit [Atoms] in
theorem nonneg_of_load {store : Store} {region : Region} {index : Int32}
    {word : Word} (found : store.load (region.address index) = .ok word) :
    0 ≤ index := by
  cases region with
  | heap =>
      simp only [Region.address, load] at found
      cases there : wordAt? store.heap index with
      | none => rw [there] at found; cases found
      | some there' => exact (wordAt?_eq_some.mp there).1
  | retained =>
      simp only [Region.address, load] at found
      cases there : wordAt? store.retained index with
      | none => rw [there] at found; cases found
      | some there' => exact (wordAt?_eq_some.mp there).1

omit [Atoms] in
/-- Only cells can be read off the stack. -/
theorem region_of_load {store : Store} {address : Address} {word : Word}
    (offStack : address.OffStack) (found : store.load address = .ok word) :
    ∃ (region : Region) (index : Int32), address = region.address index := by
  cases address with
  | heap index => exact ⟨.heap, index, rfl⟩
  | retained index => exact ⟨.retained, index, rfl⟩
  | blank index => cases found
  | _ => cases offStack

theorem plain_of_load {store : Store} {address : Address} {word : Word}
    (offStack : address.OffStack) (found : store.load address = .ok word) :
    address.pack.Plain := by
  obtain ⟨region, index, rfl⟩ := region_of_load offStack found
  exact Word.plain_cell (nonneg_of_load found)

end Store

/-! ## Plain memory -/

/-- All that cells and the trail hold of terms is plain, and the segments have
room for the cells that are claimed. -/
structure Store.Tidy (store : Store) : Prop where
  cells : ∀ {address : Address} {word : Word}, address.OffStack →
    store.load address = .ok word → word.Plain
  saved : ∀ frame ∈ store.trail.frames, ∀ record ∈ frame.records,
    record.address.OffStack → record.saved.Plain
  addressable : store.Addressable
  room : ∀ region, store.Room region

/-- Heap cells keep their words unless they are unbound variables. -/
structure Store.Persists (before after : Store) : Prop where
  heapTop : before.heapTop ≤ after.heapTop
  bound : ∀ {index : Int32} {word : Word}, index < before.heapTop →
    before.load (.heap index) = .ok word →
    word.cell ≠ .reference (.heap index) →
    after.load (.heap index) = .ok word

namespace Store.Persists

omit [Atoms] in
theorem refl (store : Store) : store.Persists store :=
  ⟨Int32.le_refl _, fun _ found _ => found⟩

omit [Atoms] in
theorem trans {first second third : Store} (left : first.Persists second)
    (right : second.Persists third) : first.Persists third where
  heapTop := Int32.le_trans left.heapTop right.heapTop
  bound := fun below found isBound =>
    right.bound (Int32.lt_of_lt_of_le below left.heapTop)
      (left.bound below found isBound) isBound

end Store.Persists

/-- The later store comes from the earlier one by working on terms. -/
structure Store.Onward (before after : Store) : Prop where
  tidy : after.Tidy
  stack : after.stack = before.stack
  pointer : after.pointer = before.pointer
  level : after.trail.level = before.trail.level
  persists : before.Persists after

namespace Store

theorem Onward.refl {store : Store} (tidy : store.Tidy) : store.Onward store :=
  ⟨tidy, rfl, rfl, rfl, .refl store⟩

theorem Onward.trans {first second third : Store} (left : first.Onward second)
    (right : second.Onward third) : first.Onward third where
  tidy := right.tidy
  stack := right.stack.trans left.stack
  pointer := right.pointer.trans left.pointer
  level := right.level.trans left.level
  persists := left.persists.trans right.persists

/-- What may be overwritten: unbound variables, cells claimed since, and cells
that are not on the heap. -/
def Open (before store : Store) (address : Address) : Prop :=
  ∀ index, address = .heap index → index < before.heapTop →
    ∀ word, store.load address = .ok word → word.cell = .reference address

/-- Words that may be recorded when their cell is overwritten. -/
theorem Tidy.record {store : Store} (tidy : store.Tidy) {address : Address}
    {old : Word} (present : store.load address = .ok old) :
    (store.record address old).Tidy where
  cells := tidy.cells
  saved := by
    intro frame member record inside offStack
    cases frames : store.trail.frames with
    | nil =>
        rw [record_trail, Trail.add_frames_nil frames] at member
        cases member
    | cons newest rest =>
        rw [record_trail, Trail.add_frames_cons frames] at member
        rcases List.mem_cons.mp member with rfl | older
        · unfold Frame.add at inside
          split at inside
          · rcases List.mem_cons.mp inside with rfl | earlier
            · exact tidy.cells offStack present
            · exact tidy.saved newest (by simp [frames]) record earlier
                offStack
          · exact tidy.saved newest (by simp [frames]) record inside offStack
        · exact tidy.saved frame (by simp [frames, older]) record inside
            offStack
  addressable := ⟨tidy.addressable.heap, tidy.addressable.retained,
    tidy.addressable.stack⟩
  room := fun region => by
    have room := tidy.room region
    cases region <;> exact room

theorem Tidy.put {store : Store} (tidy : store.Tidy) {address : Address}
    {old value : Word} (present : store.load address = .ok old)
    (plain : address.OffStack → value.Plain) :
    (store.put address value).Tidy where
  cells := by
    intro queried word offStack found
    rw [load_put present] at found
    split at found
    case isTrue same =>
      cases found
      exact plain (same ▸ offStack)
    case isFalse => exact tidy.cells offStack found
  saved := by
    rw [put_trail]
    exact tidy.saved
  addressable := ⟨by simpa using tidy.addressable.heap,
    by simpa using tidy.addressable.retained,
    by simpa using tidy.addressable.stack⟩
  room := fun region => by
    have room := tidy.room region
    cases region <;> simpa [Room, top, capacity] using room

omit [Atoms] in
theorem stack_put {store : Store} {address : Address}
    (offStack : address.OffStack) (value : Word) :
    (store.put address value).stack = store.stack := by
  cases address with
  | blank _ | retained _ | heap _ => rfl
  | _ => cases offStack

/-- Writing a plain word where it does no harm. -/
theorem Onward.put {before store : Store} (onward : before.Onward store)
    {address : Address} {old value : Word}
    (present : store.load address = .ok old) (offStack : address.OffStack)
    (isOpen : before.Open store address) (plain : value.Plain) :
    before.Onward (store.put address value) where
  tidy := onward.tidy.put present fun _ => plain
  stack := (stack_put offStack value).trans onward.stack
  pointer := (put_pointer ..).trans onward.pointer
  level := by
    rw [put_trail]
    exact onward.level
  persists := by
    refine ⟨by simpa using onward.persists.heapTop, ?_⟩
    intro index word below found isBound
    have kept := onward.persists.bound below found isBound
    rw [load_put present]
    split
    case isTrue same =>
      subst same
      exact absurd (isOpen index rfl below word kept) isBound
    case isFalse => exact kept

theorem Onward.record {before store : Store} (onward : before.Onward store)
    {address : Address} {old : Word} (present : store.load address = .ok old) :
    before.Onward (store.record address old) where
  tidy := onward.tidy.record present
  stack := onward.stack
  pointer := onward.pointer
  level := by
    rw [record_trail, Trail.add_level]
    exact onward.level
  persists := ⟨onward.persists.heapTop, onward.persists.bound⟩

/-- A recorded write. -/
theorem Tidy.overwrite {store : Store} (tidy : store.Tidy) {address : Address}
    {old value : Word} (present : store.load address = .ok old)
    (plain : address.OffStack → value.Plain) :
    ((store.record address old).put address value).Tidy := by
  have found : (store.record address old).load address = .ok old := present
  exact (tidy.record present).put found plain

theorem Onward.overwrite {before store : Store}
    (onward : before.Onward store) {address : Address} {old value : Word}
    (present : store.load address = .ok old) (offStack : address.OffStack)
    (isOpen : before.Open store address) (plain : value.Plain) :
    before.Onward ((store.record address old).put address value) := by
  have found : (store.record address old).load address = .ok old := present
  exact (onward.record present).put found offStack isOpen plain

/-- Claiming cells of a region. -/
theorem Onward.setTop {before store : Store} (onward : before.Onward store)
    {region : Region} {value : Int32} (higher : store.top region ≤ value)
    (fits : value.toNatClampNeg ≤ store.capacity region) :
    before.Onward (store.setTop region value) where
  tidy := by
    refine ⟨?_, ?_, ?_, ?_⟩
    · intro address word offStack found
      rw [load_setTop] at found
      exact onward.tidy.cells offStack found
    · cases region <;> exact onward.tidy.saved
    · have sizes := onward.tidy.addressable
      cases region <;> exact ⟨sizes.heap, sizes.retained, sizes.stack⟩
    · intro other
      have room := onward.tidy.room other
      by_cases same : other = region
      · subst same
        refine ⟨?_, ?_⟩
        · rw [top_setTop_self]
          exact Int32.le_trans room.1 higher
        · rw [top_setTop_self, capacity_setTop]
          exact fits
      · refine ⟨?_, ?_⟩
        · rw [top_setTop_of_ne _ _ _ same]
          exact room.1
        · rw [top_setTop_of_ne _ _ _ same, capacity_setTop]
          exact room.2
  stack := (stack_setTop ..).trans onward.stack
  pointer := (pointer_setTop ..).trans onward.pointer
  level := by cases region <;> exact onward.level
  persists := by
    constructor
    · cases region with
      | heap => exact Int32.le_trans onward.persists.heapTop higher
      | retained => exact onward.persists.heapTop
    · intro index word below found isBound
      rw [load_setTop]
      exact onward.persists.bound below found isBound

end Store

end LogicMachine
