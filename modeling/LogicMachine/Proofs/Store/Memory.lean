import LogicMachine.Store.Stack
import LogicMachine.Proofs.Outcome
import LogicMachine.Proofs.Store.Codec

/-!
# Reading and writing cells

The memory of a store seen through `load`.  A write changes the one cell that
it names.  Nothing but writes to cells changes what is read.
-/

namespace LogicMachine

theorem wordAt?_eq_some {words : Array Word} {index : Int32} {word : Word} :
    wordAt? words index = some word ↔
      0 ≤ index ∧ words[index.toNatClampNeg]? = some word := by
  unfold wordAt?
  split
  case isTrue negative =>
    have below := Int32.lt_iff_toInt_lt.mp negative
    simp only [reduceCtorEq, false_iff, not_and, Int32.le_iff_toInt_le]
    intro nonnegative
    omega
  case isFalse nonnegative =>
    simp only [Int32.lt_iff_toInt_lt, Int32.le_iff_toInt_le] at *
    constructor
    · intro found
      exact ⟨by omega, found⟩
    · exact And.right

theorem toNatClampNeg_inj {left right : Int32} (leftNonnegative : 0 ≤ left)
    (rightNonnegative : 0 ≤ right)
    (same : left.toNatClampNeg = right.toNatClampNeg) : left = right := by
  apply Int32.toInt_inj.mp
  rw [← Int32.cast_toNatClampNeg left leftNonnegative,
    ← Int32.cast_toNatClampNeg right rightNonnegative, same]

theorem wordAt?_setIfInBounds {words : Array Word} {index other : Int32}
    {old : Word} (value : Word) (found : wordAt? words index = some old) :
    wordAt? (words.setIfInBounds index.toNatClampNeg value) other =
      if other = index then some value else wordAt? words other := by
  obtain ⟨nonnegative, present⟩ := wordAt?_eq_some.mp found
  obtain ⟨inside, -⟩ := Array.getElem?_eq_some_iff.mp present
  unfold wordAt?
  by_cases negative : other < 0
  · have different : other ≠ index := by
      rintro rfl
      rw [Int32.lt_iff_toInt_lt] at negative
      rw [Int32.le_iff_toInt_le] at nonnegative
      omega
    simp [negative, different]
  · have otherNonnegative : 0 ≤ other := Int32.not_lt.mp negative
    by_cases same : other = index
    · subst same
      simp [negative, inside]
    · have apart : index.toNatClampNeg ≠ other.toNatClampNeg := by
        intro equal
        exact same (toNatClampNeg_inj otherNonnegative nonnegative equal.symm)
      simp [negative, same, apart]

namespace Store

@[simp]
theorem load_record (store : Store) (address : Address) (saved : Word)
    (queried : Address) :
    (store.record address saved).load queried = store.load queried :=
  rfl

@[simp]
theorem load_setTop (store : Store) (region : Region) (top : Int32)
    (queried : Address) :
    (store.setTop region top).load queried = store.load queried := by
  cases region <;> rfl

@[simp]
theorem load_withPointer (store : Store) (pointer : Int32)
    (queried : Address) :
    ({ store with pointer } : Store).load queried = store.load queried :=
  rfl

@[simp]
theorem load_withTrail (store : Store) (trail : Trail) (queried : Address) :
    ({ store with trail } : Store).load queried = store.load queried :=
  rfl

@[simp]
theorem load_withHeapTop (store : Store) (heapTop : Int32)
    (queried : Address) :
    ({ store with heapTop } : Store).load queried = store.load queried :=
  rfl

/-- A cell can be overwritten exactly if it can be read. -/
theorem slot_eq_ok_iff {store : Store} {address : Address} {word : Word} :
    store.slot address = .ok word ↔ store.load address = .ok word := by
  cases address with
  | heap index =>
      simp only [slot, load]
      cases wordAt? store.heap index with
      | none => by_cases negative : index < 0 <;> simp [negative]
      | some found => simp
  | retained index =>
      simp only [slot, load]
      cases wordAt? store.retained index with
      | none => by_cases negative : index < 0 <;> simp [negative]
      | some found => simp
  | _ => rfl

/-- A write changes what is read at its own address only. -/
theorem load_put {store : Store} {address : Address} {old : Word}
    (present : store.load address = .ok old) (value : Word)
    (queried : Address) :
    (store.put address value).load queried =
      if queried = address then .ok value else store.load queried := by
  cases address with
  | heap index =>
      have found : wordAt? store.heap index = some old := by
        simp only [load] at present
        cases read : wordAt? store.heap index <;> simp_all
      cases queried with
      | heap other =>
          simp only [put, load, wordAt?_setIfInBounds value found]
          by_cases same : other = index <;> simp [same]
      | _ => simp [put, load]
  | retained index =>
      have found : wordAt? store.retained index = some old := by
        simp only [load] at present
        cases read : wordAt? store.retained index <;> simp_all
      cases queried with
      | retained other =>
          simp only [put, load, wordAt?_setIfInBounds value found]
          by_cases same : other = index <;> simp [same]
      | _ => simp [put, load]
  | stack index =>
      have found : wordAt? store.stack index = some old := by
        simp only [load] at present
        cases read : wordAt? store.stack index <;> simp_all
      cases queried with
      | stack other =>
          simp only [put, load, wordAt?_setIfInBounds value found]
          by_cases same : other = index <;> simp [same]
      | _ => simp [put, load]
  | blank _ => simp [load] at present
  | code _ => simp [load] at present
  | register _ => simp [load] at present

@[simp]
theorem load_put_self {store : Store} {address : Address} {old : Word}
    (present : store.load address = .ok old) (value : Word) :
    (store.put address value).load address = .ok value := by
  simp [load_put present]

theorem load_put_of_ne {store : Store} {address : Address} {old : Word}
    (present : store.load address = .ok old) (value : Word)
    {queried : Address} (different : queried ≠ address) :
    (store.put address value).load queried = store.load queried := by
  simp [load_put present, different]

section Record

variable (store : Store) (address : Address) (saved : Word)

@[simp]
theorem record_trail :
    (store.record address saved).trail = store.trail.add ⟨address, saved⟩ :=
  rfl

@[simp]
theorem record_heapTop : (store.record address saved).heapTop = store.heapTop :=
  rfl

@[simp]
theorem record_retainedTop :
    (store.record address saved).retainedTop = store.retainedTop :=
  rfl

@[simp]
theorem record_pointer : (store.record address saved).pointer = store.pointer :=
  rfl

@[simp]
theorem record_heap : (store.record address saved).heap = store.heap :=
  rfl

@[simp]
theorem record_retained :
    (store.record address saved).retained = store.retained :=
  rfl

@[simp]
theorem record_stack : (store.record address saved).stack = store.stack :=
  rfl

end Record

section Put

variable (store : Store) (address : Address) (value : Word)

@[simp]
theorem put_trail : (store.put address value).trail = store.trail := by
  cases address <;> rfl

@[simp]
theorem put_heapTop : (store.put address value).heapTop = store.heapTop := by
  cases address <;> rfl

@[simp]
theorem put_retainedTop :
    (store.put address value).retainedTop = store.retainedTop := by
  cases address <;> rfl

@[simp]
theorem put_pointer : (store.put address value).pointer = store.pointer := by
  cases address <;> rfl

@[simp]
theorem put_heap_size :
    (store.put address value).heap.size = store.heap.size := by
  cases address <;> simp [put]

@[simp]
theorem put_retained_size :
    (store.put address value).retained.size = store.retained.size := by
  cases address <;> simp [put]

@[simp]
theorem put_stack_size :
    (store.put address value).stack.size = store.stack.size := by
  cases address <;> simp [put]

end Put

end Store

section Headers

variable {table : FunctorTable} {store : Store}

/-- The functor cell of a structure. -/
theorem load_of_functorAt {header : Address} {functor : Functor}
    (found : table.functorAt store header = .ok functor) :
    ∃ word id, store.load header = .ok word ∧ word.cell = .functor id ∧
      table.functor id = .ok functor := by
  unfold FunctorTable.functorAt at found
  cases read : store.load header with
  | error fault => simp [read, bind, Except.bind] at found
  | ok word =>
      simp only [read, bind, Except.bind] at found
      cases decoded : word.cell with
      | functor id =>
          simp only [decoded] at found
          exact ⟨word, id, rfl, decoded, found⟩
      | _ => simp [decoded] at found

theorem functorAt_of_load {header : Address} {word : Word} {id : FunctorId}
    {functor : Functor} (found : store.load header = .ok word)
    (decoded : word.cell = .functor id)
    (known : table.functor id = .ok functor) :
    table.functorAt store header = .ok functor := by
  simp [FunctorTable.functorAt, found, decoded, known, bind, Except.bind]

end Headers

end LogicMachine
