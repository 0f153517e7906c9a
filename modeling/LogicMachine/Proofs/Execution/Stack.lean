import LogicMachine.Proofs.Backtracking.Restoration
import LogicMachine.Proofs.Store.Growth

/-!
# The stack as a list

The slots in use are a list of words, and the rest of the store that terms live
in is its memory.  Pushing and popping change the list and leave the memory
alone; the slots above the top do not matter.
-/

namespace LogicMachine

namespace Store

/-- The heap and the retained segment. -/
def memory (store : Store) : Store :=
  { store with stack := #[], pointer := -1, trail := .empty }

section Memory

variable (store : Store)

@[simp]
theorem memory_memory : store.memory.memory = store.memory :=
  rfl

@[simp]
theorem heapTop_memory : store.memory.heapTop = store.heapTop :=
  rfl

@[simp]
theorem retainedTop_memory : store.memory.retainedTop = store.retainedTop :=
  rfl

@[simp]
theorem top_memory (region : Region) :
    store.memory.top region = store.top region := by
  cases region <;> rfl

@[simp]
theorem capacity_memory (region : Region) :
    store.memory.capacity region = store.capacity region := by
  cases region <;> rfl

@[simp]
theorem load_memory (region : Region) (index : Int32) :
    store.memory.load (region.address index) =
      store.load (region.address index) := by
  cases region <;> rfl

theorem load_memory_stack (index : Int32) (word : Word) :
    store.memory.load (.stack index) ≠ .ok word := by
  simp [memory, load, wordAt?]

@[simp]
theorem memory_record (address : Address) (saved : Word) :
    (store.record address saved).memory = store.memory :=
  rfl

@[simp]
theorem memory_withPointer (pointer : Int32) :
    ({ store with pointer } : Store).memory = store.memory :=
  rfl

@[simp]
theorem memory_withTrail (trail : Trail) :
    ({ store with trail } : Store).memory = store.memory :=
  rfl

@[simp]
theorem memory_put_stack (index : Int32) (value : Word) :
    (store.put (.stack index) value).memory = store.memory :=
  rfl

theorem memory_put (region : Region) (index : Int32) (value : Word) :
    (store.put (region.address index) value).memory =
      store.memory.put (region.address index) value := by
  cases region <;> rfl

end Memory

/-- A cell of the heap or of the retained segment is read in the memory. -/
theorem load_of_memory {store : Store} {address : Address} {word : Word}
    (found : store.memory.load address = .ok word) :
    store.load address = .ok word := by
  cases address with
  | heap index => exact found
  | retained index => exact found
  | stack index => exact absurd found (load_memory_stack store index word)
  | _ => cases found

theorem exists_load {store : Store} {region : Region} {index : Int32}
    (nonnegative : 0 ≤ index)
    (inside : index.toNatClampNeg < store.capacity region) :
    ∃ word, store.load (region.address index) = .ok word := by
  have present {words : Array Word} (fits : index.toNatClampNeg < words.size) :
      ∃ word, wordAt? words index = some word :=
    ⟨_, wordAt?_eq_some.mpr ⟨nonnegative, Array.getElem?_eq_getElem fits⟩⟩
  cases region with
  | heap =>
      obtain ⟨word, found⟩ := present inside
      exact ⟨word, by simp [load, Region.address, found]⟩
  | retained =>
      obtain ⟨word, found⟩ := present inside
      exact ⟨word, by simp [load, Region.address, found]⟩

/-- A cell in use exists. -/
theorem exists_load_of_lt {store : Store} {region : Region} {index : Int32}
    (room : store.Room region) (nonnegative : 0 ≤ index)
    (inUse : index < store.top region) :
    ∃ word, store.load (region.address index) = .ok word := by
  apply exists_load nonnegative
  have index_eq := Int32.cast_toNatClampNeg index nonnegative
  have top_eq := Int32.cast_toNatClampNeg _ room.1
  have fits := room.2
  rw [Int32.lt_iff_toInt_lt] at inUse
  omega

/-- The slots in use, bottom first. -/
structure Stacked (store : Store) (words : List Word) : Prop where
  pointer : store.pointer = Int32.ofInt (words.length - 1)
  fits : words.length ≤ store.stack.size
  holds : ∀ (index : Nat) word, words[index]? = some word →
    store.stack[index]? = some word

theorem toInt_ofInt_pred {count : Nat} (small : count < 2 ^ 31) :
    (Int32.ofInt ((count : Int) - 1)).toInt = (count : Int) - 1 := by
  apply Int32.toInt_ofInt_of_le <;> simp <;> omega

theorem toInt_ofNat {count : Nat} (small : count < 2 ^ 31) :
    (Int32.ofNat count).toInt = count :=
  Int32.toInt_ofNat_of_lt small

theorem toNatClampNeg_ofNat {count : Nat} (small : count < 2 ^ 31) :
    (Int32.ofNat count).toNatClampNeg = count := by
  rw [Int32.toNatClampNeg, toInt_ofNat small]
  rfl

theorem ofNat_nonneg {count : Nat} (small : count < 2 ^ 31) :
    (0 : Int32) ≤ Int32.ofNat count := by
  rw [Int32.le_iff_toInt_le, toInt_ofNat small]
  exact Int.natCast_nonneg count

theorem load_stack {store : Store} {index : Nat} (small : index < 2 ^ 31)
    {word : Word} :
    store.load (.stack (Int32.ofNat index)) = .ok word ↔
      store.stack[index]? = some word := by
  unfold load
  dsimp only
  have found : wordAt? store.stack (Int32.ofNat index) =
      store.stack[index]? := by
    have nonnegative : ¬ Int32.ofNat index < 0 :=
      Int32.not_lt.mpr (ofNat_nonneg small)
    rw [wordAt?, if_neg nonnegative, toNatClampNeg_ofNat small]
  rw [found]
  cases store.stack[index]? <;> simp

theorem Addressable.put {store : Store} (addressable : store.Addressable)
    (address : Address) (value : Word) :
    (store.put address value).Addressable := by
  refine ⟨?_, ?_, ?_⟩
  · cases address <;> simpa [Store.put] using addressable.heap
  · cases address <;> simpa [Store.put] using addressable.retained
  · simpa using addressable.stack

namespace Stacked

variable {store : Store} {words : List Word}

theorem small (stacked : store.Stacked words)
    (addressable : store.Addressable) : words.length < 2 ^ 31 :=
  Nat.lt_of_le_of_lt stacked.fits addressable.stack

theorem load_eq (stacked : store.Stacked words)
    (addressable : store.Addressable) {index : Nat} {word : Word}
    (found : words[index]? = some word) :
    store.load (.stack (Int32.ofNat index)) = .ok word := by
  have inside := (List.getElem?_eq_some_iff.mp found).1
  have small := stacked.small addressable
  exact (load_stack (by omega)).mpr (stacked.holds index word found)

theorem of_stack {later : Store} (stacked : store.Stacked words)
    (pointer : later.pointer = store.pointer)
    (stack : later.stack = store.stack) : later.Stacked words :=
  ⟨pointer.trans stacked.pointer, stack ▸ stacked.fits,
    stack ▸ stacked.holds⟩

/-- Dropping slots from the top. -/
theorem take {top : List Word} (stacked : store.Stacked (words ++ top)) :
    ({ store with pointer := Int32.ofInt (words.length - 1) } :
      Store).Stacked words := by
  refine ⟨rfl, ?_, ?_⟩
  · have fits := stacked.fits
    simp only [List.length_append] at fits
    exact Nat.le_trans (Nat.le_add_right _ _) fits
  · intro index word found
    apply stacked.holds
    rw [List.getElem?_append_left (List.getElem?_eq_some_iff.mp found).1]
    exact found

/-- Overwriting a slot. -/
theorem set (stacked : store.Stacked words)
    (addressable : store.Addressable) {index : Nat}
    (inside : index < words.length) (value : Word) :
    (store.put (.stack (Int32.ofNat index)) value).Stacked
      (words.set index value) := by
  have small := stacked.small addressable
  refine ⟨?_, ?_, ?_⟩
  · simpa using stacked.pointer
  · simpa using stacked.fits
  · intro other word found
    simp only [put, toNatClampNeg_ofNat (show index < 2 ^ 31 by omega)]
    have fits := stacked.fits
    by_cases same : index = other
    · subst same
      rw [List.getElem?_set_self inside] at found
      rw [Array.getElem?_setIfInBounds_self_of_lt (by omega), found]
    · rw [List.getElem?_set_ne same] at found
      rw [Array.getElem?_setIfInBounds_ne same]
      exact stacked.holds other word found

/-- Writing the slot above the top. -/
theorem push (stacked : store.Stacked words)
    (addressable : store.Addressable) (value : Word)
    (room : words.length < store.stack.size) :
    ({ store with pointer := Int32.ofNat words.length } : Store).put
      (.stack (Int32.ofNat words.length)) value |>.Stacked
      (words ++ [value]) := by
  have small : words.length < 2 ^ 31 :=
    Nat.lt_trans room addressable.stack
  refine ⟨?_, ?_, ?_⟩
  · simp only [put_pointer, List.length_append, List.length_singleton]
    rw [← Int32.ofInt_eq_ofNat]
    congr 1
    omega
  · simp only [put_stack_size, List.length_append, List.length_singleton]
    exact room
  · intro other word found
    simp only [put, toNatClampNeg_ofNat small]
    by_cases last : other = words.length
    · subst last
      rw [List.getElem?_append_right (Nat.le_refl _)] at found
      rw [Array.getElem?_setIfInBounds_self_of_lt room]
      simpa using found
    · have inside := (List.getElem?_eq_some_iff.mp found).1
      simp only [List.length_append, List.length_singleton] at inside
      rw [List.getElem?_append_left (by omega)] at found
      rw [Array.getElem?_setIfInBounds_ne (Ne.symm last)]
      exact stacked.holds other word found

end Stacked

end Store

namespace StoreM

variable {store : Store} {words : List Word}

theorem ofInt_pred_add_one (count : Nat) :
    Int32.ofInt ((count : Int) - 1) + 1 = Int32.ofNat count := by
  rw [← Int32.ofInt_eq_ofNat, show (1 : Int32) = Int32.ofInt 1 from rfl,
    ← Int32.ofInt_add]
  congr 1
  omega

/-- The stack after an action on it. -/
def Restacked (store : Store) (words : List Word) (after : Store) : Prop :=
  after.Stacked words ∧ after.memory = store.memory ∧
    (store.Addressable → after.Addressable)

theorem push_ends (stacked : store.Stacked words)
    (addressable : store.Addressable) (value : Word) :
    Ends (push value store)
      (fun _ => Restacked store (words ++ [value]))
      (fun fault after => (∃ capacity, fault = .exhausted .stack capacity) ∧
        after = store) := by
  have next : store.pointer + 1 = Int32.ofNat words.length := by
    rw [stacked.pointer, ofInt_pred_add_one]
  simp only [push, ends_bind, ends_get, next]
  by_cases full : Int32.ofNat words.length < 0 ∨
      store.stack.size ≤ (Int32.ofNat words.length).toNatClampNeg
  · rw [if_pos full]
    exact ⟨⟨_, rfl⟩, rfl⟩
  · rw [if_neg full]
    have fits := stacked.fits
    have small := addressable.stack
    have place := Store.toNatClampNeg_ofNat
      (show words.length < 2 ^ 31 by omega)
    have room : words.length < store.stack.size := by
      rw [place] at full
      omega
    have present : ∃ old, store.load (.stack (Int32.ofNat words.length)) =
        .ok old :=
      ⟨_, (Store.load_stack (by omega)).mpr
        (Array.getElem?_eq_getElem room)⟩
    obtain ⟨old, found⟩ := present
    have raised : ({ store with pointer := Int32.ofNat words.length } :
        Store).load (.stack (Int32.ofNat words.length)) = .ok old :=
      found
    rw [ends_bind, ends_modify, store_eq raised]
    refine ⟨?_, by simp, fun _ => ?_⟩
    · exact (stacked.push addressable value room).of_stack rfl rfl
    · apply Store.Addressable.put
      exact ⟨addressable.heap, addressable.retained, addressable.stack⟩

theorem peek_ends {word : Word} (stacked : store.Stacked (words ++ [word]))
    (addressable : store.Addressable) :
    Ends (peek store) (fun found after => found = word ∧ after = store)
      (fun _ _ => False) := by
  have small := stacked.small addressable
  have pointer : store.pointer = Int32.ofNat words.length := by
    rw [stacked.pointer, ← Int32.ofInt_eq_ofNat]
    congr 1
    simp only [List.length_append, List.length_singleton]
    omega
  simp only [List.length_append, List.length_singleton] at small
  have nonnegative : ¬ store.pointer < 0 := by
    rw [pointer]
    exact Int32.not_lt.mpr (Store.ofNat_nonneg (by omega))
  have found := stacked.load_eq addressable
    (show (words ++ [word])[words.length]? = some word by simp)
  simp only [peek, ends_read, if_neg nonnegative]
  rw [pointer, found]
  trivial

theorem pop_ends {word : Word} (stacked : store.Stacked (words ++ [word]))
    (addressable : store.Addressable) :
    Ends (pop store)
      (fun found after => found = word ∧ Restacked store words after)
      (fun _ _ => False) := by
  simp only [pop, ends_bind]
  refine (peek_ends stacked addressable).imp ?_ (fun _ _ => id)
  rintro found after ⟨rfl, rfl⟩
  refine ⟨rfl, ?_, rfl, fun _ => ⟨addressable.heap, addressable.retained,
    addressable.stack⟩⟩
  have pointer : after.pointer - 1 = Int32.ofInt (words.length - 1) := by
    rw [stacked.pointer, show (1 : Int32) = Int32.ofInt 1 from rfl,
      ← Int32.ofInt_sub]
    congr 1
    simp only [List.length_append, List.length_singleton]
    omega
  show ({ after with pointer := after.pointer - 1 } : Store).Stacked words
  rw [pointer]
  exact stacked.take

end StoreM

end LogicMachine
