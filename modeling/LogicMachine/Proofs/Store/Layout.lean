import LogicMachine.Proofs.Store.Memory

/-!
# The cells of a segment

Offsets are signed and have 32 bits.  As long as a segment has fewer than
`2 ^ 31` cells its cells can be counted without overflow, so claimed cells are
distinct and the arguments of a structure are the cells after its header.
-/

namespace LogicMachine

namespace Store

/-- Every cell, and the place after the last one, has an offset. -/
structure Addressable (store : Store) : Prop where
  heap : store.heap.size < 2 ^ 31
  retained : store.retained.size < 2 ^ 31
  stack : store.stack.size < 2 ^ 31

theorem Addressable.capacity {store : Store} (addressable : store.Addressable)
    (region : Region) : store.capacity region < 2 ^ 31 := by
  cases region with
  | heap => exact addressable.heap
  | retained => exact addressable.retained

end Store

/-- Offsets that stay below the limit can be counted without overflow. -/
theorem toInt_add_ofNat {start : Int32} {count : Nat}
    (nonnegative : 0 ≤ start)
    (inside : start.toNatClampNeg + count < 2 ^ 31) :
    (start + Int32.ofNat count).toInt = start.toInt + count := by
  have value := Int32.cast_toNatClampNeg start nonnegative
  have countValue : (Int32.ofNat count).toInt = count :=
    Int32.toInt_ofNat_of_lt (by omega)
  have bound := Int32.toInt_lt start
  rw [Int32.toInt_add, countValue]
  apply Int.bmod_eq_of_le <;> omega

namespace Region

theorem shift_address (region : Region) (start delta : Int32) :
    (region.address start).shift delta =
      .ok (region.address (start + delta)) := by
  cases region <;> rfl

@[simp]
theorem offset_address (region : Region) (start : Int32) :
    (region.address start).offset = start := by
  cases region <;> rfl

end Region

theorem reachable_le (arity : Nat) : Store.reachable arity ≤ arity := by
  have value : (Int32.ofNat arity).toInt = (arity : Int).bmod (2 ^ 32) :=
    Int32.toInt_ofNat
  have folded := Int.bmod_def arity (2 ^ 32)
  unfold Store.reachable Int32.toNatClampNeg
  split at folded <;> omega

namespace Address

/-- The address a number of cells further on.  Nothing is beside a code address
or a register. -/
def plus (address : Address) (count : Nat) : Address :=
  (address.shift? (Int32.ofNat count)).getD address

/-- The address of a place in memory. -/
def IsCell : Address → Prop
  | .heap _ | .retained _ | .stack _ => True
  | _ => False

theorem IsCell.shift_eq {address : Address} (isCell : address.IsCell)
    (count : Nat) :
    address.shift (Int32.ofNat count) = .ok (address.plus count) := by
  cases address with
  | heap _ | retained _ | stack _ => rfl
  | _ => cases isCell

@[simp]
theorem plus_zero (address : Address) : address.plus 0 = address := by
  have zero : Int32.ofNat 0 = 0 := rfl
  cases address <;> simp [plus, shift?, zero]

@[simp]
theorem plus_address (region : Region) (start : Int32) (count : Nat) :
    (region.address start).plus count =
      region.address (start + Int32.ofNat count) := by
  cases region <;> rfl

end Address

namespace Store

/-- The segment of a cell that can be read has room for it. -/
theorem room_of_load {store : Store} {address : Address} {word : Word}
    (found : store.load address = .ok word) :
    match address with
    | .heap index => 0 ≤ index ∧ index.toNatClampNeg < store.heap.size
    | .retained index => 0 ≤ index ∧ index.toNatClampNeg < store.retained.size
    | .stack index => 0 ≤ index ∧ index.toNatClampNeg < store.stack.size
    | _ => False := by
  have inside {words : Array Word} {index : Int32}
      (present : wordAt? words index ≠ none) :
      0 ≤ index ∧ index.toNatClampNeg < words.size := by
    cases at? : wordAt? words index with
    | none => exact absurd at? present
    | some _ =>
        obtain ⟨nonnegative, here⟩ := wordAt?_eq_some.mp at?
        obtain ⟨below, -⟩ := Array.getElem?_eq_some_iff.mp here
        exact ⟨nonnegative, below⟩
  cases address with
  | heap index | retained index | stack index =>
      apply inside
      intro missing
      simp [load, missing] at found
  | _ => cases found

theorem isCell_of_load {store : Store} {address : Address} {word : Word}
    (found : store.load address = .ok word) :
    address.IsCell ∧ 0 ≤ address.offset := by
  have room := room_of_load found
  cases address with
  | heap index | retained index | stack index => exact ⟨trivial, room.1⟩
  | _ => cases room

end Store

/-- Offsets have 31 bits and a sign, so no cell is that far from another. -/
theorem plus_offset_negative {address : Address} (isCell : address.IsCell)
    (nonnegative : 0 ≤ address.offset) {arity : Nat} (long : 2 ^ 31 ≤ arity) :
    ∃ index < arity, ¬ 0 ≤ (address.plus (index + 1)).offset := by
  have value := Int32.cast_toNatClampNeg address.offset nonnegative
  have bound := Int32.toInt_lt address.offset
  refine ⟨2 ^ 31 - 1 - address.offset.toNatClampNeg, by omega, ?_⟩
  generalize hcount :
    2 ^ 31 - 1 - address.offset.toNatClampNeg + 1 = count
  have moved : (address.plus count).offset =
      address.offset + Int32.ofNat count := by
    cases address with
    | heap _ | retained _ | stack _ => rfl
    | _ => cases isCell
  have countValue : (Int32.ofNat count).toInt = (count : Int).bmod (2 ^ 32) :=
    Int32.toInt_ofNat
  have folded := Int.bmod_def count (2 ^ 32)
  have sum := Int32.toInt_add address.offset (Int32.ofNat count)
  have foldedSum :=
    Int.bmod_def (address.offset.toInt + (Int32.ofNat count).toInt) (2 ^ 32)
  rw [moved, Int32.le_iff_toInt_le, sum, show (0 : Int32).toInt = 0 from rfl]
  split at folded <;> split at foldedSum <;> omega

namespace Store

/-- A structure whose arguments can all be read has fewer of them than there
are offsets. -/
theorem arity_lt {store : Store} {header : Address} {word : Word} {arity : Nat}
    (found : store.load header = .ok word)
    (present : ∀ index < arity, ∃ argument,
      store.load (header.plus (index + 1)) = .ok argument) :
    arity < 2 ^ 31 := by
  apply Nat.lt_of_not_le
  intro long
  obtain ⟨isCell, nonnegative⟩ := isCell_of_load found
  obtain ⟨index, inside, negative⟩ :=
    plus_offset_negative isCell nonnegative long
  obtain ⟨argument, read⟩ := present index inside
  exact negative (isCell_of_load read).2

theorem reachable_eq {arity : Nat} (small : arity < 2 ^ 31) :
    reachable arity = arity := by
  unfold reachable Int32.toNatClampNeg
  rw [Int32.toInt_ofNat_of_lt small]
  rfl

/-- The arguments of a structure are the cells after its header. -/
theorem arguments_eq {header : Address} (isCell : header.IsCell) {arity : Nat}
    (small : arity < 2 ^ 31) :
    arguments header arity =
      .ok ((List.range arity).map fun index => header.plus (index + 1)) := by
  unfold arguments
  simp only [isCell.shift_eq, reachable_eq small]
  exact List.mapM_pure

end Store

end LogicMachine
