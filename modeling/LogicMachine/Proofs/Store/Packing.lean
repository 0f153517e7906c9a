import LogicMachine.Machine.Step
import LogicMachine.Proofs.Store.Layout

/-!
# Words and what they stand for

Decoding undoes encoding, and encoding a decoded word gives a word that decodes
to the same cell, although the words themselves may differ: bits that no field
uses are lost, and segments, registers and tags that do not exist are read as
plain payload.  The instructions that build terms put tags on words and add
numbers to them without decoding.  Both act on the fields as they should, as
long as the offset of an address does not leave its range.
-/

namespace LogicMachine

namespace Word

theorem toNat_withTag (word : Word) (tag : Tag) :
    (word.withTag tag).bits.toNat =
      tag.code.toNat * 2 ^ 40 + word.bits.toNat % 2 ^ 36 := by
  have small : tag.code.toNat < 6 := by cases tag <;> decide
  have masked : (word.bits &&& addressMask).toNat =
      word.bits.toNat % 2 ^ 36 := by
    rw [UInt64.toNat_and, show addressMask.toNat = 2 ^ 36 - 1 from rfl,
      Nat.and_two_pow_sub_one_eq_mod]
  rw [withTag, UInt64.toNat_or, UInt64.toNat_shiftLeft, masked,
    show (40 : UInt64).toNat % 64 = 40 from rfl]
  rw [Nat.mod_eq_of_lt (by rw [Nat.shiftLeft_eq]; omega)]
  rw [← Nat.shiftLeft_add_eq_or_of_lt (by omega), Nat.shiftLeft_eq]

theorem tag_withTag (word : Word) (tag : Tag) :
    (word.withTag tag).tag = tag := by
  have small : tag.code.toNat < 6 := by cases tag <;> decide
  have field :
      (tag.code.toNat * 2 ^ 40 + word.bits.toNat % 2 ^ 36) / 2 ^ 40 % 16 =
        tag.code.toNat := by
    omega
  rw [Word.tag, tagField_toNat, toNat_withTag, field]
  cases tag <;> rfl

/-- The address of a word is in its lowest 36 bits. -/
theorem address_congr {word other : Word}
    (same : word.bits.toNat % 2 ^ 36 = other.bits.toNat % 2 ^ 36) :
    word.address = other.address := by
  have segment : ((word.bits &&& addressMask) >>> 32).toNat =
      ((other.bits &&& addressMask) >>> 32).toNat := by
    rw [segmentField_toNat, segmentField_toNat]
    omega
  have offset : word.bits.toUInt32 = other.bits.toUInt32 := by
    apply UInt32.toNat_inj.mp
    rw [offsetField_toNat, offsetField_toNat]
    omega
  rw [Word.address, segment, offset, Word.address]

theorem address_withTag (word : Word) (tag : Tag) :
    (word.withTag tag).address = word.address := by
  apply address_congr
  rw [toNat_withTag]
  omega

/-- A payload below the tag is read back as it is. -/
theorem cell_other {payload : UInt64} (small : payload.toNat < 2 ^ 40) :
    (Cell.other payload).pack.cell = .other payload := by
  have masked : payload &&& payloadMask = payload := by
    apply UInt64.toNat_inj.mp
    rw [UInt64.toNat_and, show payloadMask.toNat = 2 ^ 40 - 1 from rfl,
      Nat.and_two_pow_sub_one_eq_mod, Nat.mod_eq_of_lt small]
  have value : (Cell.other payload).pack.bits.toNat =
      5 * 2 ^ 40 + payload.toNat := by
    rw [Cell.pack, masked, UInt64.toNat_or,
      show (Tag.other.code <<< 40).toNat = 5 <<< 40 from rfl,
      ← Nat.shiftLeft_add_eq_or_of_lt small, Nat.shiftLeft_eq]
  have tag : (Cell.other payload).pack.tag = .other := by
    have field : (5 * 2 ^ 40 + payload.toNat) / 2 ^ 40 % 16 = 5 := by omega
    rw [Word.tag, tagField_toNat, value, field]
    rfl
  have read : (Cell.other payload).pack.bits &&& payloadMask = payload := by
    apply UInt64.toNat_inj.mp
    rw [UInt64.toNat_and, show payloadMask.toNat = 2 ^ 40 - 1 from rfl,
      Nat.and_two_pow_sub_one_eq_mod, value]
    omega
  simp only [Word.cell, tag, read]

/-- The payload in a word without a tag that is known. -/
theorem payload_lt (word : Word) :
    (word.bits &&& payloadMask).toNat < 2 ^ 40 := by
  rw [UInt64.toNat_and, show payloadMask.toNat = 2 ^ 40 - 1 from rfl,
    Nat.and_two_pow_sub_one_eq_mod]
  exact Nat.mod_lt _ (by decide)

end Word

namespace Cell

/-- The payload of the cell, if that is what it holds, fits below the tag. -/
def Fits (cell : Cell) : Prop :=
  ∀ payload, cell = .other payload → payload.toNat < 2 ^ 40

theorem cell_pack {cell : Cell} (fits : cell.Fits) : cell.pack.cell = cell := by
  cases cell with
  | reference target => exact Word.cell_reference target
  | compound header => exact Word.cell_compound header
  | functor id => exact Word.cell_functor id
  | constant id => exact Word.cell_constant id
  | list pair => exact Word.cell_list pair
  | other payload => exact Word.cell_other (fits payload rfl)

/-- Decoding gives cells that fit. -/
theorem fits_cell (word : Word) : word.cell.Fits := by
  intro payload decoded
  unfold Word.cell at decoded
  split at decoded <;> cases decoded
  exact word.payload_lt

end Cell

namespace Address

/-- The address has neighbours: it is neither code nor a register. -/
def Movable : Address → Prop
  | .code _ | .register _ => False
  | _ => True

/-- The neighbour of an address so many cells further on. -/
theorem Movable.shift? {address : Address} (movable : address.Movable)
    (delta : Int32) :
    ∃ moved, address.shift? delta = some moved ∧
      moved.segment = address.segment ∧
      moved.offset = address.offset + delta := by
  cases address with
  | code | register => exact movable.elim
  | _ => exact ⟨_, rfl, rfl, rfl⟩

/-- Counting up inside a segment carries nothing into the other fields. -/
theorem pack_add {address moved : Address} {count : Nat}
    (segment : moved.segment = address.segment)
    (offset : moved.offset.toInt = address.offset.toInt + count)
    (nonnegative : 0 ≤ address.offset.toInt) :
    (⟨address.pack.bits + count.toUInt64⟩ : Word) = moved.pack := by
  have few := address.segment_lt
  have limit := Int32.toInt_lt moved.offset
  have start : address.offset.toUInt32.toNat = address.offset.toInt.toNat := by
    rw [Int32.toNat_toUInt32_of_le (Int32.le_iff_toInt_le.mpr nonnegative)]
    rfl
  have stop : moved.offset.toUInt32.toNat = moved.offset.toInt.toNat := by
    rw [Int32.toNat_toUInt32_of_le (Int32.le_iff_toInt_le.mpr (by
      rw [offset]
      exact Int.add_nonneg nonnegative (Int.natCast_nonneg count)))]
    rfl
  apply Word.eq_of_toNat
  rw [UInt64.toNat_add, pack_toNat, pack_toNat, segment, start, stop, offset]
  simp only [Nat.toUInt64, UInt64.toNat_ofNat']
  omega

end Address

namespace MachineM

/-- What the instruction that counts up does to the word on top. -/
theorem perform_increment {machine popped : Machine} {word : Word}
    (position : Int32) (operand : UInt32)
    (taken : pop machine = .ok word popped) :
    perform position .increment operand machine =
      push ⟨word.bits + 1⟩ popped := by
  simp only [perform, bind, EStateM.bind, taken]

theorem perform_add {machine middle popped : Machine} {first second : Word}
    (position : Int32) (operand : UInt32)
    (takenFirst : pop machine = .ok first middle)
    (takenSecond : pop middle = .ok second popped) :
    perform position .add operand machine =
      push ⟨first.bits + second.bits⟩ popped := by
  simp only [perform, bind, EStateM.bind, takenFirst, takenSecond]

end MachineM

/-- The codec and the arithmetic on packed words agree with the cells and
addresses that the words stand for. -/
theorem codec_agrees :
    (∀ address : Address,
      address.pack.address = address ∧
        address.pack.cell = .reference address) ∧
    (∀ cell : Cell, cell.Fits → cell.pack.cell = cell) ∧
    (∀ word : Word, word.cell.pack.cell = word.cell) ∧
    (∀ (word : Word) (tag : Tag),
      (word.withTag tag).tag = tag ∧
        (word.withTag tag).address = word.address) ∧
    ∀ (address : Address) (count : Nat), address.Movable →
      0 ≤ address.offset.toInt → address.offset.toInt + count < 2 ^ 31 →
      ∃ moved, address.shift? (Int32.ofNat count) = some moved ∧
        moved.segment = address.segment ∧
        moved.offset.toInt = address.offset.toInt + count ∧
        (⟨address.pack.bits + count.toUInt64⟩ : Word) = moved.pack ∧
        (count = 1 → ∀ position operand machine popped,
          MachineM.pop machine = .ok address.pack popped →
            MachineM.perform position .increment operand machine =
              MachineM.push moved.pack popped) ∧
        ∀ position operand machine middle popped first second,
          (first = address.pack ∧ second = ⟨count.toUInt64⟩) ∨
            (first = ⟨count.toUInt64⟩ ∧ second = address.pack) →
          MachineM.pop machine = .ok first middle →
          MachineM.pop middle = .ok second popped →
            MachineM.perform position .add operand machine =
              MachineM.push moved.pack popped := by
  refine ⟨fun address => ⟨address.address_pack, address.cell_pack⟩,
    fun cell fits => Cell.cell_pack fits,
    fun word => Cell.cell_pack (Cell.fits_cell word),
    fun word tag => ⟨word.tag_withTag tag, word.address_withTag tag⟩, ?_⟩
  intro address count movable nonnegative inside
  obtain ⟨moved, shifted, segment, offset⟩ :=
    movable.shift? (Int32.ofNat count)
  have sum : moved.offset.toInt = address.offset.toInt + count := by
    have start : 0 ≤ address.offset := Int32.le_iff_toInt_le.mpr nonnegative
    have value := Int32.cast_toNatClampNeg address.offset start
    rw [offset, toInt_add_ofNat start (by omega)]
  have packed := Address.pack_add segment sum nonnegative
  refine ⟨moved, shifted, segment, sum, packed, ?_, ?_⟩
  · rintro rfl position operand machine popped taken
    rw [MachineM.perform_increment position operand taken, ← packed]
    rfl
  · intro position operand machine middle popped first second words taken
      takenNext
    rw [MachineM.perform_add position operand taken takenNext, ← packed]
    rcases words with ⟨rfl, rfl⟩ | ⟨rfl, rfl⟩
    · rfl
    · rw [UInt64.add_comm]

/-- A machine whose stack holds the address of a heap cell. -/
def heapAddressOnTop : Machine :=
  let empty := Machine.empty ⟨4, 4, 4, 8, false⟩ .silent
  { empty with
    store :=
      { empty.store with
        stack := empty.store.stack.setIfInBounds 0 (Address.heap 5).pack
        pointer := 0 } }

/-- A payload of 40 bits is kept, and counting up moves to the next cell. -/
theorem codec_agrees_nextCell :
    (Cell.other 0xffffffffff).pack.cell = .other 0xffffffffff ∧
      ∃ popped,
        MachineM.pop heapAddressOnTop = .ok (Address.heap 5).pack popped ∧
          MachineM.perform 0 .increment 0 heapAddressOnTop =
            MachineM.push (Address.heap 6).pack popped := by
  obtain ⟨-, cells, -, -, moves⟩ := codec_agrees
  have fits : (Cell.other 0xffffffffff).Fits := by
    rintro payload ⟨⟩
    decide
  obtain ⟨moved, shifted, -, -, -, increments, -⟩ :=
    moves (.heap 5) 1 trivial (by decide) (by decide)
  cases shifted
  exact ⟨cells _ fits, _, rfl, increments rfl 0 0 heapAddressOnTop _ rfl⟩

end LogicMachine
