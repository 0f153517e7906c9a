import Mathlib.Algebra.BigOperators.Fin
import LogicMachine.Store.Word

/-!
# Packing and unpacking words

A packed word is a number with three fields: the offset below `2 ^ 32`, the
segment above it and the tag from `2 ^ 40` on.  All facts about the codec are
read off that number.
-/

namespace LogicMachine

namespace Address

theorem segment_lt (address : Address) : address.segment.toNat < 6 := by
  cases address <;> simp [segment]

theorem pack_toNat (address : Address) :
    address.pack.bits.toNat =
      address.segment.toNat * 2 ^ 32 + address.offset.toUInt32.toNat := by
  have small := address.segment_lt
  have bound := address.offset.toUInt32.toNat_lt
  rw [pack, UInt64.toNat_or, UInt64.toNat_shiftLeft, UInt32.toNat_toUInt64,
    UInt32.toNat_toUInt64, show (32 : UInt64).toNat % 64 = 32 from rfl]
  rw [Nat.mod_eq_of_lt (by rw [Nat.shiftLeft_eq]; omega)]
  rw [← Nat.shiftLeft_add_eq_or_of_lt (by omega), Nat.shiftLeft_eq]

theorem ofParts_segment_offset (address : Address) :
    ofParts address.segment.toNat address.offset = address := by
  cases address with
  | register which => cases which <;> decide
  | _ => rfl

end Address

namespace Cell

theorem tagged_toNat (tag : Tag) (address : Address) :
    (tagged tag address).bits.toNat =
      tag.code.toNat * 2 ^ 40 + address.segment.toNat * 2 ^ 32 +
        address.offset.toUInt32.toNat := by
  have small := address.segment_lt
  have bound := address.offset.toUInt32.toNat_lt
  have tagSmall : tag.code.toNat < 6 := by cases tag <;> decide
  have packed := address.pack_toNat
  rw [tagged, UInt64.toNat_or, UInt64.toNat_shiftLeft,
    show (40 : UInt64).toNat % 64 = 40 from rfl]
  rw [Nat.mod_eq_of_lt (by rw [Nat.shiftLeft_eq]; omega)]
  rw [← Nat.shiftLeft_add_eq_or_of_lt (by omega), Nat.shiftLeft_eq]
  omega

end Cell

namespace Word

theorem eq_of_toNat {left right : Word}
    (same : left.bits.toNat = right.bits.toNat) : left = right := by
  cases left
  cases right
  exact congrArg Word.mk (UInt64.toNat_inj.mp same)

/-- The number of the segment in a word. -/
theorem segmentField_toNat (word : Word) :
    ((word.bits &&& addressMask) >>> 32).toNat =
      word.bits.toNat / 2 ^ 32 % 16 := by
  rw [UInt64.toNat_shiftRight, UInt64.toNat_and,
    show addressMask.toNat = 2 ^ 36 - 1 from rfl,
    Nat.and_two_pow_sub_one_eq_mod,
    show (32 : UInt64).toNat % 64 = 32 from rfl, Nat.shiftRight_eq_div_pow]
  omega

/-- The number of the tag in a word. -/
theorem tagField_toNat (word : Word) :
    ((word.bits >>> 40) &&& 0xf).toNat = word.bits.toNat / 2 ^ 40 % 16 := by
  rw [UInt64.toNat_and, UInt64.toNat_shiftRight,
    show (0xf : UInt64).toNat = 2 ^ 4 - 1 from rfl,
    Nat.and_two_pow_sub_one_eq_mod,
    show (40 : UInt64).toNat % 64 = 40 from rfl, Nat.shiftRight_eq_div_pow]

theorem offsetField_toNat (word : Word) :
    word.bits.toUInt32.toNat = word.bits.toNat % 2 ^ 32 := by
  simp

theorem address_tagged (tag : Tag) (address : Address) :
    (Cell.tagged tag address).address = address := by
  have value := Cell.tagged_toNat tag address
  have small := address.segment_lt
  have bound := address.offset.toUInt32.toNat_lt
  have segment :
      ((((Cell.tagged tag address).bits &&& addressMask) >>> 32).toNat) =
        address.segment.toNat := by
    rw [segmentField_toNat, value]
    omega
  have offset :
      (Cell.tagged tag address).bits.toUInt32.toInt32 = address.offset := by
    have same :
        (Cell.tagged tag address).bits.toUInt32 = address.offset.toUInt32 := by
      apply UInt32.toNat_inj.mp
      rw [offsetField_toNat, value]
      omega
    rw [same, Int32.toInt32_toUInt32]
  rw [Word.address, segment, offset, Address.ofParts_segment_offset]

@[simp]
theorem tag_tagged (tag : Tag) (address : Address) :
    (Cell.tagged tag address).tag = tag := by
  have small := address.segment_lt
  have bound := address.offset.toUInt32.toNat_lt
  have tagSmall : tag.code.toNat < 6 := by cases tag <;> decide
  rw [Word.tag, tagField_toNat, Cell.tagged_toNat]
  have field :
      (tag.code.toNat * 2 ^ 40 + address.segment.toNat * 2 ^ 32 +
        address.offset.toUInt32.toNat) / 2 ^ 40 % 16 = tag.code.toNat := by
    omega
  rw [field]
  cases tag <;> rfl

end Word

namespace Address

theorem pack_eq_tagged (address : Address) :
    address.pack = Cell.tagged .reference address := by
  apply Word.eq_of_toNat
  rw [pack_toNat, Cell.tagged_toNat]
  simp [Tag.code]

@[simp]
theorem address_pack (address : Address) : address.pack.address = address := by
  rw [pack_eq_tagged, Word.address_tagged]

@[simp]
theorem tag_pack (address : Address) : address.pack.tag = .reference := by
  rw [pack_eq_tagged, Word.tag_tagged]

@[simp]
theorem cell_pack (address : Address) :
    address.pack.cell = .reference address := by
  simp [Word.cell]

end Address

namespace Word

@[simp]
theorem cell_reference (target : Address) :
    (Word.reference target).cell = .reference target := by
  simp [Word.reference, Cell.pack, Word.cell, address_tagged]

@[simp]
theorem cell_compound (header : Address) :
    (Word.compound header).cell = .compound header := by
  simp [Word.compound, Cell.pack, Word.cell, address_tagged]

@[simp]
theorem cell_list (pair : Address) :
    (Word.list pair).cell = .list pair := by
  simp [Word.list, Cell.pack, Word.cell, address_tagged]

@[simp]
theorem cell_functor (id : FunctorId) :
    (Word.functor id).cell = .functor id := by
  simp [Word.functor, Cell.pack, Word.cell, address_tagged, Address.offset]

@[simp]
theorem cell_constant (id : FunctorId) :
    (Word.constant id).cell = .constant id := by
  simp [Word.constant, Cell.pack, Word.cell, address_tagged, Address.offset]

/-- Whether a word is a reference can be told from its tag alone. -/
theorem tag_eq_reference_iff {word : Word} :
    word.tag = .reference ↔ word.cell = .reference word.address := by
  constructor
  · intro isReference
    simp [Word.cell, isReference]
  · intro isReference
    unfold Word.cell at isReference
    split at isReference <;> first | assumption | cases isReference

theorem tag_of_cell {word : Word} {cell : Cell} (decoded : word.cell = cell) :
    word.tag = cell.tag := by
  subst decoded
  unfold Word.cell
  split <;> simp_all [Cell.tag]

end Word

end LogicMachine
