import Mathlib.Data.Int.Init
import Mathlib.Data.Nat.Digits.Defs
import LogicMachine.Text.Decimal

/-!
# Written numbers are read back

A natural number is written in decimal, an integer with a minus sign in front
if it is negative.  Reading that text gives the number again.
-/

namespace LogicMachine

namespace Text

theorem digitValue?_of_isDigit {char : Char} (isDigit : char.isDigit = true) :
    digitValue? char = some (char.toNat - '0'.toNat) := by
  simp only [Char.isDigit, Bool.and_eq_true, decide_eq_true_eq] at isDigit
  exact if_pos isDigit

/-- A run of digits is read as the number that they spell. -/
theorem readDigits_eq_some {digits : List Char}
    (areDigits : ∀ char ∈ digits, char.isDigit = true) (value : Nat) :
    readDigits value digits = some (Nat.ofDigitChars 10 digits value) := by
  induction digits generalizing value with
  | nil => rfl
  | cons char rest ih =>
      have first := digitValue?_of_isDigit (areDigits char List.mem_cons_self)
      rw [readDigits, first, Nat.ofDigitChars_cons, Nat.mul_comm 10 value]
      exact ih (fun other member =>
        areDigits other (List.mem_cons_of_mem _ member)) _

theorem readUnsigned_toDigits (value : Nat) :
    readUnsigned (Nat.toDigits 10 value) = some value := by
  cases written : Nat.toDigits 10 value with
  | nil => exact absurd written Nat.toDigits_ne_nil
  | cons char rest =>
      have areDigits : ∀ digit ∈ char :: rest, digit.isDigit = true := by
        intro digit member
        rw [← written] at member
        exact Nat.isDigit_of_mem_toDigits (by decide) (by decide) member
      have read := readDigits_eq_some areDigits 0
      rw [← written, Nat.ofDigitChars_ten_toDigits, written] at read
      exact read

/-- A text that begins with a digit has no sign. -/
theorem readInt_of_isDigit {text : String} {char : Char} {rest : List Char}
    (spelled : text.toList = char :: rest) (isDigit : char.isDigit = true) :
    readInt text =
      (readUnsigned (char :: rest)).map fun value => (value : Int) := by
  unfold readInt
  split
  case h_1 plus =>
    cases plus.symm.trans spelled
    exact absurd isDigit (by decide)
  case h_2 minus =>
    cases minus.symm.trans spelled
    exact absurd isDigit (by decide)
  case h_3 => rw [spelled]

theorem readNat_of_isDigit {text : String} {char : Char} {rest : List Char}
    (spelled : text.toList = char :: rest) (isDigit : char.isDigit = true) :
    readNat text = readUnsigned (char :: rest) := by
  unfold readNat
  split
  case h_1 plus =>
    cases plus.symm.trans spelled
    exact absurd isDigit (by decide)
  case h_2 => rw [spelled]

/-- The canonical numeral of a natural number is a run of digits. -/
theorem exists_digits_repr (value : Nat) :
    ∃ char rest, value.repr.toList = char :: rest ∧ char.isDigit = true ∧
      readUnsigned (char :: rest) = some value := by
  have read := readUnsigned_toDigits value
  cases written : Nat.toDigits 10 value with
  | nil => exact absurd written Nat.toDigits_ne_nil
  | cons char rest =>
      have isDigit : char.isDigit = true := by
        refine @Nat.isDigit_of_mem_toDigits 10 value char (by decide)
          (by decide) ?_
        rw [written]
        exact List.mem_cons_self
      refine ⟨char, rest, ?_, isDigit, ?_⟩
      · rw [Nat.toList_repr, written]
      · rw [← written, read]

theorem readInt_repr (value : Nat) :
    readInt value.repr = some (value : Int) := by
  obtain ⟨char, rest, spelled, isDigit, read⟩ := exists_digits_repr value
  rw [readInt_of_isDigit spelled isDigit, read]
  rfl

/-- The canonical numeral of a natural number spells it. -/
theorem readNat_repr (value : Nat) :
    readNat value.repr = some value := by
  obtain ⟨char, rest, spelled, isDigit, read⟩ := exists_digits_repr value
  rw [readNat_of_isDigit spelled isDigit, read]

/-- The canonical numeral of an integer spells it. -/
theorem readInt_toString (value : Int) :
    readInt (toString value) = some value := by
  rw [Int.toString_eq_repr, Int.repr_eq_if]
  split
  case isTrue nonnegative =>
    rw [readInt_repr, Int.toNat_of_nonneg nonnegative]
  case isFalse negative =>
    have spelled : ("-" ++ (-value).toNat.repr).toList =
        '-' :: Nat.toDigits 10 (-value).toNat := by
      rw [String.toList_append, Nat.toList_repr]
      rfl
    have opposite : -((-value).toNat : Int) = value := by omega
    simp only [readInt, spelled, readUnsigned_toDigits]
    exact congrArg some opposite

end Text

end LogicMachine
