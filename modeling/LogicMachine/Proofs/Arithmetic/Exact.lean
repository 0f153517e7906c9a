import Mathlib.Algebra.Order.Group.Unbundled.Int
import LogicMachine.Arithmetic

/-!
# Exact arithmetic

What the operations mean over all integers, without regard to their width.  An
operation of the machine gives the exact value whenever that fits in 64 bits,
and no value otherwise.  The two operations that do not check their result are
the exception: for the least integer and minus one they crash.
-/

namespace LogicMachine

/-- A crash of an operation on integers. -/
def Crash.IsOverflow (cause : Crash) : Prop :=
  cause = .quotientOverflow ∨ cause = .remainderOverflow

namespace Arithmetic

/-- The integers that have 64 bits. -/
def Fits (value : Int) : Prop :=
  least ≤ value ∧ value ≤ greatest

/-- The exact value of a functor at integers.  Functors that are no operation
have none, and neither has a division by zero. -/
def exactValue (name : String) (args : List Int) : Option Int :=
  match name, args with
  | "-", [value] => some (-value)
  | "+", [value] => some value
  | "abs", [value] => some |value|
  | "+", [left, right] => some (left + right)
  | "-", [left, right] => some (left - right)
  | "*", [left, right] => some (left * right)
  | "//", [left, right] => if right = 0 then none else some (left.tdiv right)
  | "div", [left, right] => if right = 0 then none else some (left.fdiv right)
  | "mod", [left, right] => if right = 0 then none else some (left.fmod right)
  | "min", [left, right] => some (min left right)
  | "max", [left, right] => some (max left right)
  | _, _ => none

/-- The operations whose quotient does not fit and is not checked. -/
def Unchecked (name : String) (args : List Int) : Prop :=
  (name = "div" ∨ name = "mod") ∧ args = [least, -1]

theorem checked_of_fits {value : Int} (fits : Fits value) :
    checked value = some value :=
  if_pos fits

theorem fits_of_checked {value result : Int}
    (found : checked value = some result) : Fits result := by
  unfold checked at found
  split at found
  case isTrue fits =>
    cases found
    exact fits
  case isFalse => cases found

theorem fits_of_integer? {name : String} {value : Int}
    (spelled : integer? name = some value) : Fits value := by
  obtain ⟨read, -, isChecked⟩ := Option.bind_eq_some_iff.mp spelled
  exact fits_of_checked isChecked

section Bounds

variable {left right : Int}

theorem fmod_bounds (left : Int) (nonzero : right ≠ 0) :
    -right.natAbs < left.fmod right ∧ left.fmod right < right.natAbs := by
  have nonnegative := Int.emod_nonneg left nonzero
  have below := Int.emod_lt left nonzero
  rw [Int.fmod_eq_emod]
  split <;> omega

theorem fits_fmod (fits : Fits right) (nonzero : right ≠ 0) :
    Fits (left.fmod right) := by
  have bounds := fmod_bounds left nonzero
  unfold Fits least greatest at *
  omega

/-- Only the quotient of the least integer by minus one does not fit. -/
theorem fits_fdiv (fits : Fits left) (nonzero : right ≠ 0)
    (inside : ¬ (left = least ∧ right = -1)) : Fits (left.fdiv right) := by
  have shrinks := Int.natAbs_fdiv_le_natAbs left right
  have remainder := fmod_bounds left nonzero
  have divided := Int.mul_fdiv_add_fmod left right
  unfold Fits least greatest at *
  refine ⟨by omega, ?_⟩
  by_contra large
  have quotient : left.fdiv right = 9223372036854775808 := by omega
  rw [quotient] at divided
  omega

end Bounds

/-- The exact value of a functor at integers, if it fits. -/
def fitting (name : String) (args : List Int) : Option Int :=
  (exactValue name args).bind checked

theorem fits_of_fitting {name : String} {args : List Int} {value : Int}
    (found : fitting name args = some value) : Fits value := by
  obtain ⟨read, -, isChecked⟩ := Option.bind_eq_some_iff.mp found
  exact fits_of_checked isChecked

/-- An operation on integers that fit gives the exact value if that fits and
none otherwise.  It crashes only if its quotient does not fit and is not
checked. -/
theorem apply_cases (name : String) {args : List Int}
    (fits : ∀ value ∈ args, Fits value) :
    (Unchecked name args ∧
      ∃ cause, cause.IsOverflow ∧ apply name args = .error cause) ∨
    (¬ Unchecked name args ∧ apply name args = .ok (fitting name args)) := by
  have plain (other : name ≠ "div" ∧ name ≠ "mod")
      (result : apply name args = .ok (fitting name args)) :
      (Unchecked name args ∧
        ∃ cause, cause.IsOverflow ∧ apply name args = .error cause) ∨
      (¬ Unchecked name args ∧ apply name args = .ok (fitting name args)) :=
    .inr ⟨fun unchecked => unchecked.1.elim other.1 other.2, result⟩
  unfold apply
  split
  case h_1 value => exact plain (by decide) rfl
  case h_2 value =>
    refine plain (by decide) (congrArg _ (checked_of_fits ?_).symm)
    exact fits _ (by simp)
  case h_3 value =>
    refine plain (by decide) ?_
    simp only [apply, fitting, exactValue, Int.abs_eq_natAbs, Option.bind_some]
  case h_4 left right => exact plain (by decide) rfl
  case h_5 left right => exact plain (by decide) rfl
  case h_6 left right => exact plain (by decide) rfl
  case h_7 left right =>
    refine plain (by decide) ?_
    by_cases zero : right = 0 <;>
      simp [apply, truncatedQuotient, fitting, exactValue, zero]
  case h_8 left right =>
    by_cases zero : right = 0
    · refine .inr ⟨?_, by simp [flooredQuotient, fitting, exactValue, zero]⟩
      rintro ⟨-, same⟩
      simp [zero] at same
    · by_cases extreme : left = least ∧ right = -1
      · exact .inl ⟨⟨.inl rfl, by rw [extreme.1, extreme.2]⟩, .quotientOverflow,
          .inl rfl, by simp [flooredQuotient, extreme]⟩
      · refine .inr ⟨fun unchecked => extreme (by simpa using unchecked.2), ?_⟩
        have quotient := checked_of_fits
          (fits_fdiv (fits left (by simp)) zero extreme)
        simp [flooredQuotient, fitting, exactValue, zero, extreme, quotient]
  case h_9 left right =>
    by_cases zero : right = 0
    · refine .inr ⟨?_, by simp [flooredRemainder, fitting, exactValue, zero]⟩
      rintro ⟨-, same⟩
      simp [zero] at same
    · by_cases extreme : left = least ∧ right = -1
      · exact .inl ⟨⟨.inr rfl, by rw [extreme.1, extreme.2]⟩, .remainderOverflow,
          .inr rfl, by simp [flooredRemainder, extreme]⟩
      · refine .inr ⟨fun unchecked => extreme (by simpa using unchecked.2), ?_⟩
        have remainder := checked_of_fits
          (@fits_fmod left right (fits right (by simp)) zero)
        simp [flooredRemainder, fitting, exactValue, zero, extreme, remainder]
  case h_10 left right =>
    refine plain (by decide) (congrArg _ (checked_of_fits ?_).symm)
    rcases min_choice left right with equal | equal <;> rw [equal] <;>
      exact fits _ (by simp)
  case h_11 left right =>
    refine plain (by decide) (congrArg _ (checked_of_fits ?_).symm)
    rcases max_choice left right with equal | equal <;> rw [equal] <;>
      exact fits _ (by simp)
  case h_12 =>
    have valueless : exactValue name args = none := by
      unfold exactValue
      split <;> simp_all
    refine .inr ⟨?_, by rw [fitting, valueless, Option.bind_none]⟩
    rintro ⟨isName, rfl⟩
    rcases isName with rfl | rfl <;> simp_all

end Arithmetic

end LogicMachine
