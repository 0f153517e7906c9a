import LogicMachine.Proofs.Text.Decimal
import LogicMachine.Proofs.Reading.Preserving

/-!
# Terms with their variables filled in

Reading a term back gives the term again with other terms in place of its
variables.  Those that are made for anonymous variables are variables themselves,
named after the cells where they stand.
-/

namespace LogicMachine

mutual

/-- The second term is the first with its named variables replaced by their
values and its anonymous variables named from left to right.  Compounds without
arguments become atoms. -/
inductive Term.Filled (value : String → Term) :
    Term → List String → Term → Prop where
  | atom (name : String) : Filled value (.atom name) [] (.atom name)
  | named {name : String} (isNamed : name ≠ Term.anonymous) :
      Filled value (.var name) [] (value name)
  | anonymous (name : String) :
      Filled value (.var Term.anonymous) [name] (.var name)
  | constant (functor : String) :
      Filled value (.compound functor []) [] (.atom functor)
  | compound {functor : String} {args results : List Term}
      {names : List String} (nonempty : args ≠ [])
      (filled : Term.FilledAll value args names results) :
      Filled value (.compound functor args) names (.compound functor results)

/-- All terms of a list are filled in. -/
inductive Term.FilledAll (value : String → Term) :
    List Term → List String → List Term → Prop where
  | nil : FilledAll value [] [] []
  | cons {term result : Term} {terms results : List Term}
      {names others : List String} (first : Term.Filled value term names result)
      (rest : FilledAll value terms others results) :
      FilledAll value (term :: terms) (names ++ others) (result :: results)

end

/-- A named variable is replaced by its value. -/
theorem Term.Filled.eq_value {value : String → Term} {name : String}
    {names : List String} {result : Term}
    (filled : (Term.var name).Filled value names result)
    (isNamed : name ≠ Term.anonymous) : result = value name := by
  cases filled with
  | named => rfl
  | anonymous => exact absurd rfl isNamed

theorem Term.mem_varsOf {name : String} {terms : List Term} :
    name ∈ Term.varsOf terms ↔ ∃ term ∈ terms, name ∈ term.vars := by
  induction terms with
  | nil => simp [Term.varsOf]
  | cons term rest ih => simp [Term.varsOf, ih]

/-! ## Names of cells -/

namespace Address

/-- The name of the variable at a cell. -/
def variableName (address : Address) : String :=
  "_" ++ address.render

theorem toString_inj {value other : Int}
    (same : toString value = toString other) : value = other := by
  have read := Text.readInt_toString value
  rw [same, Text.readInt_toString] at read
  exact (Option.some.inj read).symm

/-- The letter of the segment of a cell. -/
def letter : Address → Char
  | .retained _ => 'R'
  | .stack _ => 'S'
  | _ => 'H'

theorem IsCell.render_toList {address : Address} (isCell : address.IsCell) :
    address.render.toList =
      address.letter :: (toString address.offset.toInt).toList := by
  cases address with
  | heap _ | retained _ | stack _ =>
      simp only [render, String.toList_append]
      rfl
  | _ => cases isCell

/-- Different cells have different names. -/
theorem variableName_inj {address other : Address} (isCell : address.IsCell)
    (otherIsCell : other.IsCell)
    (same : address.variableName = other.variableName) : address = other := by
  have spelled := congrArg String.toList same
  simp only [variableName, String.toList_append] at spelled
  have rendered := List.append_cancel_left spelled
  rw [isCell.render_toList, otherIsCell.render_toList] at rendered
  obtain ⟨letters, digits⟩ := List.cons.inj rendered
  have offsets := Int32.toInt_inj.mp
    (toString_inj (String.toList_injective digits))
  cases address with
  | heap _ | retained _ | stack _ =>
      cases other with
      | heap _ | retained _ | stack _ => simp_all [letter, offset]
      | _ => cases otherIsCell
  | _ => cases isCell

end Address

end LogicMachine
