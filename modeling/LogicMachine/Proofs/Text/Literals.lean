import LogicMachine.Proofs.Term.Lists
import LogicMachine.Proofs.Text.Decimal

/-!
# Text literals are read back

A text literal holds one decimal numeral for each character.  Every numeral is
read as the code point that it was written for, and every code point of a
character gives that character, so a literal decodes to its own text and is
written in quotes wherever it stands.
-/

namespace LogicMachine

namespace Term

theorem charOfPoint?_eq_some_iff {point : Nat} {char : Char} :
    charOfPoint? point = some char ↔ point = char.toNat := by
  unfold charOfPoint?
  constructor
  · intro found
    split at found
    case isTrue valid =>
      cases found
      rw [Char.ofNat, dif_pos valid]
      rfl
    case isFalse => cases found
  · rintro rfl
    have valid : char.toNat.isValidChar := char.valid
    rw [if_pos valid, Char.ofNat_toNat]

/-- A code is a numeral of the character's code point, in whatever way it is
spelled. -/
theorem codePoint?_eq_some_iff {term : Term} {char : Char} :
    term.codePoint? = some char ↔
      ∃ name, term.atomName? = some name ∧
        Text.readNat name = some char.toNat := by
  simp only [codePoint?, Option.bind_eq_bind, Option.bind_eq_some_iff,
    charOfPoint?_eq_some_iff, exists_eq_right]

/-- The code of a character in a text literal. -/
theorem codePoint?_code (char : Char) :
    (Term.atom (toString char.toNat)).codePoint? = some char :=
  codePoint?_eq_some_iff.mpr ⟨_, rfl, Text.readNat_repr char.toNat⟩

theorem mapM_codePoint?_codes (chars : List Char) :
    (chars.map fun char => Term.atom (toString char.toNat)).mapM codePoint? =
      some chars := by
  induction chars with
  | nil => rfl
  | cons char rest ih =>
      rw [List.map_cons, List.mapM_cons, codePoint?_code, ih]
      rfl

theorem text?_codes (text : String) :
    (list (text.toList.map fun char =>
      .atom (toString char.toNat))).text? = some text := by
  rw [text?, listItems?_list]
  simp only [Option.bind_eq_bind, Option.bind_some, mapM_codePoint?_codes]
  exact congrArg some String.ofList_toList

example :
    (listWithTail [.atom "+104", .atom "0105"]
      (.compound emptyListName [])).text? = some "hi" := by
  rfl

theorem renderAt_ofText (position : Position) (text : String) :
    (ofText text).renderAt position =
      place position false (Text.quote text) := by
  rw [ofText, renderAt, if_pos rfl, text?_codes]

example : (ofText "hi").render = "\"hi\"" := by
  rfl

/-- A quote begins the quoted form, but never the name of the wrapper. -/
theorem quote_ne_compound (text argument : String) :
    Text.quote text ≠ textFunctor ++ "(" ++ argument ++ ")" := by
  intro same
  have quoted : (Text.quote text).toList.head? = some '"' := by
    rw [Text.quote, String.toList_append, String.toList_append]
    rfl
  rw [same] at quoted
  simp only [String.toList_append] at quoted
  cases quoted

/-- The items and the ending of a list come back from it, and the list from
them.  Every text comes back from the codes in its literal, so the literal is
written in quotes, also at the end of a list, and never as a compound. -/
theorem literals_decode :
    (∀ (items : List Term) (tail : Term),
      (listWithTail items tail).listParts =
        (items ++ tail.listParts.1, tail.listParts.2)) ∧
    (∀ term : Term,
      listWithTail term.listParts.1 term.listParts.2 = term) ∧
    ∀ text : String, ∃ codes : Term,
      ofText text = .compound textFunctor [codes] ∧
        codes.text? = some text ∧
        (ofText text).render = Text.quote text ∧
        (ofText text).renderAt .tail = " | " ++ Text.quote text ∧
        (ofText text).render ≠ textFunctor ++ "(" ++ codes.render ++ ")" := by
  refine ⟨listParts_listWithTail, listWithTail_listParts, fun text => ?_⟩
  have quoted : (ofText text).render = Text.quote text :=
    renderAt_ofText .alone text
  refine ⟨_, rfl, text?_codes text, quoted, renderAt_ofText .tail text, ?_⟩
  rw [quoted]
  exact quote_ne_compound text _

end Term

end LogicMachine
