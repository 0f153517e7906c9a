import LogicMachine.Code.Listing
import LogicMachine.Proofs.Code.Placement

/-!
# Listings of texts

Code that holds a text is listed line by line: each item but the labels is one
instruction, with its operand if it has one.
-/

namespace LogicMachine

namespace CodeLine

/-- The code words of a line. -/
def words : CodeLine → List UInt32
  | .plain opcode => [opcode.encode]
  | .operand opcode value => [opcode.encode, value.toUInt32]
  | .raw word => [word]

/-- The line is an instruction together with the operand that it takes. -/
def Formed : CodeLine → Prop
  | .plain opcode => opcode.hasOperand = false
  | .operand opcode _ => opcode.hasOperand = true
  | .raw _ => False

theorem words_length_pos (line : CodeLine) : 0 < line.words.length := by
  cases line <;> exact Nat.succ_pos _

end CodeLine

/-- The number of code words of a listing. -/
def codeSize (lines : List CodeLine) : Nat :=
  (lines.flatMap CodeLine.words).length

@[simp]
theorem codeSize_nil : codeSize [] = 0 := rfl

@[simp]
theorem codeSize_append (first second : List CodeLine) :
    codeSize (first ++ second) = codeSize first + codeSize second := by
  simp [codeSize]

/-- Positions tell the instructions of a listing apart. -/
theorem eq_of_codeSize_eq {first second lines : List CodeLine}
    (left : first <+: lines) (right : second <+: lines)
    (same : codeSize first = codeSize second) : first = second := by
  -- One of the two continues the other, by lines that have no words.
  have shorter {few many : List CodeLine} (continued : few <+: many)
      (equal : codeSize few = codeSize many) : few = many := by
    obtain ⟨more, rfl⟩ := continued
    cases more with
    | nil => rw [List.append_nil]
    | cons line rest =>
        have positive := line.words_length_pos
        simp only [codeSize, List.flatMap_append, List.flatMap_cons,
          List.length_append] at equal
        omega
  rcases List.prefix_or_prefix_of_prefix left right with continued | continued
  · exact shorter continued same
  · exact (shorter continued same.symm).symm

/-- Words of instructions are listed as these instructions. -/
theorem list_flatMap_words {lines : List CodeLine}
    (formed : ∀ line ∈ lines, line.Formed) :
    CodeLine.list (lines.flatMap CodeLine.words) = lines := by
  induction lines with
  | nil => rfl
  | cons line rest ih =>
      have here := formed line List.mem_cons_self
      have others := ih fun other member =>
        formed other (List.mem_cons_of_mem _ member)
      cases line with
      | raw word => exact here.elim
      | operand opcode value =>
          change opcode.hasOperand = true at here
          rw [List.flatMap_cons]
          simp only [CodeLine.words, List.cons_append, List.nil_append]
          rw [CodeLine.list]
          simp [here, others]
      | plain opcode =>
          change opcode.hasOperand = false at here
          rw [List.flatMap_cons]
          simp only [CodeLine.words, List.cons_append, List.nil_append]
          cases words : rest.flatMap CodeLine.words with
          | nil =>
              rw [words] at others
              rw [CodeLine.list, Opcode.decode?_encode, ← others]
              rfl
          | cons next more =>
              rw [words] at others
              rw [CodeLine.list]
              simp [here, others]

/-! ## Texts -/

/-- The lines of a text from a position on, with given places for labels. -/
def linesOf (place : Label → Nat) : Nat → List Item → List CodeLine
  | _, [] => []
  | position, .plain opcode :: rest =>
      .plain opcode :: linesOf place (position + 1) rest
  | position, .operand opcode value :: rest =>
      .operand opcode value.toInt32 :: linesOf place (position + 2) rest
  | position, .branch opcode target :: rest =>
      .operand opcode ((place target).toUInt32 - position.toUInt32).toInt32 ::
        linesOf place (position + 2) rest
  | position, .mark _ :: rest => linesOf place position rest

/-- The labels of a text stand where they are placed. -/
def Placed (place : Label → Nat) : Nat → List Item → Prop
  | _, [] => True
  | position, .mark label :: rest =>
      place label = position ∧ Placed place position rest
  | position, .plain _ :: rest => Placed place (position + 1) rest
  | position, .operand _ _ :: rest | position, .branch _ _ :: rest =>
      Placed place (position + 2) rest

section Texts

variable {place : Label → Nat}

theorem linesOf_append (position : Nat) (first second : List Item) :
    linesOf place position (first ++ second) =
      linesOf place position first ++
        linesOf place (position + textSize first) second := by
  induction first generalizing position with
  | nil => rfl
  | cons item rest ih =>
      cases item <;>
        simp [linesOf, ih, Item.codeWords, Nat.add_assoc]

@[simp]
theorem codeSize_linesOf (position : Nat) (items : List Item) :
    codeSize (linesOf place position items) = textSize items := by
  induction items generalizing position with
  | nil => rfl
  | cons item rest ih =>
      unfold codeSize at ih
      cases item <;>
        simp [linesOf, codeSize, ih, CodeLine.words, Item.codeWords] <;>
        omega

theorem placed_append (position : Nat) (first second : List Item) :
    Placed place position (first ++ second) ↔
      Placed place position first ∧
        Placed place (position + textSize first) second := by
  induction first generalizing position with
  | nil => simp [Placed]
  | cons item rest ih =>
      cases item <;>
        simp [Placed, ih, Item.codeWords, Nat.add_assoc, and_assoc]

end Texts

namespace Program.Holds

variable {program : Program} {place : Label → Nat}

theorem placed {position : Nat} {items : List Item}
    (holds : program.Holds place position items) :
    Placed place position items := by
  induction items generalizing position with
  | nil => trivial
  | cons item rest ih =>
      cases item with
      | plain => exact ih holds.2
      | operand | branch => exact ih holds.2.2
      | mark => exact ⟨holds.1, ih holds.2⟩

/-- Code that holds a text has the words of its lines. -/
theorem hasWords {position : Nat} {items : List Item}
    (holds : program.Holds place position items) :
    program.HasWords position
      ((linesOf place position items).flatMap CodeLine.words) := by
  induction items generalizing position with
  | nil => nofun
  | cons item rest ih =>
      intro index word found
      cases item with
      | mark label => exact ih holds.2 index word found
      | plain opcode =>
          cases index with
          | zero =>
              cases found
              exact holds.1
          | succ index =>
              have later := ih holds.2 index word found
              rwa [Nat.add_assoc, Nat.add_comm 1] at later
      | operand opcode value | branch opcode target =>
          rcases index with _ | _ | index
          · cases found
            exact holds.1
          · cases found
            exact holds.2.1
          · have later := ih holds.2.2 index word found
            rwa [Nat.add_assoc, Nat.add_comm 2] at later

/-- Words that hold a text of their size are those of its lines. -/
theorem words_eq {position : Nat} {words : List UInt32} {items : List Item}
    (holds : program.Holds place position items)
    (stands : program.HasWords position words)
    (size : textSize items = words.length) :
    words = (linesOf place position items).flatMap CodeLine.words := by
  have length : words.length =
      ((linesOf place position items).flatMap CodeLine.words).length := by
    rw [← size, ← codeSize_linesOf position items, codeSize]
  refine List.ext_getElem length fun index here there => ?_
  have first := stands index _ (List.getElem?_eq_getElem here)
  have second := holds.hasWords index _ (List.getElem?_eq_getElem there)
  exact Option.some.inj (first.symm.trans second)

end Program.Holds

end LogicMachine
