import LogicMachine.Clause.Draft
import LogicMachine.Proofs.Outcome

/-!
# Code in its place

A list of items is a program text with labels.  Code holds the text if its words
are those of the items one after another, with every branch leading to the place
of its label.  What an assembler has collected is held by the code it is turned
into, wherever that code is put.
-/

namespace LogicMachine

namespace Item

/-- The code words of an item. -/
def codeWords : Item → List CodeWord
  | .plain opcode => [.fixed opcode.encode]
  | .operand opcode value => [.fixed opcode.encode, .fixed value]
  | .branch opcode target => [.fixed opcode.encode, .distance target]
  | .mark _ => []

/-- The label that an item places. -/
def label? : Item → Option Label
  | .mark label => some label
  | _ => none

end Item

/-- The number of code words of a text. -/
def textSize (items : List Item) : Nat :=
  (items.flatMap Item.codeWords).length

@[simp]
theorem textSize_nil : textSize [] = 0 :=
  rfl

@[simp]
theorem textSize_cons (item : Item) (rest : List Item) :
    textSize (item :: rest) = item.codeWords.length + textSize rest := by
  simp [textSize]

@[simp]
theorem textSize_append (first second : List Item) :
    textSize (first ++ second) = textSize first + textSize second := by
  simp [textSize]

namespace Program

/-- The code from a position on holds a text whose labels have given places. -/
def Holds (program : Program) (place : Label → Nat) : Nat → List Item → Prop
  | _, [] => True
  | position, .plain opcode :: rest =>
      program.code[position]? = some opcode.encode ∧
        program.Holds place (position + 1) rest
  | position, .operand opcode value :: rest =>
      program.code[position]? = some opcode.encode ∧
        program.code[position + 1]? = some value ∧
        program.Holds place (position + 2) rest
  | position, .branch opcode target :: rest =>
      program.code[position]? = some opcode.encode ∧
        program.code[position + 1]? =
          some ((place target).toUInt32 - position.toUInt32) ∧
        program.Holds place (position + 2) rest
  | position, .mark label :: rest =>
      place label = position ∧ program.Holds place position rest

theorem holds_append {program : Program} {place : Label → Nat}
    {position : Nat} {first second : List Item} :
    program.Holds place position (first ++ second) ↔
      program.Holds place position first ∧
        program.Holds place (position + textSize first) second := by
  induction first generalizing position with
  | nil => simp [Holds]
  | cons item rest ih =>
      cases item <;>
        simp [Holds, ih, Item.codeWords, and_assoc, Nat.add_assoc]

/-- A text depends on the words of its own positions only. -/
theorem Holds.congr {program later : Program} {place : Label → Nat}
    {position : Nat} {items : List Item}
    (holds : program.Holds place position items)
    (same : ∀ index, position ≤ index → index < position + textSize items →
      later.code[index]? = program.code[index]?) :
    later.Holds place position items := by
  induction items generalizing position with
  | nil => trivial
  | cons item rest ih =>
      simp only [textSize_cons] at same
      cases item with
      | plain opcode =>
          simp only [Item.codeWords, List.length_cons, List.length_nil] at same
          obtain ⟨first, later⟩ := holds
          refine ⟨by rw [same _ (by omega) (by omega), first], ih later ?_⟩
          exact fun index low high => same index (by omega) (by omega)
      | operand opcode value =>
          simp only [Item.codeWords, List.length_cons, List.length_nil] at same
          obtain ⟨first, second, later⟩ := holds
          refine ⟨by rw [same _ (by omega) (by omega), first],
            by rw [same _ (by omega) (by omega), second], ih later ?_⟩
          exact fun index low high => same index (by omega) (by omega)
      | branch opcode target =>
          simp only [Item.codeWords, List.length_cons, List.length_nil] at same
          obtain ⟨first, second, later⟩ := holds
          refine ⟨by rw [same _ (by omega) (by omega), first],
            by rw [same _ (by omega) (by omega), second], ih later ?_⟩
          exact fun index low high => same index (by omega) (by omega)
      | mark label =>
          refine ⟨holds.1, ih holds.2 ?_⟩
          intro index low high
          exact same index low (by simpa [Item.codeWords] using high)

end Program

namespace Assembler

/-- The assembler has collected a text in which no label is placed twice. -/
structure Contains (assembler : Assembler) (items : List Item) : Prop where
  words : assembler.words.toList = items.flatMap Item.codeWords
  distinct : (items.filterMap Item.label?).Nodup
  known : ∀ label ∈ items.filterMap Item.label?,
    label.index < assembler.marks.size
  placed : ∀ before label after, items = before ++ .mark label :: after →
    assembler.position? label = some (textSize before)

namespace Contains

variable {assembler : Assembler} {items : List Item}

theorem size_eq (contains : assembler.Contains items) :
    assembler.words.size = textSize items := by
  rw [← Array.length_toList, contains.words]
  rfl

theorem newLocal (contains : assembler.Contains items) :
    assembler.newLocal.2.Contains items :=
  ⟨contains.words, contains.distinct, contains.known, contains.placed⟩

theorem newLabel (contains : assembler.Contains items) :
    assembler.newLabel.2.Contains items where
  words := contains.words
  distinct := contains.distinct
  known := by
    intro label member
    have below := contains.known label member
    simp only [Assembler.newLabel, Array.size_push]
    omega
  placed := by
    intro before label after shape
    have below := contains.known label (by simp [shape, Item.label?])
    have found := contains.placed before label after shape
    unfold position? at found ⊢
    simp only [Assembler.newLabel]
    rw [Array.getElem?_push_lt below, ← Array.getElem?_eq_getElem below]
    exact found

/-- Adding an item that places no label. -/
theorem add_plain (contains : assembler.Contains items) {item : Item}
    (noLabel : item.label? = none) :
    (assembler.add item).Contains (items ++ [item]) := by
  have marks : (assembler.add item).marks = assembler.marks := by
    cases item with
    | mark label => cases noLabel
    | _ => rfl
  refine ⟨?_, ?_, ?_, ?_⟩
  · rw [List.flatMap_append, ← contains.words]
    cases item with
    | mark label => cases noLabel
    | _ => simp [add, Item.codeWords]
  · simpa [List.filterMap_append, noLabel] using contains.distinct
  · rw [marks]
    simpa [List.filterMap_append, noLabel] using contains.known
  · intro before label after shape
    have inside : ∃ rest, items = before ++ .mark label :: rest := by
      cases reversed : after.reverse with
      | nil =>
          have empty : after = [] := by simpa using reversed
          subst empty
          have last := congrArg List.getLast? shape
          simp only [List.getLast?_append, List.getLast?_singleton,
            Option.some_or] at last
          cases last
          cases noLabel
      | cons newest older =>
          have split : after = older.reverse ++ [newest] := by
            have := congrArg List.reverse reversed
            simpa using this
          subst split
          rw [← List.cons_append, ← List.append_assoc] at shape
          exact ⟨older.reverse, (List.append_inj' shape rfl).1⟩
    obtain ⟨rest, earlier⟩ := inside
    unfold position?
    rw [marks]
    exact contains.placed before label rest earlier

/-- Placing a label that has no place yet. -/
theorem add_mark (contains : assembler.Contains items) {label : Label}
    (inside : label.index < assembler.marks.size)
    (fresh : label ∉ items.filterMap Item.label?) :
    (assembler.add (.mark label)).Contains (items ++ [.mark label]) := by
  refine ⟨?_, ?_, ?_, ?_⟩
  · simpa [add, Item.codeWords] using contains.words
  · simp only [List.filterMap_append, List.filterMap_cons, Item.label?,
      List.filterMap_nil, List.nodup_append]
    refine ⟨contains.distinct, by simp, ?_⟩
    intro other member later isLast
    cases List.mem_singleton.mp isLast
    intro same
    exact fresh (same ▸ member)
  · intro other member
    simp only [add, Array.size_setIfInBounds]
    simp only [List.filterMap_append, List.mem_append] at member
    rcases member with old | new
    · exact contains.known other old
    · cases List.mem_singleton.mp new
      exact inside
  · intro before other after shape
    by_cases same : other = label
    · subst same
      have first : before = items := by
        -- The label is placed once only, at the end.
        rcases List.append_eq_append_iff.mp shape with
          ⟨more, split, rest⟩ | ⟨more, split, rest⟩
        · cases more with
          | nil => simpa using split
          | cons head tail =>
              have short := congrArg List.length rest
              simp at short
        · cases more with
          | nil => simpa using split.symm
          | cons head tail =>
              simp only [List.cons_append, List.cons.injEq] at rest
              obtain ⟨rfl, -⟩ := rest
              exact absurd (by simp [split, Item.label?]) fresh
      subst first
      unfold position?
      simp [add, position, inside, contains.size_eq]
    · have earlier : ∃ rest, items = before ++ .mark other :: rest := by
        rcases List.append_eq_append_iff.mp shape with
          ⟨more, split, rest⟩ | ⟨more, split, rest⟩
        · cases more with
          | nil =>
              simp only [List.nil_append, List.cons.injEq] at rest
              exact absurd (by simpa using rest.1.symm) same
          | cons head tail =>
              have short := congrArg List.length rest
              simp at short
        · cases more with
          | nil =>
              simp only [List.nil_append, List.cons.injEq] at rest
              exact absurd (by simpa using rest.1) same
          | cons head tail =>
              simp only [List.cons_append, List.cons.injEq] at rest
              obtain ⟨rfl, -⟩ := rest
              exact ⟨tail, split⟩
      obtain ⟨rest, split⟩ := earlier
      have found := contains.placed before other rest split
      have apart : label.index ≠ other.index := by
        intro equal
        apply same
        cases other
        cases label
        simp_all
      unfold position? at found ⊢
      simp only [add]
      rw [Array.getElem?_setIfInBounds_ne apart]
      exact found

/-- Adding a text whose labels are new. -/
theorem addAll (contains : assembler.Contains items) {more : List Item}
    (distinct : (more.filterMap Item.label?).Nodup)
    (inside : ∀ label ∈ more.filterMap Item.label?,
      label.index < assembler.marks.size ∧
        label ∉ items.filterMap Item.label?) :
    (assembler.addAll more).Contains (items ++ more) := by
  induction more generalizing assembler items with
  | nil => simpa [Assembler.addAll] using contains
  | cons item rest ih =>
      have shape : items ++ item :: rest = (items ++ [item]) ++ rest := by simp
      rw [shape]
      cases labelled : item.label? with
      | none =>
          have marks : (assembler.add item).marks = assembler.marks := by
            cases item with
            | mark label => cases labelled
            | _ => rfl
          apply ih (contains.add_plain labelled)
          · simpa [labelled] using distinct
          · simp only [List.filterMap_cons, labelled] at inside
            rw [marks]
            simpa [List.filterMap_append, labelled] using inside
      | some label =>
          have isMark : item = .mark label := by
            cases item with
            | mark other =>
                cases labelled
                rfl
            | _ => cases labelled
          subst isMark
          simp only [List.filterMap_cons, Item.label?,
            List.nodup_cons] at distinct
          have here := inside label (by simp [Item.label?])
          apply ih (contains.add_mark here.1 here.2) distinct.2
          intro other member
          have there := inside other (by simp [Item.label?, member])
          refine ⟨by simpa [add] using there.1, ?_⟩
          simp only [List.filterMap_append, List.filterMap_cons, Item.label?,
            List.filterMap_nil, List.mem_append, List.mem_singleton]
          rintro (old | rfl)
          · exact there.2 old
          · exact distinct.1 member

end Contains

/-- Where the labels are when the code starts at a base. -/
def placement (assembler : Assembler) (base : Nat) (label : Label) : Nat :=
  base + (assembler.position? label).getD 0

/-- The words of the assembler, resolved, are code from a base on. -/
def WrittenAt (assembler : Assembler) (program : Program) (base : Nat) :
    Prop :=
  ∀ index word, assembler.words[index]? = some word →
    ∃ final, assembler.resolve index word = .ok final ∧
      program.code[base + index]? = some final

theorem toUInt32_add_sub (base target index : Nat) :
    (base + target).toUInt32 - (base + index).toUInt32 =
      target.toUInt32 + 1 - (index + 1).toUInt32 := by
  apply UInt32.toNat_inj.mp
  simp only [UInt32.toNat_sub, UInt32.toNat_add, Nat.toUInt32,
    UInt32.toNat_ofNat', UInt32.toNat_one]
  omega

/-- Code made of the words of an assembler holds its text. -/
theorem Contains.holds {assembler : Assembler} {before rest : List Item}
    (contains : assembler.Contains (before ++ rest)) {program : Program}
    {base : Nat} (written : assembler.WrittenAt program base) :
    program.Holds (assembler.placement base) (base + textSize before)
      rest := by
  induction rest generalizing before with
  | nil => trivial
  | cons item rest ih =>
      have tail := @ih (before ++ [item]) (by simpa using contains)
      have word (offset : Nat) (found : CodeWord)
          (at_ : item.codeWords[offset]? = some found) :
          assembler.words[textSize before + offset]? = some found := by
        rw [← Array.getElem?_toList, contains.words, List.flatMap_append,
          List.getElem?_append_right (by simp [textSize]),
          List.flatMap_cons, List.getElem?_append_left]
        · simpa [textSize] using at_
        · have inside := (List.getElem?_eq_some_iff.mp at_).1
          simpa [textSize] using inside
      have fixed (offset : Nat) (value : UInt32)
          (at_ : item.codeWords[offset]? = some (.fixed value)) :
          program.code[base + textSize before + offset]? = some value := by
        obtain ⟨final, resolved, there⟩ := written _ _ (word offset _ at_)
        cases resolved
        rw [Nat.add_assoc]
        exact there
      simp only [textSize_append, textSize_cons, textSize_nil] at tail
      cases item with
      | plain opcode =>
          exact ⟨fixed 0 _ rfl, tail⟩
      | operand opcode value =>
          exact ⟨fixed 0 _ rfl, fixed 1 _ rfl, tail⟩
      | branch opcode target =>
          refine ⟨fixed 0 _ rfl, ?_, tail⟩
          obtain ⟨final, resolved, there⟩ :=
            written _ _ (word 1 (.distance target) rfl)
          unfold resolve at resolved
          dsimp only at resolved
          unfold placement
          cases found : assembler.position? target with
          | none =>
              rw [found] at resolved
              cases resolved
          | some position =>
              rw [found] at resolved
              cases resolved
              rw [Nat.add_assoc, there, Option.getD_some, toUInt32_add_sub]
      | mark label =>
          refine ⟨?_, tail⟩
          simp [placement, contains.placed before label rest rfl]

theorem mapIdxM_go_eq_ok {α β ε : Type} {apply : Nat → α → Except ε β}
    {items : List α} {done : Array β} {results : List β}
    (mapped : List.mapIdxM.go apply items done = .ok results) :
    ∃ more, results = done.toList ++ more ∧ more.length = items.length ∧
      ∀ index item, items[index]? = some item →
        ∃ result, apply (done.size + index) item = .ok result ∧
          more[index]? = some result := by
  induction items generalizing done with
  | nil =>
      cases mapped
      exact ⟨[], by simp, rfl, nofun⟩
  | cons item rest ih =>
      unfold List.mapIdxM.go at mapped
      cases here : apply done.size item with
      | error fault =>
          rw [here] at mapped
          cases mapped
      | ok result =>
          rw [here] at mapped
          obtain ⟨more, shape, length, each⟩ := ih mapped
          refine ⟨result :: more, by simp [shape], by simp [length], ?_⟩
          intro index found present
          cases index with
          | zero =>
              cases present
              exact ⟨result, here, rfl⟩
          | succ index =>
              obtain ⟨final, applied, there⟩ := each index found present
              refine ⟨final, ?_, there⟩
              rw [← applied, Array.size_push]
              congr 1
              omega

/-- Finished code is the resolved words of the assembler. -/
theorem finish_eq_ok {assembler : Assembler} {words : List UInt32}
    (finished : assembler.finish = .ok words) :
    words.length = assembler.words.size ∧
      ∀ index word, assembler.words[index]? = some word →
        ∃ final, assembler.resolve index word = .ok final ∧
          words[index]? = some final := by
  have mapped : assembler.words.toList.mapIdxM assembler.resolve =
      .ok words := by
    rw [← Array.toList_mapIdxM]
    exact finished
  obtain ⟨more, shape, length, each⟩ := mapIdxM_go_eq_ok mapped
  cases shape
  refine ⟨by simpa using length, ?_⟩
  intro index word found
  obtain ⟨final, resolved, there⟩ :=
    each index word (by rw [Array.getElem?_toList]; exact found)
  exact ⟨final, by simpa using resolved, by simpa using there⟩

end Assembler

namespace Program

/-- Given words stand from a position on. -/
def HasWords (program : Program) (position : Nat) (words : List UInt32) :
    Prop :=
  ∀ index word, words[index]? = some word →
    program.code[position + index]? = some word

theorem HasWords.append_left {program : Program} {position : Nat}
    {first second : List UInt32}
    (stands : program.HasWords position (first ++ second)) :
    program.HasWords position first := by
  intro index word found
  apply stands
  rw [List.getElem?_append_left (List.getElem?_eq_some_iff.mp found).1]
  exact found

theorem HasWords.append_right {program : Program} {position : Nat}
    {first second : List UInt32}
    (stands : program.HasWords position (first ++ second)) :
    program.HasWords (position + first.length) second := by
  intro index word found
  rw [Nat.add_assoc]
  apply stands
  rw [List.getElem?_append_right (by omega), Nat.add_sub_cancel_left]
  exact found

end Program

namespace Assembler

variable {assembler : Assembler} {items : List Item} {program : Program}
  {position : Nat} {words : List UInt32}

theorem Contains.holds_finish (contains : assembler.Contains items)
    (finished : assembler.finish = .ok words)
    (stands : program.HasWords position words) :
    program.Holds (assembler.placement position) position items := by
  have written : assembler.WrittenAt program position := by
    intro index word found
    obtain ⟨final, resolved, there⟩ := (finish_eq_ok finished).2 index word found
    exact ⟨final, resolved, stands index final there⟩
  simpa using @Contains.holds assembler [] items contains program position written

/-- The text of a clause: its body between setting up and dropping the
activation record. -/
def clauseText (locals arity : Nat) (body : List Item) :
    List Item :=
  .operand .allocate locals.toUInt32 :: body ++
    [.operand .deallocate arity.toUInt32, .plain .proceed]

theorem Contains.holds_clause (contains : assembler.Contains items)
    {arity : Nat} (finished : assembler.clause arity = .ok words)
    (stands : program.HasWords position words) :
    program.Holds (assembler.placement (position + 2)) position
      (clauseText assembler.locals arity items) := by
  unfold clause at finished
  cases body : assembler.finish with
  | error fault =>
      rw [body] at finished
      cases finished
  | ok inner =>
      rw [body] at finished
      cases finished
      have length : inner.length = textSize items := by
        rw [(finish_eq_ok body).1, contains.size_eq]
      have middle := stands.append_left.append_right
      have last := stands.append_right
      have held := contains.holds_finish body middle
      refine ⟨stands 0 _ rfl, stands 1 _ rfl, ?_⟩
      refine Program.holds_append.mpr ⟨held, ?_⟩
      have start : position +
          ([Opcode.allocate.encode, assembler.locals.toUInt32] ++
            inner).length = position + 2 + textSize items := by
        simp [length]
        omega
      rw [start] at last
      exact ⟨last 0 _ rfl, last 1 _ rfl, last 2 _ rfl, trivial⟩

end Assembler

end LogicMachine
