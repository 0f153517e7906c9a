import LogicMachine.Proofs.Code.Plan

/-!
# Texts under construction

A draft is a text under construction.  Slots and labels are set aside first and
used afterwards.  Every label that is set aside is placed once, and every branch
leads to a label that is placed, so a text can always be turned into code.
-/

namespace LogicMachine

namespace Term

mutual

/-- Every list cell in the term has two arguments. -/
def isProper : Term → Bool
  | .atom _ | .var _ => true
  | .compound functor args =>
      (functor != listFunctor || args.length == 2) && areProper args

/-- Every list cell in the terms has two arguments. -/
def areProper : List Term → Bool
  | [] => true
  | term :: rest => term.isProper && areProper rest

end

mutual

/-- The number of atoms, variables and compounds in a term. -/
def nodes : Term → Nat
  | .atom _ | .var _ => 1
  | .compound _ args => nodesOf args + 1

/-- The number of atoms, variables and compounds in an argument list. -/
def nodesOf : List Term → Nat
  | [] => 0
  | term :: rest => term.nodes + nodesOf rest

end

theorem areProper_args {functor : String} {args : List Term}
    (proper : (Term.compound functor args).isProper = true) :
    areProper args = true := by
  rw [isProper, Bool.and_eq_true] at proper
  exact proper.2

theorem areProper_cons {term : Term} {rest : List Term}
    (proper : areProper (term :: rest) = true) :
    term.isProper = true ∧ areProper rest = true := by
  rwa [areProper, Bool.and_eq_true] at proper

theorem nodes_pos (term : Term) : 0 < term.nodes := by
  cases term <;> simp [nodes]

end Term

namespace Item

/-- The label that an item leads to. -/
def target? : Item → Option Label
  | .branch _ target => some target
  | _ => none

end Item

/-- The labels that a text places. -/
def labelsOf (items : List Item) : List Label :=
  items.filterMap Item.label?

/-- The labels that a text leads to. -/
def targetsOf (items : List Item) : List Label :=
  items.filterMap Item.target?

section Labels

variable (first second : List Item)

@[simp]
theorem labelsOf_nil : labelsOf [] = [] :=
  rfl

@[simp]
theorem targetsOf_nil : targetsOf [] = [] :=
  rfl

@[simp]
theorem labelsOf_append :
    labelsOf (first ++ second) = labelsOf first ++ labelsOf second :=
  List.filterMap_append

@[simp]
theorem targetsOf_append :
    targetsOf (first ++ second) = targetsOf first ++ targetsOf second :=
  List.filterMap_append

@[simp]
theorem labelsOf_plain (opcode : Opcode) (rest : List Item) :
    labelsOf (.plain opcode :: rest) = labelsOf rest :=
  rfl

@[simp]
theorem targetsOf_plain (opcode : Opcode) (rest : List Item) :
    targetsOf (.plain opcode :: rest) = targetsOf rest :=
  rfl

@[simp]
theorem labelsOf_operand (opcode : Opcode) (value : UInt32)
    (rest : List Item) :
    labelsOf (.operand opcode value :: rest) = labelsOf rest :=
  rfl

@[simp]
theorem targetsOf_operand (opcode : Opcode) (value : UInt32)
    (rest : List Item) :
    targetsOf (.operand opcode value :: rest) = targetsOf rest :=
  rfl

@[simp]
theorem labelsOf_branch (opcode : Opcode) (target : Label)
    (rest : List Item) :
    labelsOf (.branch opcode target :: rest) = labelsOf rest :=
  rfl

@[simp]
theorem targetsOf_branch (opcode : Opcode) (target : Label)
    (rest : List Item) :
    targetsOf (.branch opcode target :: rest) = target :: targetsOf rest :=
  rfl

@[simp]
theorem labelsOf_mark (label : Label) (rest : List Item) :
    labelsOf (.mark label :: rest) = label :: labelsOf rest :=
  rfl

@[simp]
theorem targetsOf_mark (label : Label) (rest : List Item) :
    targetsOf (.mark label :: rest) = targetsOf rest :=
  rfl

end Labels

namespace Draft

/-! ## Setting slots and labels aside -/

/-- The next slot to be set aside. -/
def nextLocal (draft : Draft) : Local :=
  ⟨draft.assembler.locals⟩

/-- The next label to be set aside. -/
def nextLabel (draft : Draft) : Label :=
  ⟨draft.assembler.marks.size⟩

def withLocal (draft : Draft) : Draft :=
  { draft with assembler := draft.assembler.newLocal.2 }

def withLabel (draft : Draft) : Draft :=
  { draft with assembler := draft.assembler.newLabel.2 }

/-- Gives a variable a slot. -/
def withVariable (draft : Draft) (name : String) : Draft :=
  { draft.withLocal with slots := (name, draft.nextLocal) :: draft.slots }

/-- Sets the two working slots aside. -/
def withWorking (draft : Draft) : Draft :=
  { draft.withLocal.withLocal with
    working := some (draft.nextLocal, draft.withLocal.nextLocal) }

def emitted (draft : Draft) (items : List Item) : Draft :=
  { draft with assembler := draft.assembler.addAll items }

theorem emitted_append (draft : Draft) (items more : List Item) :
    draft.emitted (items ++ more) = (draft.emitted items).emitted more := by
  simp only [emitted, Assembler.addAll, List.foldl_append]

section Counts

variable (draft : Draft)

@[simp]
theorem locals_withLocal :
    draft.withLocal.assembler.locals = draft.assembler.locals + 1 :=
  rfl

@[simp]
theorem locals_withLabel :
    draft.withLabel.assembler.locals = draft.assembler.locals :=
  rfl

@[simp]
theorem locals_withVariable (name : String) :
    (draft.withVariable name).assembler.locals =
      draft.assembler.locals + 1 :=
  rfl

@[simp]
theorem locals_withWorking :
    draft.withWorking.assembler.locals = draft.assembler.locals + 2 :=
  rfl

theorem locals_addAll (assembler : Assembler) (items : List Item) :
    (assembler.addAll items).locals = assembler.locals := by
  induction items generalizing assembler with
  | nil => rfl
  | cons item rest ih =>
      have same : (assembler.add item).locals = assembler.locals := by
        cases item <;> rfl
      rw [← same]
      exact ih (assembler.add item)

@[simp]
theorem locals_emitted (items : List Item) :
    (draft.emitted items).assembler.locals = draft.assembler.locals :=
  locals_addAll _ _

@[simp]
theorem marks_withLabel :
    draft.withLabel.assembler.marks.size =
      draft.assembler.marks.size + 1 := by
  simp [withLabel, Assembler.newLabel]

end Counts

/-- Something may have been set aside, but nothing has been written. -/
structure Reserves (before after : Draft) : Prop where
  contains : ∀ items, before.assembler.Contains items →
    after.assembler.Contains items
  labels : before.assembler.marks.size ≤ after.assembler.marks.size
  locals : before.assembler.locals ≤ after.assembler.locals

namespace Reserves

theorem refl (draft : Draft) : draft.Reserves draft :=
  ⟨fun _ => id, Nat.le_refl _, Nat.le_refl _⟩

theorem trans {first second third : Draft} (left : first.Reserves second)
    (right : second.Reserves third) : first.Reserves third where
  contains := fun items holds => right.contains items (left.contains items holds)
  labels := Nat.le_trans left.labels right.labels
  locals := Nat.le_trans left.locals right.locals

theorem withLocal (draft : Draft) : draft.Reserves draft.withLocal :=
  ⟨fun _ holds => holds.newLocal, Nat.le_refl _, Nat.le_succ _⟩

theorem withLabel (draft : Draft) : draft.Reserves draft.withLabel :=
  ⟨fun _ holds => holds.newLabel, by simp, Nat.le_refl _⟩

theorem withVariable (draft : Draft) (name : String) :
    draft.Reserves (draft.withVariable name) :=
  ⟨fun _ holds => holds.newLocal, Nat.le_refl _, Nat.le_succ _⟩

theorem withWorking (draft : Draft) : draft.Reserves draft.withWorking :=
  ⟨fun _ holds => holds.newLocal.newLocal, Nat.le_refl _, by simp⟩

end Reserves

/-! ## Texts -/

/-- The draft has written a text all of whose branches lead somewhere. -/
structure Text (draft : Draft) (items : List Item) : Prop where
  contains : draft.assembler.Contains items
  leads : targetsOf items ⊆ labelsOf items

/-- The draft has gone on to write a text of a bounded size.  There is a word of
it for every slot that was set aside. -/
structure Writes (bound : Nat) (before : Draft) (more : List Item)
    (after : Draft) : Prop where
  text : ∀ items, before.Text items → after.Text (items ++ more)
  size : textSize more ≤ bound
  locals : after.assembler.locals ≤
    before.assembler.locals + textSize more

namespace Writes

variable {first second third : Draft} {few many : Nat}
  {items more : List Item}

theorem nil (draft : Draft) : draft.Writes 0 [] draft where
  text := fun items holds => by rwa [List.append_nil]
  size := Nat.le_refl _
  locals := Nat.le_refl _

theorem append (left : first.Writes few items second)
    (right : second.Writes many more third) :
    first.Writes (few + many) (items ++ more) third where
  text := by
    intro earlier holds
    rw [← List.append_assoc]
    exact right.text _ (left.text earlier holds)
  size := by
    have one := left.size
    have two := right.size
    rw [textSize_append]
    omega
  locals := by
    have one := left.locals
    have two := right.locals
    rw [textSize_append]
    omega

theorem mono (writes : first.Writes few items second) (le : few ≤ many) :
    first.Writes many items second :=
  ⟨writes.text, Nat.le_trans writes.size le, writes.locals⟩

/-- Writing a text whose labels have just been set aside. -/
theorem emit {before reserved : Draft} {bound : Nat}
    (reserves : before.Reserves reserved)
    (distinct : (labelsOf more).Nodup)
    (fresh : ∀ label ∈ labelsOf more,
      before.assembler.marks.size ≤ label.index ∧
        label.index < reserved.assembler.marks.size)
    (leads : targetsOf more ⊆ labelsOf more) (size : textSize more ≤ bound)
    (locals : reserved.assembler.locals ≤
      before.assembler.locals + textSize more) :
    before.Writes bound more (reserved.emitted more) where
  text := by
    intro items ⟨contains, inside⟩
    refine ⟨(reserves.contains items contains).addAll distinct ?_, ?_⟩
    · intro label member
      refine ⟨(fresh label member).2, fun old => ?_⟩
      have below := contains.known label old
      have above := (fresh label member).1
      omega
    · rw [targetsOf_append, labelsOf_append]
      intro label member
      rw [List.mem_append] at member ⊢
      exact member.imp (fun old => inside old) (fun new => leads new)
  size := size
  locals := by
    rw [locals_emitted]
    exact locals

/-- Writing a text without labels. -/
theorem emit_plain {before reserved : Draft} {bound : Nat}
    (reserves : before.Reserves reserved) (noLabel : labelsOf more = [])
    (noTarget : targetsOf more = []) (size : textSize more ≤ bound)
    (locals : reserved.assembler.locals ≤
      before.assembler.locals + textSize more) :
    before.Writes bound more (reserved.emitted more) :=
  emit reserves (by rw [noLabel]; exact List.nodup_nil)
    (by rw [noLabel]; nofun) (by rw [noTarget]; exact List.nil_subset _) size
    locals

end Writes

theorem text_empty : empty.Text [] :=
  ⟨⟨rfl, List.nodup_nil, nofun, fun before _ _ shape => by
    cases before <;> cases shape⟩, List.Subset.refl _⟩

end Draft

namespace Assembler

theorem mapIdxM_go_ok {α β ε : Type} {apply : Nat → α → Except ε β}
    {items : List α} {done : Array β}
    (each : ∀ index item, items[index]? = some item →
      ∃ result, apply (done.size + index) item = .ok result) :
    ∃ results, List.mapIdxM.go apply items done = .ok results := by
  induction items generalizing done with
  | nil => exact ⟨_, rfl⟩
  | cons item rest ih =>
      obtain ⟨result, here⟩ := each 0 item rfl
      unfold List.mapIdxM.go
      rw [Nat.add_zero] at here
      rw [here]
      apply ih
      intro index found present
      obtain ⟨final, applied⟩ := each (index + 1) found present
      refine ⟨final, ?_⟩
      rw [← applied, Array.size_push]
      congr 1
      omega

/-- A text all of whose branches lead somewhere can be turned into code. -/
theorem finish_of_text {draft : Draft} {items : List Item}
    (text : draft.Text items) :
    ∃ words, draft.assembler.finish = .ok words ∧
      words.length = textSize items := by
  have resolved : ∀ index word, draft.assembler.words.toList[index]? =
      some word → ∃ final,
        draft.assembler.resolve ((#[] : Array UInt32).size + index) word =
          .ok final := by
    intro index word found
    cases word with
    | fixed word => exact ⟨word, rfl⟩
    | distance target =>
        have member := List.mem_of_getElem? found
        rw [text.contains.words, List.mem_flatMap] at member
        obtain ⟨item, inside, here⟩ := member
        have leads : target ∈ targetsOf items := by
          refine List.mem_filterMap.mpr ⟨item, inside, ?_⟩
          cases item <;> simp_all [Item.codeWords, Item.target?]
        obtain ⟨mark, marks, isLabel⟩ :=
          List.mem_filterMap.mp (text.leads leads)
        obtain ⟨before, after, shape⟩ := List.append_of_mem marks
        have isMark : mark = .mark target := by
          cases mark <;> simp_all [Item.label?]
        subst isMark
        unfold resolve
        simp only [text.contains.placed before target after shape]
        exact ⟨_, rfl⟩
  obtain ⟨words, finished⟩ := mapIdxM_go_ok resolved
  have isFinished : draft.assembler.finish = .ok words := by
    have mapped : draft.assembler.words.toList.mapIdxM
        draft.assembler.resolve = .ok words := finished
    rw [← Array.toList_mapIdxM] at mapped
    exact mapped
  exact ⟨words, isFinished, by
    rw [(finish_eq_ok isFinished).1, text.contains.size_eq]⟩

end Assembler

end LogicMachine
