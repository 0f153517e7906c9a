import LogicMachine.Proofs.Reading.BackEdges

/-!
# What the names of variables tell

A variable that was read back has the name of a cell: that of an unbound
variable, or the one where the compound starts that a back edge goes back to.
Structures start at their functor cells, which hold no variables.  List pairs
have no such cell and start at their heads, so a list pair that is reached again
by its own tail has the name of its head if that is an unbound variable.
-/

namespace LogicMachine

namespace Store

variable {table : FunctorTable} {store : Store} {cells : Set Address}

/-- What a mark stands for is there. -/
def Stands (table : FunctorTable) (store : Store) (cells : Set Address) :
    Mark → Prop
  | .unbound cell => store.Unbound cell
  | .back key => ∃ shown ∈ cells, ∃ node name parts,
      store.At shown node ∧ store.Compound table node key name parts

mutual

/-- The marks of a sketch stand for what the cells show. -/
theorem Sketches.stands (readable : store.Readable table cells)
    {address : Address} {sketch : Sketch}
    (sketched : store.Sketches table address sketch) (inside : address ∈ cells)
    {mark : Mark} (member : mark ∈ sketch.marks) :
    store.Stands table cells mark := by
  cases sketched with
  | unbound found =>
      cases List.mem_singleton.mp member
      exact found.unbound.1
  | atom => cases member
  | back found isCompound =>
      cases List.mem_singleton.mp member
      exact ⟨address, inside, _, _, _, found, isCompound⟩
  | compound found isCompound inner =>
      exact SketchesAll.stands readable inner
        (readable.parts_mem inside found isCompound) member

theorem SketchesAll.stands (readable : store.Readable table cells)
    {addresses : List Address} {sketches : List Sketch}
    (sketched : store.SketchesAll table addresses sketches)
    (inside : ∀ address ∈ addresses, address ∈ cells) {mark : Mark}
    (member : mark ∈ Sketch.marksOf sketches) :
    store.Stands table cells mark := by
  cases sketched with
  | nil => cases member
  | cons first others =>
      rcases List.mem_append.mp member with isFirst | isLater
      · exact Sketches.stands readable first (inside _ List.mem_cons_self)
          isFirst
      · exact SketchesAll.stands readable others
          (fun other isOther => inside other (List.mem_cons_of_mem _ isOther))
          isLater

end

theorem Readable.isCell_of_stands (readable : store.Readable table cells)
    {mark : Mark} (stands : store.Stands table cells mark) :
    mark.cell.IsCell := by
  cases mark with
  | unbound cell =>
      obtain ⟨word, loaded, -⟩ := stands
      exact (isCell_of_load loaded).1
  | back key =>
      obtain ⟨shown, inside, node, name, parts, found, isCompound⟩ := stands
      cases isCompound with
      | headed known =>
          obtain ⟨word, -, loaded, -⟩ := load_of_functorAt known
          exact (isCell_of_load loaded).1
      | pair =>
          have head := readable.parts_mem inside found (.pair key) key
            List.mem_cons_self
          obtain ⟨word, loaded⟩ := readable.load_ok head
          exact (isCell_of_load loaded).1

/-- The cell where a compound starts holds no variable, unless it is the head
of a list pair. -/
theorem Compound.of_unbound {node : Cell} {key : Address} {name : String}
    {parts : List Address}
    (isCompound : store.Compound table node key name parts)
    (unbound : store.Unbound key) : node = .list key := by
  cases isCompound with
  | headed known =>
      obtain ⟨word, id, loaded, isFunctor, -⟩ := load_of_functorAt known
      obtain ⟨other, again, isVariable⟩ := unbound
      cases loaded.symm.trans again
      cases isFunctor.symm.trans isVariable
  | pair => rfl

/-- The one way for two different marks to have the same name: the first stands
for an unbound variable and the second one for a list pair in the cells of which
that variable is the head. -/
inductive Ambiguous (store : Store) (cells : Set Address) :
    Mark → Mark → Prop where
  | head {pair shown : Address} (unbound : store.Unbound pair)
      (inside : shown ∈ cells) (found : store.At shown (.list pair)) :
      Ambiguous store cells (.unbound pair) (.back pair)

theorem Readable.eq_or_ambiguous (readable : store.Readable table cells)
    {mark other : Mark} (stands : store.Stands table cells mark)
    (otherStands : store.Stands table cells other)
    (same : mark.name = other.name) :
    mark = other ∨ store.Ambiguous cells mark other ∨
      store.Ambiguous cells other mark := by
  have sameCell : mark.cell = other.cell :=
    Address.variableName_inj (readable.isCell_of_stands stands)
      (readable.isCell_of_stands otherStands) same
  have ambiguous {cell key : Address} (isSame : cell = key)
      (unbound : store.Stands table cells (.unbound cell))
      (back : store.Stands table cells (.back key)) :
      store.Ambiguous cells (.unbound cell) (.back key) := by
    subst isSame
    obtain ⟨shown, inside, node, name, parts, found, isCompound⟩ := back
    cases isCompound.of_unbound unbound
    exact .head unbound inside found
  cases mark with
  | unbound cell =>
      cases other with
      | unbound other => exact .inl (congrArg Mark.unbound sameCell)
      | back key => exact .inr (.inl (ambiguous sameCell stands otherStands))
  | back key =>
      cases other with
      | unbound cell =>
          exact .inr (.inr (ambiguous sameCell.symm otherStands stands))
      | back other => exact .inl (congrArg Mark.back sameCell)

/-- Variables that are read back have the same name only if they stand for the
same unbound variable, or are back edges to the same compound, or one stands for
an unbound variable and the other one is a back edge to the list pair of which
that variable is the head. -/
theorem Readable.readBack_names (readable : store.Readable table cells)
    {address : Address} (inside : address ∈ cells) :
    ∃ sketch : Sketch,
      readBack table store address = .ok sketch.term ∧
      store.Sketches table address sketch ∧
      sketch.term.vars = sketch.marks.map Mark.name ∧
      ∀ mark ∈ sketch.marks, ∀ other ∈ sketch.marks,
        mark.name = other.name →
        mark = other ∨ store.Ambiguous cells mark other ∨
          store.Ambiguous cells other mark := by
  obtain ⟨term, later, reading⟩ := readable.exists_memoReading inside
  obtain ⟨sketch, rfl, sketched, -⟩ := reading.sketch readable inside .nothing
  refine ⟨sketch, reading.readBack_eq readable inside, sketched,
    sketch.vars_term, ?_⟩
  intro mark member other otherMember same
  exact readable.eq_or_ambiguous (sketched.stands readable inside member)
    (sketched.stands readable inside otherMember) same

end Store

/-! ## A list that is its own tail -/

/-- A list pair that is its own tail and of which the head is a variable. -/
def endlessStore : Store :=
  { Store.empty 0 0 0 with
    heap := #[Word.list (.heap 1), Word.reference (.heap 1),
      Word.list (.heap 1)]
    heapTop := 3 }

def endlessCells : Set Address :=
  { address | address ∈ [Address.heap 0, Address.heap 1, Address.heap 2] }

theorem endless_readable : endlessStore.Readable .empty endlessCells := by
  have pair : (Word.list (.heap 1)).cell.Sound .empty endlessStore
      endlessCells := by
    rw [Word.cell_list]
    exact ⟨by simp [endlessCells],
      show Address.heap 2 ∈ endlessCells by simp [endlessCells]⟩
  have list {index : Int32} (below : index < 3)
      (loaded : endlessStore.load (.heap index) = .ok (.list (.heap 1))) :
      endlessStore.Legible .empty endlessCells (.heap index) :=
    .of_root loaded below pair (by simp [Cell.Readable]) (by simp)
  have head : endlessStore.load (.heap 1) = .ok (.reference (.heap 1)) := rfl
  refine .of_each fun address member => ?_
  simp only [endlessCells, List.mem_cons, List.not_mem_nil, or_false,
    Set.mem_ofPred_eq] at member
  rcases member with rfl | rfl | rfl
  · exact list (by decide) rfl
  · exact .of_root head (show (1 : Int32) < 3 by decide)
      (by simp [Cell.Sound, endlessCells]) (by simp [Cell.Readable]) (by simp)
  · exact list (by decide) rfl

theorem Store.readBack_names_endless :
    endlessStore.Readable .empty endlessCells ∧
    Address.heap 0 ∈ endlessCells ∧
    ∃ sketch : Sketch,
      readBack .empty endlessStore (.heap 0) = .ok sketch.term ∧
      endlessStore.Sketches .empty (.heap 0) sketch ∧
      sketch.term.vars = sketch.marks.map Mark.name ∧
      ∀ mark ∈ sketch.marks, ∀ other ∈ sketch.marks,
        mark.name = other.name →
        mark = other ∨ endlessStore.Ambiguous endlessCells mark other ∨
          endlessStore.Ambiguous endlessCells other mark := by
  have inside : Address.heap 0 ∈ endlessCells := by simp [endlessCells]
  exact ⟨endless_readable, inside, endless_readable.readBack_names inside⟩

/-- The head and the back edge to the pair have the same name. -/
theorem Store.readBack_clashes_endless :
    endlessStore.Readable .empty endlessCells ∧
    Address.heap 0 ∈ endlessCells ∧
    ∃ term, readBack .empty endlessStore (.heap 0) = .ok term ∧
      term.vars = ["_H1", "_H1"] ∧
      ∀ sketch : Sketch, sketch.term = term →
        endlessStore.Sketches .empty (.heap 0) sketch →
        sketch.marks = [.unbound (.heap 1), .back (.heap 1)] := by
  have list {index : Int32}
      (loaded : endlessStore.load (.heap index) = .ok (.list (.heap 1))) :
      endlessStore.At (.heap index) (.list (.heap 1)) := by
    simpa using At.of_load loaded (by simp)
  have zero : endlessStore.At (.heap 0) (.list (.heap 1)) := list rfl
  have one : endlessStore.At (.heap 1) (.reference (.heap 1)) := by
    have loaded : endlessStore.load (.heap 1) = .ok (.reference (.heap 1)) :=
      rfl
    simpa using At.of_load loaded (by simp)
  have two : endlessStore.At (.heap 2) (.list (.heap 1)) := list rfl
  have inside : Address.heap 0 ∈ endlessCells := by simp [endlessCells]
  obtain ⟨later, reading⟩ : ∃ later, endlessStore.MemoReading .empty ∅
      (fun _ => none) (.heap 0) (.compound Term.listFunctor
        [variableAt (.heap 1), variableAt (.heap 1)]) later :=
    ⟨_, .compound zero (.pair _) nofun rfl
      (.cons (.unbound one) (.cons (.cycle two (.pair _) (by simp)) .nil))⟩
  refine ⟨endless_readable, inside, _,
    reading.readBack_eq endless_readable inside, rfl, ?_⟩
  intro sketch isTerm sketched
  obtain ⟨_, _, rfl, isArgs, inner⟩ :=
    sketched.eq_compound zero (.pair _) isTerm
  obtain _ | ⟨head, _ | ⟨tail, nothing⟩⟩ := inner
  obtain ⟨-, isTail⟩ := List.cons.inj isArgs
  cases head.eq_unbound one
  cases tail.eq_back two (.pair _) (List.cons.inj isTail).1
  cases nothing
  rfl

end LogicMachine
