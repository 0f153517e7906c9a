import LogicMachine.Proofs.Reading.ReadBack
import LogicMachine.Proofs.Reading.Sketch

/-!
# Back edges of cyclic terms

A back edge is read while the compound that it goes back to is being read, so it
comes out inside of that compound.  Only a copy of a compound that had been
finished before may stand elsewhere, but then the compound itself has been drawn
too.  So the term that is read back is a regular tree that can be unfolded, and
it unfolds to what is in the store.
-/

namespace LogicMachine

namespace Store

variable {table : FunctorTable} {store : Store} {cells : Set Address}

/-- A compound that was drawn shows cells of the store. -/
def Draws (table : FunctorTable) (store : Store) (cells : Set Address)
    (drawn : Drawn) : Prop :=
  ∃ node parts, node.Sound table store cells ∧
    store.Compound table node drawn.key drawn.name parts ∧
    store.SketchesAll table parts drawn.args

/-- A back edge goes back to a compound that is still being read or has been
drawn. -/
def Supported (entered : Set Address) (drawn : List Drawn)
    (marks : List Mark) : Prop :=
  ∀ key, Mark.back key ∈ marks →
    key ∈ entered ∨ ∃ other ∈ drawn, other.key = key

theorem Supported.mono {entered wider : Set Address}
    {drawn more : List Drawn} {marks : List Mark}
    (supported : Supported entered drawn marks) (grows : entered ⊆ wider)
    (keeps : drawn ⊆ more) : Supported wider more marks := by
  intro key member
  rcases supported key member with inside | ⟨other, isDrawn, same⟩
  · exact .inl (grows inside)
  · exact .inr ⟨other, keeps isDrawn, same⟩

theorem Supported.append {entered : Set Address} {drawn : List Drawn}
    {marks more : List Mark} (supported : Supported entered drawn marks)
    (alsoSupported : Supported entered drawn more) :
    Supported entered drawn (marks ++ more) := by
  intro key member
  rcases List.mem_append.mp member with first | second
  · exact supported key first
  · exact alsoSupported key second

/-- When a compound is left, the back edges to it go back to a drawn one. -/
theorem Supported.leave {entered : Set Address} {drawn : List Drawn}
    {marks : List Mark} {last : Drawn}
    (supported : Supported (insert last.key entered) drawn marks) :
    Supported entered (drawn ++ [last]) marks := by
  intro key member
  rcases supported key member with (rfl | inside) | ⟨other, isDrawn, same⟩
  · exact .inr ⟨last, by simp, rfl⟩
  · exact .inl inside
  · exact .inr ⟨other, List.mem_append_left _ isDrawn, same⟩

/-- The compounds that have been drawn are those that are known. -/
structure Recorded (table : FunctorTable) (store : Store) (cells : Set Address)
    (entered : Set Address) (drawn : List Drawn)
    (known : Address → Option Term) : Prop where
  recalls : ∀ key term, known key = some term → ∃ name args,
    ⟨key, name, args⟩ ∈ drawn ∧
      term = .compound name (Sketch.termsOf args)
  holds : ∀ compound ∈ drawn, known compound.key =
    some (.compound compound.name (Sketch.termsOf compound.args))
  draws : ∀ compound ∈ drawn, store.Draws table cells compound
  supported : ∀ compound ∈ drawn,
    Supported entered drawn (Sketch.marksOf compound.args)

/-- What has been added by a reading that started with some compounds drawn. -/
structure Progress (table : FunctorTable) (store : Store) (cells : Set Address)
    (entered : Set Address) (before : List Drawn)
    (known later : Address → Option Term) (marks : List Mark)
    (copies drawn : List Drawn) : Prop where
  copies : copies ⊆ before ++ drawn
  new : ∀ compound ∈ drawn,
    compound.key ∉ entered ∧ known compound.key = none
  distinct : (drawn.map Drawn.key).Nodup
  recorded : store.Recorded table cells entered (before ++ drawn) later
  supported : Supported entered (before ++ drawn) marks

theorem Recorded.nothing :
    store.Recorded table cells ∅ [] fun _ => none where
  recalls := nofun
  holds := nofun
  draws := nofun
  supported := nofun

theorem Recorded.enter {entered : Set Address} {drawn : List Drawn}
    {known : Address → Option Term}
    (recorded : store.Recorded table cells entered drawn known)
    (key : Address) :
    store.Recorded table cells (insert key entered) drawn known where
  recalls := recorded.recalls
  holds := recorded.holds
  draws := recorded.draws
  supported := fun compound isDrawn =>
    (recorded.supported compound isDrawn).mono (Set.subset_insert _ _)
      (List.Subset.refl _)

/-- A reading that draws no compound. -/
theorem Progress.stay {entered : Set Address} {drawn copies : List Drawn}
    {known : Address → Option Term} {marks : List Mark}
    (recorded : store.Recorded table cells entered drawn known)
    (areDrawn : copies ⊆ drawn) (supported : Supported entered drawn marks) :
    store.Progress table cells entered drawn known known marks copies [] where
  copies := by rwa [List.append_nil]
  new := nofun
  distinct := List.nodup_nil
  recorded := by rwa [List.append_nil]
  supported := by rwa [List.append_nil]

/-- Readings one after another. -/
theorem Progress.append {entered : Set Address}
    {before copies moreCopies drawn more : List Drawn}
    {known between later : Address → Option Term}
    {marks moreMarks : List Mark}
    (first : store.Progress table cells entered before known between marks
      copies drawn)
    (keeps : ∀ key term, known key = some term → between key = some term)
    (rest : store.Progress table cells entered (before ++ drawn) between later
      moreMarks moreCopies more) :
    store.Progress table cells entered before known later (marks ++ moreMarks)
      (copies ++ moreCopies) (drawn ++ more) := by
  have all : before ++ drawn ++ more = before ++ (drawn ++ more) :=
    List.append_assoc _ _ _
  have early : before ++ drawn ⊆ before ++ (drawn ++ more) :=
    all ▸ List.subset_append_left _ _
  constructor
  case copies =>
    intro copy member
    rcases List.mem_append.mp member with inFirst | inRest
    · exact early (first.copies inFirst)
    · exact all ▸ rest.copies inRest
  case new =>
    intro compound isDrawn
    rcases List.mem_append.mp isDrawn with inFirst | inRest
    · exact first.new compound inFirst
    · obtain ⟨left, unknown⟩ := rest.new compound inRest
      refine ⟨left, ?_⟩
      cases finished : known compound.key with
      | none => rfl
      | some term =>
          rw [keeps _ _ finished] at unknown
          cases unknown
  case distinct =>
    rw [List.map_append, List.nodup_append]
    refine ⟨first.distinct, rest.distinct, ?_⟩
    rintro _ inFirst _ inRest rfl
    obtain ⟨compound, isDrawn, rfl⟩ := List.mem_map.mp inFirst
    obtain ⟨other, otherDrawn, same⟩ := List.mem_map.mp inRest
    have finished := first.recorded.holds compound
      (List.mem_append_right _ isDrawn)
    rw [← same, (rest.new other otherDrawn).2] at finished
    cases finished
  case recorded => exact all ▸ rest.recorded
  case supported =>
    exact (first.supported.mono subset_rfl early).append
      (all ▸ rest.supported)

/-- A compound is drawn after its arguments have been read. -/
theorem Progress.leave {entered : Set Address} {before copies drawn : List Drawn}
    {known later : Address → Option Term} {marks : List Mark} {last : Drawn}
    (recorded : store.Recorded table cells entered before known)
    (left : last.key ∉ entered) (unknown : known last.key = none)
    (progress : store.Progress table cells (insert last.key entered) before
      known later marks copies drawn)
    (draws : store.Draws table cells last)
    (isMarks : marks = Sketch.marksOf last.args) :
    store.Progress table cells entered before known
      (Function.update later last.key
        (some (.compound last.name (Sketch.termsOf last.args))))
      marks copies (drawn ++ [last]) := by
  have all : before ++ drawn ++ [last] = before ++ (drawn ++ [last]) :=
    List.append_assoc _ _ _
  have early : before ++ drawn ⊆ before ++ (drawn ++ [last]) :=
    all ▸ List.subset_append_left _ _
  have other {compound : Drawn} (isDrawn : compound ∈ before ++ drawn) :
      compound.key ≠ last.key := by
    intro same
    rcases List.mem_append.mp isDrawn with old | new
    · have finished := recorded.holds compound old
      rw [same, unknown] at finished
      cases finished
    · exact (progress.new compound new).1 (.inl same)
  have supported := all ▸ progress.supported.leave
  constructor
  case copies => exact fun _ member => early (progress.copies member)
  case new =>
    intro compound isDrawn
    rcases List.mem_append.mp isDrawn with new | isLast
    · obtain ⟨outside, unknown⟩ := progress.new compound new
      exact ⟨fun inside => outside (.inr inside), unknown⟩
    · cases List.mem_singleton.mp isLast
      exact ⟨left, unknown⟩
  case distinct =>
    rw [List.map_append, List.nodup_append]
    refine ⟨progress.distinct, List.nodup_singleton _, ?_⟩
    rintro _ inside _ isLast rfl
    obtain ⟨compound, isDrawn, same⟩ := List.mem_map.mp inside
    exact other (List.mem_append_right _ isDrawn)
      (same.trans (List.mem_singleton.mp isLast))
  case recorded =>
    constructor
    case recalls =>
      intro key term finished
      by_cases same : key = last.key
      · subst same
        rw [Function.update_self] at finished
        cases finished
        exact ⟨last.name, last.args, by simp, rfl⟩
      · rw [Function.update_of_ne same] at finished
        obtain ⟨name, args, isDrawn, isTerm⟩ :=
          progress.recorded.recalls key term finished
        exact ⟨name, args, early isDrawn, isTerm⟩
    case holds =>
      intro compound isDrawn
      rw [← all] at isDrawn
      rcases List.mem_append.mp isDrawn with old | isLast
      · rw [Function.update_of_ne (other old)]
        exact progress.recorded.holds compound old
      · cases List.mem_singleton.mp isLast
        rw [Function.update_self]
    case draws =>
      intro compound isDrawn
      rw [← all] at isDrawn
      rcases List.mem_append.mp isDrawn with old | isLast
      · exact progress.recorded.draws compound old
      · cases List.mem_singleton.mp isLast
        exact draws
    case supported =>
      intro compound isDrawn
      rw [← all] at isDrawn ⊢
      rcases List.mem_append.mp isDrawn with old | isLast
      · exact (progress.recorded.supported compound old).leave
      · cases List.mem_singleton.mp isLast
        exact isMarks ▸ progress.supported.leave
  case supported => exact supported

mutual

/-- Reading with a memory makes a sketch. -/
theorem MemoReading.sketch (readable : store.Readable table cells)
    {entered : Set Address} {known later : Address → Option Term}
    {address : Address} {term : Term}
    (reading : store.MemoReading table entered known address term later)
    (inside : address ∈ cells) {drawn : List Drawn}
    (recorded : store.Recorded table cells entered drawn known) :
    ∃ sketch : Sketch, sketch.term = term ∧
      store.Sketches table address sketch ∧ sketch.Scoped true entered ∧
      store.Progress table cells entered drawn known later sketch.marks
        sketch.copies sketch.drawn := by
  cases reading with
  | @unbound _ _ _ target found =>
      exact ⟨.leaf (.unbound target), rfl, .unbound found, .unbound target,
        .stay recorded nofun (by simp [Supported, Sketch.marks])⟩
  | @atom _ _ _ _ functor found named =>
      exact ⟨.atom functor.name, rfl, .atom found named, .atom _,
        .stay recorded nofun nofun⟩
  | @cycle _ _ _ key _ _ _ found isCompound again =>
      refine ⟨.leaf (.back key), rfl, .back found isCompound, .back again,
        .stay recorded nofun ?_⟩
      intro other member
      cases List.mem_singleton.mp member
      exact .inl again
  | @recalled _ _ _ key node name parts _ found isCompound left finished =>
      obtain ⟨copiedName, args, isDrawn, rfl⟩ :=
        recorded.recalls key term finished
      obtain ⟨otherNode, others, formed, isOther, sketched⟩ :=
        recorded.draws _ isDrawn
      -- The node at hand is the one that was drawn.
      cases readable.compound_inj (readable.sound_of_at inside found) formed
        isCompound isOther
      obtain ⟨-, rfl, rfl⟩ := isCompound.unique isOther
      refine ⟨.compound true key _ args, rfl,
        .compound found isCompound sketched, .copy rfl,
        .stay recorded ?_ (recorded.supported _ isDrawn)⟩
      intro copy member
      cases List.mem_singleton.mp member
      exact isDrawn
  | @compound _ _ later _ key node name parts terms found isCompound left new
      args =>
      obtain ⟨sketches, rfl, sketched, enclosed, progress⟩ :=
        MemoReadings.sketch readable args
          (readable.parts_mem inside found isCompound) (recorded.enter key)
      exact ⟨.compound false key name sketches, rfl,
        .compound found isCompound sketched, .compound enclosed,
        @Progress.leave _ _ _ _ _ _ _ _ _ _ ⟨key, name, sketches⟩ recorded left
          new progress ⟨node, parts, readable.sound_of_at inside found,
            isCompound, sketched⟩ rfl⟩

/-- Reading cells one after another makes their sketches. -/
theorem MemoReadings.sketch (readable : store.Readable table cells)
    {entered : Set Address} {known later : Address → Option Term}
    {addresses : List Address} {terms : List Term}
    (readings : store.MemoReadings table entered known addresses terms later)
    (inside : ∀ address ∈ addresses, address ∈ cells) {drawn : List Drawn}
    (recorded : store.Recorded table cells entered drawn known) :
    ∃ sketches, Sketch.termsOf sketches = terms ∧
      store.SketchesAll table addresses sketches ∧
      Sketch.ScopedAll true entered sketches ∧
      store.Progress table cells entered drawn known later
        (Sketch.marksOf sketches) (Sketch.copiesOf sketches)
        (Sketch.drawnOf sketches) := by
  cases readings with
  | nil => exact ⟨[], rfl, .nil, .nil, .stay recorded nofun nofun⟩
  | cons first rest =>
      obtain ⟨sketch, rfl, sketched, enclosed, progress⟩ :=
        MemoReading.sketch readable first (inside _ List.mem_cons_self) recorded
      obtain ⟨sketches, rfl, others, othersEnclosed, more⟩ :=
        MemoReadings.sketch readable rest
          (fun other member => inside other (List.mem_cons_of_mem _ member))
          progress.recorded
      exact ⟨sketch :: sketches, rfl, .cons sketched others,
        .cons enclosed othersEnclosed,
        progress.append (fun _ _ => first.keeps) more⟩

end

/-! ## Unfolding a sketch -/

/-- Sketches are unfolded to the trees in the store if those of their parts
are. -/
theorem SketchesAll.outlines {drawn : List Drawn} {depth : Nat}
    (each : ∀ address sketch, store.Sketches table address sketch →
      address ∈ cells → Supported ∅ drawn sketch.marks →
      store.Outlines table depth address (sketch.outline drawn depth))
    {parts : List Address} {args : List Sketch}
    (sketched : store.SketchesAll table parts args)
    (inside : ∀ part ∈ parts, part ∈ cells)
    (supported : Supported ∅ drawn (Sketch.marksOf args)) :
    List.Forall₂ (store.Outlines table depth) parts
      (args.map (Sketch.outline drawn depth)) := by
  induction parts generalizing args with
  | nil =>
      cases sketched
      exact .nil
  | cons part parts ih =>
      cases sketched with
      | cons first others =>
          refine .cons (each _ _ first (inside _ List.mem_cons_self) ?_)
            (ih others (fun other member =>
              inside other (List.mem_cons_of_mem _ member)) ?_)
          · exact fun key member =>
              supported key (List.mem_append_left _ member)
          · exact fun key member =>
              supported key (List.mem_append_right _ member)

/-- A sketch whose back edges go back to drawn compounds is unfolded to the
tree in the store. -/
theorem Sketches.outlines (readable : store.Readable table cells)
    {drawn : List Drawn} {known : Address → Option Term}
    (recorded : store.Recorded table cells ∅ drawn known) (depth : Nat)
    (address : Address) (sketch : Sketch)
    (sketched : store.Sketches table address sketch) (inside : address ∈ cells)
    (supported : Supported ∅ drawn sketch.marks) :
    store.Outlines table depth address (sketch.outline drawn depth) := by
  induction depth generalizing address sketch with
  | zero => rfl
  | succ depth ih =>
      cases sketched with
      | unbound found => exact found
      | atom found named => exact ⟨_, _, found, named, rfl⟩
      | compound found isCompound args =>
          exact ⟨_, _, _, found, isCompound, args.outlines ih
            (readable.parts_mem inside found isCompound) supported⟩
      | @back _ key node name parts found isCompound =>
          obtain ⟨other, isDrawn, same⟩ :=
            (supported key List.mem_cons_self).resolve_left id
          obtain ⟨compound, isFirst⟩ : ∃ compound,
              drawn.find? (fun known => known.key = key) = some compound :=
            Option.isSome_iff_exists.mp
              (List.find?_isSome.mpr ⟨other, isDrawn, by simpa using same⟩)
          have member := List.mem_of_find?_eq_some isFirst
          have sameKey : compound.key = key := by
            simpa using List.find?_some isFirst
          obtain ⟨otherNode, others, formed, isOther, args⟩ :=
            recorded.draws compound member
          rw [sameKey] at isOther
          -- The compound that was drawn is the one that is gone back to.
          cases readable.compound_inj (readable.sound_of_at inside found) formed
            isCompound isOther
          obtain ⟨-, isName, rfl⟩ := isCompound.unique isOther
          simp only [Sketch.outline, isFirst, isName]
          exact ⟨_, _, _, found, isCompound, args.outlines ih
            (readable.parts_mem inside found isCompound)
            (recorded.supported compound member)⟩

/-- What is read back of a term is a regular tree that unfolds to the term.
Outside of copies each back edge is inside of the compound that it goes back to;
a copy is one of a compound that was drawn, and so is each compound that is gone
back to, once. -/
theorem Readable.readBack_sketch (readable : store.Readable table cells)
    {address : Address} (inside : address ∈ cells) :
    ∃ sketch : Sketch,
      readBack table store address = .ok sketch.term ∧
      store.Sketches table address sketch ∧
      sketch.Scoped true ∅ ∧
      sketch.copies ⊆ sketch.drawn ∧
      (sketch.drawn.map Drawn.key).Nodup ∧
      (∀ key, Mark.back key ∈ sketch.marks →
        ∃ compound ∈ sketch.drawn, compound.key = key) ∧
      ∀ depth outline, store.Outlines table depth address outline ↔
        outline = sketch.outline sketch.drawn depth := by
  obtain ⟨term, later, reading⟩ := readable.exists_memoReading inside
  obtain ⟨sketch, rfl, sketched, enclosed, progress⟩ :=
    reading.sketch readable inside .nothing
  have reads := reading.readBack_eq readable inside
  have recorded : store.Recorded table cells ∅ sketch.drawn later :=
    progress.recorded
  have isTree (depth : Nat) := Sketches.outlines readable recorded depth address
    sketch sketched inside progress.supported
  refine ⟨sketch, reads, sketched, enclosed, progress.copies,
    progress.distinct, ?_, fun depth outline => ⟨?_, ?_⟩⟩
  · exact fun key member =>
      (progress.supported key member).resolve_left id
  · exact fun outlines => (isTree depth).unique outlines
  · rintro rfl
    exact isTree depth

end Store

/-! ## Two structures inside of each other -/

def crossedTable : FunctorTable :=
  ⟨#[⟨"f", 1⟩, ⟨"g", 1⟩], {}⟩

/-- The pair of two structures each of which is the argument of the other. -/
def crossedStore : Store :=
  { Store.empty 0 0 0 with
    heap := #[Word.functor ⟨0⟩, Word.compound (.heap 2), Word.functor ⟨1⟩,
      Word.compound (.heap 0), Word.compound (.heap 0), Word.compound (.heap 2),
      Word.list (.heap 4)]
    heapTop := 7 }

/-- All cells but the two functor cells. -/
def crossedCells : Set Address :=
  { address | address ∈ [Address.heap 1, Address.heap 3, Address.heap 4,
    Address.heap 5, Address.heap 6] }

theorem forall_crossedCells {property : Address → Prop}
    (one : property (.heap 1)) (three : property (.heap 3))
    (four : property (.heap 4)) (five : property (.heap 5))
    (six : property (.heap 6)) :
    ∀ address ∈ crossedCells, property address := by
  intro address member
  simp only [crossedCells, List.mem_cons, List.not_mem_nil, or_false,
    Set.mem_ofPred_eq] at member
  rcases member with rfl | rfl | rfl | rfl | rfl <;> assumption

theorem crossed_outer : Store.Compound crossedTable crossedStore
    (.compound (.heap 0)) (.heap 0) "f" [.heap 1] := by
  have loaded : crossedStore.load (.heap 0) = .ok (.functor ⟨0⟩) := rfl
  have known : crossedTable.functorAt crossedStore (.heap 0) = .ok ⟨"f", 1⟩ :=
    functorAt_of_load loaded (Word.cell_functor _) rfl
  exact .headed known

theorem crossed_inner : Store.Compound crossedTable crossedStore
    (.compound (.heap 2)) (.heap 2) "g" [.heap 3] := by
  have loaded : crossedStore.load (.heap 2) = .ok (.functor ⟨1⟩) := rfl
  have known : crossedTable.functorAt crossedStore (.heap 2) = .ok ⟨"g", 1⟩ :=
    functorAt_of_load loaded (Word.cell_functor _) rfl
  exact .headed known

theorem crossed_readable : crossedStore.Readable crossedTable crossedCells := by
  have outer : (Word.compound (.heap 0)).cell.Sound crossedTable crossedStore
      crossedCells := by
    rw [Word.cell_compound]
    refine ⟨show (0 : Int32) < 7 by decide, ⟨"f", 1⟩, rfl, ?_⟩
    intro (index : Nat) (below : index < 1)
    cases Nat.lt_one_iff.mp below
    exact show Address.heap 1 ∈ crossedCells by simp [crossedCells]
  have inner : (Word.compound (.heap 2)).cell.Sound crossedTable crossedStore
      crossedCells := by
    rw [Word.cell_compound]
    refine ⟨show (2 : Int32) < 7 by decide, ⟨"g", 1⟩, rfl, ?_⟩
    intro (index : Nat) (below : index < 1)
    cases Nat.lt_one_iff.mp below
    exact show Address.heap 3 ∈ crossedCells by simp [crossedCells]
  have pair : (Word.list (.heap 4)).cell.Sound crossedTable crossedStore
      crossedCells := by
    rw [Word.cell_list]
    exact ⟨by simp [crossedCells],
      show Address.heap 5 ∈ crossedCells by simp [crossedCells]⟩
  have compound {index header : Int32} (below : index < 7)
      (loaded : crossedStore.load (.heap index) =
        .ok (.compound (.heap header)))
      (formed : (Word.compound (.heap header)).cell.Sound crossedTable
        crossedStore crossedCells) :
      crossedStore.Legible crossedTable crossedCells (.heap index) :=
    .of_root loaded below formed (by simp [Cell.Readable]) (by simp)
  have last : crossedStore.load (.heap 6) = .ok (.list (.heap 4)) := rfl
  exact .of_each (forall_crossedCells (compound (by decide) rfl inner)
    (compound (by decide) rfl outer) (compound (by decide) rfl outer)
    (compound (by decide) rfl inner)
    (.of_root last (show (6 : Int32) < 7 by decide) pair
      (by simp [Cell.Readable]) (by simp)))

theorem Store.readBack_sketch_crossed :
    crossedStore.Readable crossedTable crossedCells ∧
    Address.heap 6 ∈ crossedCells ∧
    ∃ sketch : Sketch,
      readBack crossedTable crossedStore (.heap 6) = .ok sketch.term ∧
      crossedStore.Sketches crossedTable (.heap 6) sketch ∧
      sketch.Scoped true ∅ ∧
      sketch.copies ⊆ sketch.drawn ∧
      (sketch.drawn.map Drawn.key).Nodup ∧
      (∀ key, Mark.back key ∈ sketch.marks →
        ∃ compound ∈ sketch.drawn, compound.key = key) ∧
      ∀ depth outline,
        crossedStore.Outlines crossedTable depth (.heap 6) outline ↔
          outline = sketch.outline sketch.drawn depth := by
  have inside : Address.heap 6 ∈ crossedCells := by simp [crossedCells]
  exact ⟨crossed_readable, inside,
    Readable.readBack_sketch crossed_readable inside⟩

/-- The second of the two structures is not read as a part of the pair, since it
is known by then.  So the back edge to the first one is outside of it. -/
theorem Store.readBack_escapes_crossed :
    crossedStore.Readable crossedTable crossedCells ∧
    Address.heap 6 ∈ crossedCells ∧
    ∃ term, readBack crossedTable crossedStore (.heap 6) = .ok term ∧
      term = .compound Term.listFunctor
        [.compound "f" [.compound "g" [.var "_H0"]],
          .compound "g" [.var "_H0"]] ∧
      ∀ sketch : Sketch, sketch.term = term →
        crossedStore.Sketches crossedTable (.heap 6) sketch →
        ¬ sketch.Scoped false ∅ := by
  have compound {index header : Int32}
      (loaded : crossedStore.load (.heap index) =
        .ok (.compound (.heap header))) :
      crossedStore.At (.heap index) (.compound (.heap header)) := by
    simpa using At.of_load loaded (by simp)
  have three : crossedStore.At (.heap 3) (.compound (.heap 0)) := compound rfl
  have five : crossedStore.At (.heap 5) (.compound (.heap 2)) := compound rfl
  have six : crossedStore.At (.heap 6) (.list (.heap 4)) := by
    have loaded : crossedStore.load (.heap 6) = .ok (.list (.heap 4)) := rfl
    simpa using At.of_load loaded (by simp)
  have inside : Address.heap 6 ∈ crossedCells := by simp [crossedCells]
  obtain ⟨later, known, first⟩ := @MemoReading.loop crossedTable crossedStore
    (insert (.heap 4) ∅) (fun _ => none) (.heap 4) _ _ _ _ _ _ (compound rfl)
    crossed_outer (compound rfl) crossed_inner three (by simp) (by simp)
    (by decide) rfl rfl
  have second : crossedStore.MemoReading crossedTable (insert (.heap 4) ∅)
      later (.heap 5) (.compound "g" [variableAt (.heap 0)]) later :=
    .recalled five crossed_inner (by simp) known
  have reading := MemoReading.compound six (.pair _)
    (Set.notMem_empty (Address.heap 4)) rfl (.cons first (.cons second .nil))
  refine ⟨crossed_readable, inside, _,
    reading.readBack_eq crossed_readable inside, rfl, ?_⟩
  intro sketch isTerm sketched enclosed
  obtain ⟨_, _, rfl, isArgs, inner⟩ :=
    sketched.eq_compound six (.pair _) isTerm
  obtain _ | ⟨_, _ | ⟨second, _⟩⟩ := inner
  obtain ⟨_, secondTerm⟩ := List.cons.inj isArgs
  obtain ⟨_, _, rfl, isArgs, inner⟩ :=
    second.eq_compound five crossed_inner (List.cons.inj secondTerm).1
  obtain _ | ⟨argument, _⟩ := inner
  cases argument.eq_back three crossed_outer (List.cons.inj isArgs).1
  -- The back edge is only inside of the pair and of the second structure.
  obtain _ | ⟨_, _ | ⟨secondEnclosed, _⟩⟩ := enclosed.inner
  obtain _ | ⟨argumentEnclosed, _⟩ := secondEnclosed.inner
  cases argumentEnclosed with
  | back inside => simp at inside

end LogicMachine
