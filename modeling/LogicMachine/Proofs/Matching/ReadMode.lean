import LogicMachine.Proofs.Matching.WriteMode

/-!
# Compounds that are there already

If the subject of a match is bound, its word has to be that of a compound with
the right functor.  The demand on the compound then becomes one demand for each
of its cells, and the cursor goes from cell to cell to meet them.
-/

namespace LogicMachine

/-- The tag of a compound or of a list pair. -/
def Tag.ofFunctor {α : Type} (functor : Option α) : Tag :=
  if functor.isSome then .compound else .list

/-- The code that puts the cursor where the word of the subject points. -/
def Pattern.enter (subject cursor : Local) : List Item :=
  [Item.onLocal .loadLocal subject, .plain .load, .plain .getAddress,
    Item.onLocal .storeLocal cursor]

/-- The code that looks at the functor of a structure. -/
def Pattern.header (cursor : Local) (id : Option FunctorId) (fail : Label) :
    List Item :=
  match id with
  | some id => Pattern.readHeader cursor id fail
  | none => []

section Mismatches

variable {T : Type} [TreeAlgebra T] {table : FunctorTable} {memory : Store}
  {value : Address → T} {word : Word} {children : Nat → T}

/-- The tree of a compound tells the tag of its word. -/
theorem Word.Denotes.tag_eq {functor : Option Functor}
    (denotes : word.Denotes table memory value
      (TreeAlgebra.node (Symbol.ofFunctor functor) fun index => children index))
    (bound : ∀ next, word.cell ≠ .reference next) :
    word.tag = .ofFunctor functor := by
  obtain ⟨symbol, others, made, heads⟩ := denotes.heads bound
  cases TreeAlgebra.symbol_eq made
  cases functor with
  | none =>
      cases decoded : word.cell with
      | list pair => exact tag_of_cell decoded
      | _ => simp [Heads, decoded, Symbol.ofFunctor] at heads
  | some functor =>
      cases decoded : word.cell with
      | compound header => exact tag_of_cell decoded
      | _ => simp [Heads, decoded, Symbol.ofFunctor] at heads

/-- The tree of a structure tells its functor. -/
theorem Word.Denotes.functorAt_eq {functor : Functor} {header : Address}
    (denotes : word.Denotes table memory value
      (TreeAlgebra.node (.compound functor) fun index => children index))
    (decoded : word.cell = .compound header) :
    table.functorAt memory header = .ok functor := by
  simp only [Word.Denotes, decoded] at denotes
  obtain ⟨other, found, same⟩ := denotes
  cases TreeAlgebra.symbol_eq same
  exact found

end Mismatches

namespace Scene

variable {scene : Scene} {view : View} {cells : Set Address}
  {kept named queue : List Keep} {waiting : List Demand}
  {content : Word} {base root : Address} {term : Term}
  {subject cursor : Local} {position : Nat} {draft after : Draft}
  {slot : Slot} {rest : List Item}

/-- The cursor goes to the next cell. -/
theorem advance
    (holds : scene.Holds position (Pattern.advance cursor))
    (ready : scene.Ready view cells kept waiting)
    (inside : cursor.index < scene.count)
    (unkept : ∀ keep ∈ kept, keep.place ≠ cursor.index)
    (found : view.locals[cursor.index]? = some (.address base))
    (isPlace : ∃ (region : Region) (index : Int32),
      base = region.address index ∧ 0 ≤ index)
    (next :
      scene.Ready (view.setLocal cursor.index (.address (base.plus 1))) cells
        kept waiting →
      scene.Ensures (position + textSize (Pattern.advance cursor))
        (view.setLocal cursor.index (.address (base.plus 1)))) :
    scene.Ensures position view := by
  obtain ⟨region, index, rfl, nonnegative⟩ := isPlace
  have length : cursor.index < view.locals.length := by
    rw [ready.length]
    exact inside
  have same : (region.address index).plus 1 = region.address (index + 1) := by
    cases region <;> rfl
  rw [same] at next
  apply scene.straight holds
  apply View.after_loadLocal (small inside) found
  refine ⟨region, index, rfl, nonnegative, ?_⟩
  refine View.after_storeLocal (small inside) rfl length ?_
  exact next (ready.setLocal unkept _)

theorem Ready.isPlace
    (ready : scene.Ready view cells kept waiting) (inside : base ∈ cells) :
    ∃ (region : Region) (index : Int32),
      base = region.address index ∧ 0 ≤ index := by
  obtain ⟨word, found, -⟩ := ready.terms.isTerm inside
  have nonnegative := (Store.isCell_of_load found).2
  obtain ⟨region, index, rfl⟩ := ready.terms.segments base inside
  rw [Region.offset_address] at nonnegative
  exact ⟨region, index, rfl, nonnegative⟩

theorem Ready.mem_of_inRow {terms : List Term}
    (ready : scene.Ready view cells kept
      (⟨.reference base, .takes term⟩ :: (Demand.inRow (base.plus 1) terms ++
        waiting))) : base ∈ cells :=
  (ready.awaited _ List.mem_cons_self _ List.mem_cons_self).mem_of_reference

/-- The code that matches one cell. -/
theorem readSlot
    (planned : Slot.Planned scene.naming draft term slot after)
    (holds : scene.Holds position (Pattern.readSlot subject cursor slot))
    (fits : after.assembler.locals ≤ scene.count)
    (works : draft.working = some (subject, cursor))
    (found : view.locals[cursor.index]? = some (.address base))
    (member : base ∈ cells)
    (stage : scene.Stage draft view cells named queue
      (⟨.reference base, .takes term⟩ :: waiting))
    (next : ∀ later larger others added,
      scene.Stage after later larger others (queue ++ added) waiting →
      List.Forall₂ Keep.Serves added (ClauseM.postponed [slot]) →
      later.locals[cursor.index]? = some (.address base) →
      scene.Ensures (position + textSize (Pattern.readSlot subject cursor slot))
        later) :
    scene.Ensures position view := by
  obtain ⟨notSubject, notCursor⟩ := stage.apart works
  obtain ⟨arranged, ready⟩ := stage
  obtain ⟨isSubject, isCursor, different, -⟩ :=
    arranged.lays.working _ _ works
  have upto := Nat.le_trans planned.reserves.locals fits
  have finds : Source.Finds scene.table view cells (.cursor cursor) base
      (.reference base) :=
    .cursor (small (Nat.lt_of_lt_of_le isCursor upto)) found member
  have still {place : Nat} (apart : place ≠ cursor.index) (operand : Operand) :
      (view.setLocal place operand).locals[cursor.index]? =
        some (.address base) := by
    rw [View.locals_setLocal_of_ne apart.symm]
    exact found
  cases planned with
  | void =>
      refine next view cells named [] (.unchanged arranged ?_) .nil found
      exact ready.met (fun _ => False.elim) fun T _ value bound _ =>
        Demand.met_reference.mpr Term.takes_anonymous
  | @first name isNamed unknown =>
      refine takeVariable holds ready finds fits arranged.ne_next
        fun word settled => ?_
      exact next _ _ (⟨draft.nextLocal.index, word, .var name⟩ :: named) []
        (.unchanged (arranged.withVariable isNamed unknown word) settled) .nil
        (still notCursor _)
  | @again name place isNamed known =>
      obtain ⟨word, isKept⟩ := arranged.lookup known
      have inside := arranged.inside isKept
      refine unifyValue holds ready finds isNamed isKept
        (Nat.lt_of_lt_of_le inside fits) fun larger memory _ settled => ?_
      exact next _ _ named [] (.unchanged arranged settled) .nil found
  | @constant _ functor id decided known =>
      refine matchConstant holds ready finds decided known
        (Nat.lt_of_lt_of_le isSubject upto) (arranged.ne_subject works) nofun
        fun root memory settled => ?_
      exact next _ _ named []
        (.unchanged arranged.withLabel.withLabel settled) .nil
        (still different _)
  | @nested _ functor args decided =>
      refine takeVariable holds ready finds fits arranged.ne_next
        fun word settled => ?_
      exact next _ _ named [⟨draft.nextLocal.index, word, term⟩]
        ⟨arranged.withLocal decided word, settled.queued⟩
        (.cons ⟨rfl, decided⟩ .nil) (still notCursor _)

/-- The code that matches all cells of a compound, from left to right. -/
theorem readSlots {terms : List Term} {slots : List Slot}
    (planned : Slot.PlannedAll scene.naming draft terms slots after)
    (holds : scene.Holds position (Pattern.readSlots subject cursor slots))
    (fits : after.assembler.locals ≤ scene.count)
    (works : draft.working = some (subject, cursor))
    (found : view.locals[cursor.index]? = some (.address base))
    (stage : scene.Stage draft view cells named queue
      (Demand.inRow base terms ++ waiting))
    (next : ∀ later larger others added,
      scene.Stage after later larger others (queue ++ added) waiting →
      List.Forall₂ Keep.Serves added (ClauseM.postponed slots) →
      scene.Ensures
        (position + textSize (Pattern.readSlots subject cursor slots))
        later) :
    scene.Ensures position view := by
  induction planned generalizing position view cells named queue base with
  | nil =>
      exact next view cells named [] (.unchanged stage.arranged stage.ready)
        .nil
  | @cons draft term slot middle terms slots after first others ih =>
      have member := stage.ready.mem_of_inRow
      have isPlace := stage.ready.isPlace member
      have upto := others.reserves.locals
      rw [Pattern.readSlots_cons] at holds next
      cases others with
      | nil =>
          rw [if_pos rfl, List.append_nil, Pattern.readSlots,
            List.append_nil] at holds next
          refine readSlot first holds fits works found member stage
            fun later larger more added reached serves _ => ?_
          exact next later larger more added reached serves
      | @cons _ another _ _ _ later _ second remaining =>
          rw [if_neg (List.cons_ne_nil _ _), List.append_assoc, holds_append,
            holds_append] at holds
          rw [if_neg (List.cons_ne_nil _ _), textSize_append, textSize_append,
            ← Nat.add_assoc, ← Nat.add_assoc] at next
          have working := first.working_eq.trans works
          refine readSlot first holds.1 (Nat.le_trans upto fits) works found
            member stage fun middleView larger more added reached serves kept =>
              ?_
          have isCursor := (reached.arranged.lays.working _ _ working).2.1
          have inside := Nat.lt_of_lt_of_le isCursor (Nat.le_trans upto fits)
          refine advance holds.2.1 reached.ready inside
            (reached.arranged.ne_cursor working) kept isPlace fun settled => ?_
          refine ih holds.2.2 fits working
            (View.locals_setLocal_self ?_) ⟨reached.arranged, settled⟩
            fun final all last extra ending serving => ?_
          · rw [reached.ready.length]
            exact inside
          rw [List.append_assoc] at ending
          refine next final all last (added ++ extra) ending ?_
          rw [ClauseM.postponed_cons]
          exact List.rel_append serves serving

/-- A number tells its functor, and a functor its number. -/
theorem functor_number {functor : Functor} {id number : FunctorId}
    (numbered : scene.naming.number? functor = some id) :
    scene.table.functor number = .ok functor ↔ number = id := by
  have found := scene.numbers functor id numbered
  unfold FunctorTable.functor
  constructor
  · intro known
    split at known
    case h_1 there =>
      rw [Except.ok.inj known] at there
      have same := scene.consistent.listed number functor there
      rw [found] at same
      exact (Option.some.inj same).symm
    case h_2 => cases known
  · rintro rfl
    rw [table, scene.consistent.numbered functor number found]

/-- The functor cell of the subject is compared with that of the compound. -/
theorem readHeader {functor : Functor} {id : FunctorId} {fail : Label}
    {args : List Term} {header : Address}
    (holds : scene.Holds position
      (Pattern.readHeader cursor id fail ++ rest))
    (failing : scene.Holds (scene.place fail) [.plain .fail])
    (ready : scene.Ready view cells kept (⟨content, .takes term⟩ :: waiting))
    (decided : Shape.of term = .ok (.compound (some functor) args))
    (numbered : scene.naming.number? functor = some id)
    (isCompound : content.cell = .compound header)
    (inside : cursor.index < scene.count)
    (unkept : ∀ keep ∈ kept, keep.place ≠ cursor.index)
    (found : view.locals[cursor.index]? = some (.address header))
    (next : ∀ later base,
      scene.Ready later cells kept (⟨content, .takes term⟩ :: waiting) →
      content.Spans scene.table later.memory (.compound functor) base →
      later.locals[cursor.index]? = some (.address base) →
      scene.Ensures
        (position + textSize (Pattern.readHeader cursor id fail)) later) :
    scene.Ensures position view := by
  have split : Pattern.readHeader cursor id fail ++ rest =
      [Item.onLocal .loadLocal cursor, .plain .load,
        .operand .loadConstant id.index, .plain .tagFunctor] ++
        (.branch .branchNotEqual fail :: (Pattern.advance cursor ++ rest)) :=
    rfl
  rw [split, holds_append] at holds
  obtain ⟨loading, deciding⟩ := holds
  have advancing := (holds_append.mp (holds_branch deciding)).1
  have isTerm := ready.awaited _ List.mem_cons_self content List.mem_cons_self
  have formed := isTerm.formed
  simp only [Word.Formed, isCompound] at formed
  obtain ⟨inUse, other, atHeader, -⟩ := formed
  obtain ⟨word, number, loaded, decoded, known⟩ := load_of_functorAt atHeader
  have canonical : word = .functor number :=
    ready.terms.canonical header inUse word number loaded decoded
  have length : cursor.index < view.locals.length := by
    rw [ready.length]
    exact inside
  apply scene.straight loading
  apply View.after_loadLocal (small inside) found
  refine View.after_load rfl (.inl ⟨.inl inUse, loaded⟩) ?_
  refine ⟨id, rfl, ?_⟩
  apply branch false deciding rfl
  · intro differs
    apply giveUp failing
    apply ready.unsolvable
    rintro T _ value bound respects - ⟨tree, denotes, takes⟩
    obtain ⟨children, rfl, -⟩ := (@Term.takes_compound T _ scene.naming bound
      tree term (some functor) args decided).mp takes
    have same := denotes.functorAt_eq isCompound
    rw [atHeader] at same
    cases same
    cases (functor_number numbered).mp known
    rw [canonical] at differs
    simp [Operand.toWord] at differs
  · intro equal
    have same : Word.functor id = word := by
      simpa [Operand.toWord] using equal
    have isKnown := (@functor_number scene functor id id numbered).mpr rfl
    have spans : content.Spans scene.table view.memory (.compound functor)
        (header.plus 1) := by
      refine .headed isCompound inUse ?_
      exact functorAt_of_load (same ▸ loaded) (Word.cell_functor id) isKnown
    have isPlace : ∃ (region : Region) (index : Int32),
        header = region.address index ∧ 0 ≤ index := by
      have nonnegative := (Store.isCell_of_load loaded).2
      rw [← ready.terms.bare] at loaded
      obtain ⟨region, index, rfl⟩ := Store.region_of_load_memory loaded
      rw [Region.offset_address] at nonnegative
      exact ⟨region, index, rfl, nonnegative⟩
    show scene.Ensures _ view
    refine advance advancing ready inside unkept found isPlace
      fun settled => ?_
    exact next _ (header.plus 1) settled spans
      (View.locals_setLocal_self length)

/-- The demand on a compound that is there becomes one for each argument. -/
theorem Ready.spread {functor : Option Functor} {args : List Term}
    (ready : scene.Ready view cells kept (⟨content, .takes term⟩ :: waiting))
    (decided : Shape.of term = .ok (.compound functor args))
    (spans : content.Spans scene.table view.memory (.ofFunctor functor) base) :
    scene.Ready view cells kept (Demand.inRow base args ++ waiting) := by
  have isTerm := ready.awaited _ List.mem_cons_self content List.mem_cons_self
  have full := Shape.length_of decided
  apply ready.rephrased
  · intro demand member word isWord
    rcases List.mem_append.mp member with new | waits
    · obtain ⟨index, below, words⟩ := Demand.words_inRow new
      rw [words] at isWord
      cases List.mem_singleton.mp isWord
      exact isTerm_reference (spans.inside isTerm index (full ▸ below))
    · exact ready.awaited demand (List.mem_cons_of_mem _ waits) word isWord
  · intro demand member address spared
    rcases List.mem_cons.mp member with rfl | waits
    · exact spared.elim
    · exact ⟨demand, List.mem_append_right _ waits, spared⟩
  · intro T _ value bound _
    rw [List.forall_mem_cons, List.forall_mem_append]
    exact and_congr_left'
      ((Demand.met_compound decided).trans (Demand.met_spans spans full))

/-- The code that matches a compound that is there. -/
theorem readCompound {functor : Option Functor} {id : Option FunctorId}
    {args : List Term} {slots : List Slot} {fail : Label}
    (planned : Slot.PlannedAll scene.naming draft args slots after)
    (holds : scene.Holds position
      (Pattern.readCompound subject cursor id slots fail))
    (failing : scene.Holds (scene.place fail) [.plain .fail])
    (fits : after.assembler.locals ≤ scene.count)
    (works : draft.working = some (subject, cursor))
    (stage : scene.Stage draft view cells named queue
      (⟨content, .takes term⟩ :: waiting))
    (decided : Shape.of term = .ok (.compound functor args))
    (numbered : functor.map scene.naming.number? = id.map some)
    (there : view.locals[subject.index]? = some (.address root))
    (loads : view.Loads root content)
    (bound : ∀ next, content.cell ≠ .reference next)
    (next : ∀ later larger others added,
      scene.Stage after later larger others (queue ++ added) waiting →
      List.Forall₂ Keep.Serves added (ClauseM.postponed slots) →
      scene.Ensures
        (position + textSize (Pattern.readCompound subject cursor id slots fail))
        later) :
    scene.Ensures position view := by
  obtain ⟨arranged, ready⟩ := stage
  obtain ⟨isSubject, isCursor, different, -⟩ :=
    arranged.lays.working _ _ works
  have upto := Nat.le_trans planned.reserves.locals fits
  have inside := Nat.lt_of_lt_of_le isCursor upto
  have length : cursor.index < view.locals.length := by
    rw [ready.length]
    exact inside
  have unkept := arranged.ne_cursor works
  have full := Shape.length_of decided
  have split : Pattern.readCompound subject cursor id slots fail =
      Pattern.compareTag subject (.ofFunctor id) ++
        .branch .branchNotEqual fail ::
          (Pattern.enter subject cursor ++ (Pattern.header cursor id fail ++
            Pattern.readSlots subject cursor slots)) := by
    cases id <;> rfl
  rw [split] at holds next
  have testing := holds
  obtain ⟨loading, reading⟩ :=
    holds_append.mp (holds_branch (holds_append.mp holds).2)
  simp only [textSize_append, textSize_cons, Pattern.length_branch] at next
  apply testTag testing (Nat.lt_of_lt_of_le isSubject upto) there loads
  · intro same
    let moved := view.setLocal cursor.index (.address content.address)
    have settled : scene.Ready moved cells (named ++ queue)
        (⟨content, .takes term⟩ :: waiting) := ready.setLocal unkept _
    have points : moved.locals[cursor.index]? = some (.address content.address) :=
      View.locals_setLocal_self length
    have reads {later : View} {base : Address}
        (ready : scene.Ready later cells (named ++ queue)
          (⟨content, .takes term⟩ :: waiting))
        (spans : content.Spans scene.table later.memory (.ofFunctor functor)
          base)
        (found : later.locals[cursor.index]? = some (.address base)) :
        scene.Ensures _ later :=
      readSlots planned (holds_append.mp reading).2 fits works found
        ⟨arranged, ready.spread decided spans⟩
        fun final larger others added reached serves => by
          refine Eq.subst (motive := fun position =>
            scene.Ensures position final) ?_
            (next final larger others added reached serves)
          omega
    apply scene.straight loading
    apply View.after_loadLocal (small (Nat.lt_of_lt_of_le isSubject upto)) there
    refine View.after_load rfl loads ?_
    have stored : (view.push (.address content.address)).AfterAll
        (scene.Ensures
          (position + textSize (Pattern.compareTag subject (.ofFunctor id)) + 2 +
            textSize (Pattern.enter subject cursor)))
        [Item.onLocal .storeLocal cursor] := by
      refine View.after_storeLocal (small inside) rfl length ?_
      show scene.Ensures _ moved
      cases id with
      | none =>
          cases functor with
          | some functor => cases numbered
          | none =>
              refine reads settled (.pair ?_) points
              rw [Word.cell, same]
              rfl
      | some number =>
          cases functor with
          | none => cases numbered
          | some functor =>
              have isCompound : content.cell = .compound content.address := by
                rw [Word.cell, same]
                rfl
              exact readHeader reading failing settled decided
                (Option.some.inj numbered) isCompound inside unkept points
                fun later base => reads
    exact stored
  · intro differs
    apply giveUp failing
    apply ready.unsolvable
    rintro T _ value names respects - ⟨tree, denotes, allowed⟩
    obtain ⟨children, rfl, -⟩ := (@Term.takes_compound T _ scene.naming names
      tree term functor args decided).mp allowed
    apply differs
    rw [denotes.tag_eq bound]
    cases functor <;> cases id <;> first | rfl | cases numbered

end Scene

end LogicMachine
