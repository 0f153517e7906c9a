import LogicMachine.Proofs.Matching.Building

/-!
# Compounds that are built

The compiler plans a slot for each argument of a compound.  The code that builds
the compound writes a cell for each of them: a new variable, or the word of what
is known already.  Building keeps the slots of the variables and puts the
compounds among the arguments at the end of the queue.
-/

namespace LogicMachine

theorem Word.IsTerm.grown {table : FunctorTable} {memory : Store}
    {cells : Set Address} {word : Word}
    (isTerm : word.IsTerm table memory cells) (growable : memory.Growable)
    (other : Word) :
    word.IsTerm table (memory.grown other)
      (insert (.heap memory.heapTop) cells) := by
  have more : cells ⊆ insert (.heap memory.heapTop) cells :=
    Set.subset_insert _ _
  exact ⟨isTerm.formed.imp
    ⟨more, (growable.preserves other).allocated, more⟩
    (Store.agrees_grown growable), isTerm.sound⟩

namespace ClauseM

theorem postponed_cons (slot : Slot) (slots : List Slot) :
    postponed (slot :: slots) = postponed [slot] ++ postponed slots := by
  unfold postponed
  rw [← List.filterMap_append]
  rfl

end ClauseM

namespace Scene

/-- A view at a point of the text of a head: some slots are kept for the
variables, as the draft has them, and others for the compounds put off. -/
structure Stage (scene : Scene) (draft : Draft) (view : View)
    (cells : Set Address) (named queue : List Keep) (waiting : List Demand) :
    Prop where
  arranged : draft.Arranges named queue
  ready : scene.Ready view cells (named ++ queue) waiting

variable {scene : Scene} {view : View} {cells : Set Address}
  {kept named queue : List Keep} {waiting : List Demand}
  {content own word : Word} {symbol : Symbol} {base root : Address}
  {pointer : Int32} {count : Nat} {term : Term} {rest : List Term}
  {subject cursor : Local} {position : Nat} {draft after : Draft}
  {slot : Slot}

/-- No compound is put off. -/
theorem Stage.unchanged (arranged : draft.Arranges named queue)
    (ready : scene.Ready view cells (named ++ queue) waiting) :
    scene.Stage draft view cells named (queue ++ []) waiting := by
  rw [List.append_nil]
  exact ⟨arranged, ready⟩

/-- The next argument is a new variable, whose word is kept in a slot. -/
theorem writeFresh {place : Local}
    (holds : scene.Holds position (Item.freshVariable (some place)))
    (ready : scene.Ready view cells kept
      (⟨content, .builds symbol base count (term :: rest)⟩ :: waiting))
    (builds : scene.Builds view cells subject cursor root pointer content own
      symbol base count)
    (inside : place.index < scene.count)
    (free : ∀ keep ∈ kept, keep.place ≠ place.index)
    (notSubject : place.index ≠ subject.index)
    (notCursor : place.index ≠ cursor.index)
    (next : ∀ later larger word,
      scene.Ready later larger (⟨place.index, word, term⟩ :: kept)
        (⟨content, .builds symbol base (count + 1) rest⟩ :: waiting) →
      scene.Builds later larger subject cursor root pointer content own symbol
        base (count + 1) →
      scene.Ensures (position + textSize (Item.freshVariable (some place)))
        later) :
    scene.Ensures position view := by
  apply Context.Ensures.of_sane
  intro sane
  have there : place.index < view.locals.length := by
    rw [ready.length]
    exact inside
  apply scene.straight holds
  refine View.after_freshVariable_slot (sane.room .heap) (sane.capacity .heap)
    (small inside) there fun growable => ?_
  let cell : Word := .reference (.heap view.memory.heapTop)
  have isTerm : cell.IsTerm scene.table (view.memory.grown cell)
      (insert (.heap view.memory.heapTop) cells) :=
    isTerm_reference (Set.mem_insert _ _)
  have written := @Ready.written _ _ _ _ _ _ cell _ _ _ _ _
    [⟨cell, .takes term⟩] ready growable builds.next isTerm (by
      intro demand member other isWord
      cases List.mem_singleton.mp member
      cases List.mem_singleton.mp isWord
      exact isTerm) (by
      intro T _ value bound _
      rw [List.forall_mem_singleton, Demand.met_reference, builds.next]
      refine and_iff_right ?_
      simp only [cell, Word.Denotes, Word.cell_reference])
  refine next _ _ cell (written.keep inside free isTerm
    fun _ _ _ _ _ => Iff.rfl) ?_
  exact (builds.grown ready.terms growable cell).setLocal _ notSubject
    notCursor

/-- The next argument is known already. -/
theorem writeKnown {value : Built}
    (holds : scene.Holds position value.write)
    (ready : scene.Ready view cells kept
      (⟨content, .builds symbol base count (term :: rest)⟩ :: waiting))
    (builds : scene.Builds view cells subject cursor root pointer content own
      symbol base count)
    (stands : value.Stands view word)
    (isTerm : word.IsTerm scene.table view.memory cells)
    (means : ∀ (T : Type) [TreeAlgebra T] (value : Address → T)
      (bound : String → T) (tree : T),
      (∀ demand ∈ waiting ++ kept.map Keep.demand,
        demand.Met scene.table scene.naming view.memory value bound) →
      (word.Denotes scene.table view.memory value tree ↔
        term.Takes scene.naming bound tree))
    (next : ∀ later larger,
      scene.Ready later larger kept
        (⟨content, .builds symbol base (count + 1) rest⟩ :: waiting) →
      scene.Builds later larger subject cursor root pointer content own symbol
        base (count + 1) →
      scene.Ensures (position + textSize value.write) later) :
    scene.Ensures position view := by
  apply Context.Ensures.of_sane
  intro sane
  apply scene.straight holds
  refine View.after_write (sane.room .heap) (sane.capacity .heap) stands
    fun growable => ?_
  have later := isTerm.grown growable word
  have evolves := ready.terms.evolves_cell growable later
  refine next _ _ (@Ready.written _ _ _ _ _ _ word _ _ _ _ _ [] ready growable
    builds.next later nofun ?_) (builds.grown ready.terms growable word)
  intro T _ value bound met
  rw [evolves.denotes isTerm fun _ _ => rfl]
  rw [means T value bound _ met]
  exact and_iff_left nofun

/-- The next argument is any term: a variable that nobody asks for. -/
theorem writeVoid (holds : scene.Holds position (Item.freshVariable none))
    (ready : scene.Ready view cells kept
      (⟨content, .builds symbol base count (.var Term.anonymous :: rest)⟩ ::
        waiting))
    (builds : scene.Builds view cells subject cursor root pointer content own
      symbol base count)
    (next : ∀ later larger,
      scene.Ready later larger kept
        (⟨content, .builds symbol base (count + 1) rest⟩ :: waiting) →
      scene.Builds later larger subject cursor root pointer content own symbol
        base (count + 1) →
      scene.Ensures (position + textSize (Item.freshVariable none)) later) :
    scene.Ensures position view := by
  apply Context.Ensures.of_sane
  intro sane
  apply scene.straight holds
  refine View.after_freshVariable (sane.room .heap) (sane.capacity .heap)
    fun growable => ?_
  let cell : Word := .reference (.heap view.memory.heapTop)
  refine next _ _ (@Ready.written _ _ _ _ _ _ cell _ _ _ _ _ [] ready growable
    builds.next (isTerm_reference (Set.mem_insert _ _)) nofun ?_)
    (builds.grown ready.terms growable cell)
  intro T _ value bound _
  rw [builds.next]
  refine iff_of_true ⟨?_, nofun⟩ Term.takes_anonymous
  simp only [cell, Word.Denotes, Word.cell_reference]

theorem Stage.apart (stage : scene.Stage draft view cells named queue waiting)
    (works : draft.working = some (subject, cursor)) :
    draft.nextLocal.index ≠ subject.index ∧
      draft.nextLocal.index ≠ cursor.index := by
  obtain ⟨first, second, -⟩ := stage.arranged.lays.working _ _ works
  exact ⟨Nat.ne_of_gt first, Nat.ne_of_gt second⟩

/-- The code that writes one argument. -/
theorem writeSlot
    (planned : Slot.Planned scene.naming draft term slot after)
    (holds : scene.Holds position (Pattern.writeSlot slot))
    (fits : after.assembler.locals ≤ scene.count)
    (works : draft.working = some (subject, cursor))
    (stage : scene.Stage draft view cells named queue
      (⟨content, .builds symbol base count (term :: rest)⟩ :: waiting))
    (builds : scene.Builds view cells subject cursor root pointer content own
      symbol base count)
    (next : ∀ later larger others added,
      scene.Stage after later larger others (queue ++ added)
        (⟨content, .builds symbol base (count + 1) rest⟩ :: waiting) →
      List.Forall₂ Keep.Serves added (ClauseM.postponed [slot]) →
      scene.Builds later larger subject cursor root pointer content own symbol
        base (count + 1) →
      scene.Ensures (position + textSize (Pattern.writeSlot slot)) later) :
    scene.Ensures position view := by
  obtain ⟨arranged, ready⟩ := stage
  cases planned with
  | void =>
      refine writeVoid holds ready builds fun later larger settled built => ?_
      exact next later larger named [] (.unchanged arranged settled) .nil built
  | @first name isNamed unknown =>
      obtain ⟨notSubject, notCursor⟩ := Stage.apart ⟨arranged, ready⟩ works
      refine writeFresh holds ready builds fits arranged.ne_next notSubject
        notCursor fun later larger word settled built => ?_
      exact next later larger
        (⟨draft.nextLocal.index, word, .var name⟩ :: named) []
        (.unchanged (arranged.withVariable isNamed unknown word) settled) .nil
        built
  | @again name place isNamed found =>
      obtain ⟨word, member⟩ := arranged.lookup found
      obtain ⟨stored, isTerm⟩ := ready.stored _ member
      have inside := arranged.inside member
      refine @writeKnown _ _ _ _ _ _ _ word _ _ _ _ _ _ _ _ _ _ (.slot place)
        holds ready builds ⟨small (Nat.lt_of_lt_of_le inside fits), stored⟩
        isTerm ?_ fun later larger settled built => ?_
      · intro T _ value bound tree met
        have keeps := (Demand.met_var isNamed).mp
          (met (Keep.demand ⟨place.index, word, .var name⟩)
            (List.mem_append_right _ (List.mem_map_of_mem member)))
        rw [Term.takes_var isNamed]
        exact ⟨fun denotes => denotes.unique keeps, fun same => same ▸ keeps⟩
      · exact next later larger named [] (.unchanged arranged settled) .nil
          built
  | @constant _ functor id decided known =>
      refine @writeKnown _ _ _ _ _ _ _ (.constant id) _ _ _ _ _ _ _ _ _ _
        (.constant id) holds ready builds rfl
        (Store.isTerm_constant _ _ _ id) ?_
        fun later larger settled built => ?_
      · intro T _ value bound tree _
        rw [Term.takes_constant decided known]
        simp only [Word.Denotes, Word.cell_constant]
      · exact next later larger named []
          (.unchanged arranged.withLabel.withLabel settled) .nil built
  | @nested _ functor args decided =>
      obtain ⟨notSubject, notCursor⟩ := Stage.apart ⟨arranged, ready⟩ works
      refine writeFresh holds ready builds fits arranged.ne_next notSubject
        notCursor fun later larger word settled built => ?_
      exact next later larger named [⟨draft.nextLocal.index, word, term⟩]
        ⟨arranged.withLocal decided word, settled.queued⟩
        (.cons ⟨rfl, decided⟩ .nil) built

/-- The code that writes all arguments, from left to right. -/
theorem writeSlots {terms : List Term} {slots : List Slot}
    (planned : Slot.PlannedAll scene.naming draft terms slots after)
    (holds : scene.Holds position (slots.flatMap Pattern.writeSlot))
    (fits : after.assembler.locals ≤ scene.count)
    (works : draft.working = some (subject, cursor))
    (stage : scene.Stage draft view cells named queue
      (⟨content, .builds symbol base count terms⟩ :: waiting))
    (builds : scene.Builds view cells subject cursor root pointer content own
      symbol base count)
    (next : ∀ later larger others added,
      scene.Stage after later larger others (queue ++ added)
        (⟨content, .builds symbol base (count + terms.length) []⟩ ::
          waiting) →
      List.Forall₂ Keep.Serves added (ClauseM.postponed slots) →
      scene.Builds later larger subject cursor root pointer content own symbol
        base (count + terms.length) →
      scene.Ensures (position + textSize (slots.flatMap Pattern.writeSlot))
        later) :
    scene.Ensures position view := by
  induction planned generalizing position view cells named queue count with
  | nil =>
      exact next view cells named [] (.unchanged stage.arranged stage.ready) .nil
        builds
  | @cons draft term slot middle rest slots after first others ih =>
      rw [List.flatMap_cons, holds_append] at holds
      rw [List.flatMap_cons, textSize_append, ← Nat.add_assoc] at next
      have upto := others.reserves.locals
      refine writeSlot first holds.1 (Nat.le_trans upto fits) works stage
        builds fun later larger more added reached serves built => ?_
      refine ih holds.2 fits (first.working_eq.trans works) reached built
        fun final all last extra ending serving done => ?_
      rw [List.append_assoc] at ending
      rw [Nat.add_right_comm, Nat.add_assoc] at ending done
      refine next final all last (added ++ extra) ending ?_ done
      rw [ClauseM.postponed_cons]
      exact List.rel_append serves serving

/-- The code that builds a compound and binds the subject to it. -/
theorem writeCompound {functor : Option Functor} {id : Option FunctorId}
    {args : List Term} {slots : List Slot}
    (planned : Slot.PlannedAll scene.naming draft args slots after)
    (holds : scene.Holds position
      (Pattern.writeCompound subject cursor id slots))
    (fits : after.assembler.locals ≤ scene.count)
    (works : draft.working = some (subject, cursor))
    (stage : scene.Stage draft view cells named queue
      (⟨content, .takes term⟩ :: waiting))
    (decided : Shape.of term = .ok (.compound functor args))
    (numbered : functor.map scene.naming.number? = id.map some)
    (there : view.locals[subject.index]? = some (.address root))
    (isRoot : view.memory.RootAt cells root content)
    (isFree : content.cell = .reference root)
    (next : ∀ later larger others added,
      scene.Stage after later larger others (queue ++ added) waiting →
      List.Forall₂ Keep.Serves added (ClauseM.postponed slots) →
      scene.Ensures
        (position + textSize (Pattern.writeCompound subject cursor id slots))
        later) :
    scene.Ensures position view := by
  have split : Pattern.writeCompound subject cursor id slots =
      Pattern.openCompound cursor id ++ (slots.flatMap Pattern.writeSlot ++
        [Item.onLocal .loadLocal subject, Item.onLocal .loadLocal cursor,
          .plain .bind]) := by
    rw [← List.append_assoc]
    rfl
  rw [split, holds_append, holds_append] at holds
  rw [split, textSize_append, textSize_append, ← Nat.add_assoc,
    ← Nat.add_assoc] at next
  obtain ⟨isSubject, isCursor, different, -⟩ :=
    stage.arranged.lays.working _ _ works
  have upto := Nat.le_trans planned.reserves.locals fits
  have full := Shape.length_of decided
  refine openCompound holds.1 stage.ready decided numbered there isRoot isFree
    (Nat.lt_of_lt_of_le isCursor upto) different.symm
    (stage.arranged.ne_cursor works) fun opened pointer own base ready builds =>
      ?_
  refine writeSlots planned holds.2.1 fits works ⟨stage.arranged, ready⟩ builds
    fun later larger others added reached serves built => ?_
  rw [Nat.zero_add, full] at reached built
  refine bindCompound holds.2.2 reached.ready built
    (Nat.lt_of_lt_of_le isSubject upto) (Nat.lt_of_lt_of_le isCursor upto)
    fun largest memory bound => ?_
  exact next _ _ others added ⟨reached.arranged, bound⟩ serves

end Scene

end LogicMachine
