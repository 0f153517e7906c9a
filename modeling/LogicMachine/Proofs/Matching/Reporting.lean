import LogicMachine.Proofs.Code.Slots
import LogicMachine.Proofs.Matching.Patterns
import LogicMachine.Proofs.Reading.Steps
import LogicMachine.Proofs.Unification.Assignment

/-!
# Reports of entry

A clause may report its entry, with its arguments in their written form.  Cells
that form no term are written as what is wrong with them, so only a crash could
keep the report from being made.  Reading cells of terms back never crashes:
every compound has its arguments in cells.
-/

namespace LogicMachine

/-! ## Reading back -/

/-- The fault is one that can be caught. -/
def Fault.IsCaught (fault : Fault) : Prop :=
  ∀ cause, fault ≠ .crash cause

theorem Fault.exists_recover {α : Type} (instead : Fault → α)
    {result : Except Fault α}
    (caught : ∀ fault, result = .error fault → fault.IsCaught) :
    ∃ value, recover instead result = .ok value := by
  cases result with
  | ok value => exact ⟨value, rfl⟩
  | error fault =>
      have isCaught := caught fault rfl
      cases fault with
      | crash cause => exact absurd rfl (isCaught cause)
      | _ => exact ⟨_, rfl⟩

namespace Store

variable {table : FunctorTable} {store : Store} {cells : Set Address}
  {address : Address}

theorem enter_tasks (state : ReadState) (key : Address) (name : String)
    (parts : List Address) :
    ∃ later, enter state key name (.ok parts) = .ok later ∧
      (later.tasks = state.tasks ∨
        later.tasks = parts.map .visit ++
          .assemble key name parts.length :: state.tasks) := by
  unfold enter
  split
  · exact ⟨_, rfl, .inl rfl⟩
  · split
    · exact ⟨_, rfl, .inl rfl⟩
    case h_2 failed => cases failed
    case h_3 listed =>
      cases listed
      exact ⟨_, rfl, .inr rfl⟩

/-- Visiting a cell of a term leads to other cells of terms, if to any. -/
theorem TermCells.visit_within (terms : store.TermCells table cells)
    (inside : address ∈ cells) {state : ReadState}
    (within : state.Within cells) :
    (∃ later, visit table store address state = .ok later ∧
      later.Within cells) ∨
    ∃ fault, visit table store address state = .error fault ∧
      fault.IsCaught := by
  have entered (key : Address) (name : String) {parts : List Address}
      (partsInside : ∀ part ∈ parts, part ∈ cells) :
      ∃ later, enter state key name (.ok parts) = .ok later ∧
        later.Within cells := by
    obtain ⟨later, isLater, tasks⟩ := enter_tasks state key name parts
    refine ⟨later, isLater, fun other member => ?_⟩
    rcases tasks with same | more
    · exact within other (same ▸ member)
    · rw [more, List.mem_append, List.mem_cons] at member
      rcases member with part | same | old
      · obtain ⟨_, listed, same⟩ := List.mem_map.mp part
        cases same
        exact partsInside other listed
      · cases same
      · exact within other old
  obtain ⟨root, leads⟩ := terms.acyclic address inside
  obtain ⟨word, found, -⟩ := leads.root
  have member := leads.mem terms.references inside
  have formed := terms.word_formed member found
  simp only [visit, leads.deref_eq, found, bind, Except.bind]
  cases decoded : word.cell with
  | reference next => exact .inl ⟨_, rfl, within⟩
  | constant id =>
      simp only [FunctorTable.functor]
      cases table.get? id with
      | some functor => exact .inl ⟨_, rfl, within⟩
      | none => exact .inr ⟨_, rfl, fun _ same => by cases same⟩
  | compound header =>
      simp only [Word.Formed, decoded] at formed
      obtain ⟨-, functor, known, arguments⟩ := formed
      simp only [known, terms.arguments_eq known arguments]
      refine .inl (entered header functor.name ?_)
      intro part listed
      obtain ⟨index, below, rfl⟩ := List.mem_map.mp listed
      exact arguments index (List.mem_range.mp below)
  | list pair =>
      simp only [Word.Formed, decoded] at formed
      simp only [terms.shift_one formed.1]
      refine .inl (entered pair Term.listFunctor ?_)
      intro part listed
      rcases List.mem_cons.mp listed with rfl | last
      · exact formed.1
      · cases List.mem_singleton.mp last
        exact formed.2
  | functor id => simp [Word.Formed, decoded] at formed
  | other payload => exact .inr ⟨_, rfl, fun _ same => by cases same⟩

theorem TermCells.readAll_caught (terms : store.TermCells table cells)
    {steps : Nat} {state : ReadState} (within : state.Within cells)
    {fault : Fault} (failed : readAll table store steps state = .error fault) :
    fault.IsCaught := by
  induction steps generalizing state with
  | zero =>
      cases failed
      nofun
  | succ steps ih =>
      unfold readAll at failed
      split at failed
      · split at failed
        · cases failed
        · cases failed
          nofun
      case h_2 address rest next =>
        have others : ReadState.Within { state with tasks := rest } cells :=
          fun other member => within other (by
            rw [next]
            exact List.mem_cons_of_mem _ member)
        have inside := within address (by
          rw [next]
          exact List.mem_cons_self)
        rcases terms.visit_within inside others with
          ⟨later, visited, still⟩ | ⟨other, visited, isCaught⟩
        · rw [visited] at failed
          exact ih still failed
        · rw [visited] at failed
          cases failed
          exact isCaught
      case h_3 next =>
        refine ih ?_ failed
        intro other member
        apply within other
        rw [next]
        exact List.mem_cons_of_mem _ member

theorem TermCells.readBack_caught (terms : store.TermCells table cells)
    (inside : address ∈ cells) {fault : Fault}
    (failed : store.readBack table address = .error fault) :
    fault.IsCaught := by
  refine terms.readAll_caught ?_ failed
  intro other member
  cases List.mem_singleton.mp member
  exact inside

end Store

/-! ## The report -/

namespace Machine

variable {machine : Machine} {cells : Set Address}

theorem exists_renderArgument
    (terms : machine.store.TermCells machine.program.functors cells)
    {index : UInt32} {address : Address}
    (found : machine.argument index = .ok address) (inside : address ∈ cells) :
    ∃ text, machine.renderArgument index = .ok text := by
  simp only [renderArgument, found, bind, Except.bind]
  apply Fault.exists_recover
  intro fault failed
  cases read : machine.store.readBack machine.program.functors address with
  | ok term =>
      rw [read] at failed
      cases failed
  | error other =>
      rw [read] at failed
      cases failed
      exact terms.readBack_caught inside read

/-- The report of a clause whose arguments are terms is made. -/
theorem exists_traceEvent
    (terms : machine.store.TermCells machine.program.functors cells)
    {id : FunctorId} {functor : Functor}
    (known : machine.program.functors.get? id = some functor)
    (arguments : ∀ index < functor.arity, ∃ address,
      machine.argument index.toUInt32 = .ok address ∧ address ∈ cells)
    (passage : Passage) :
    ∃ event, machine.traceEvent id passage = .ok event := by
  have each : ∃ texts, (List.range functor.arity).mapM (fun index =>
      machine.renderArgument index.toUInt32) = .ok texts := by
    have below : ∀ index ∈ List.range functor.arity, index < functor.arity :=
      fun _ => List.mem_range.mp
    generalize List.range functor.arity = indices at below
    induction indices with
    | nil => exact ⟨[], rfl⟩
    | cons index rest ih =>
        obtain ⟨address, found, inside⟩ :=
          arguments index (below index List.mem_cons_self)
        obtain ⟨text, rendered⟩ := exists_renderArgument terms found inside
        obtain ⟨texts, others⟩ := ih fun other member =>
          below other (List.mem_cons_of_mem _ member)
        refine ⟨text :: texts, ?_⟩
        rw [List.mapM_cons, rendered]
        simp only [bind, Except.bind, others]
        rfl
  obtain ⟨texts, rendered⟩ := each
  simp only [traceEvent, known, Option.map_some, Option.getD_some, rendered,
    bind, Except.bind]
  exact ⟨_, rfl⟩

end Machine

namespace Scene

variable {scene : Scene} {view : View} {cells : Set Address}
  {kept : List Keep} {waiting : List Demand} {position : Nat}

theorem Offers.argument_eq {words : List Word} (offers : scene.Offers 0 words)
    (ready : scene.Ready view cells kept waiting)
    (areTerms : ∀ word ∈ words, word.IsTerm scene.table view.memory cells)
    {machine : Machine} (shown : Shows scene.context position view machine)
    {index : Nat} (below : index < words.length) :
    ∃ address, machine.argument index.toUInt32 = .ok address ∧
      address ∈ cells ∪ view.termSlots scene.table cells := by
  obtain ⟨inside, found⟩ := offers index _ (List.getElem?_eq_getElem below)
  rw [Nat.zero_add, ← ready.below] at inside found
  have limit := shown.stacked.small shown.addressable
  simp only [View.stack, View.frame, List.length_append] at limit
  have few : index < 2 ^ 31 := by omega
  have finds : (Source.argument index).Finds scene.table view cells
      (view.argument index) words[index] :=
    .argument inside few found (areTerms _ (List.getElem_mem below))
  have read := @Shows.argument_ends _ _ _ _ shown index.toUInt32
    (by rwa [View.toNat_toUInt32 few])
  rw [MachineM.argument, MachineM.ends_read, View.toNat_toUInt32 few] at read
  refine ⟨view.argument index, ?_, (shown.site finds.subject).inside⟩
  cases result : machine.argument index.toUInt32 with
  | ok address =>
      rw [result] at read
      rw [read.1]
  | error fault =>
      rw [result] at read
      exact read.elim

/-- Reporting the entry of the clause changes nothing but what is reported. -/
theorem report {traced : Option FunctorId} {words : List Word}
    (holds : scene.Holds position (reportText .trace traced))
    (ready : scene.Ready view cells kept waiting)
    (known : ∀ id, traced = some id → ∃ functor,
      scene.table.get? id = some functor ∧ functor.arity = words.length)
    (offers : scene.Offers 0 words)
    (areTerms : ∀ word ∈ words, word.IsTerm scene.table view.memory cells)
    (next : scene.Ensures
      (position + textSize (reportText .trace traced)) view) :
    scene.Ensures position view := by
  cases traced with
  | none => exact next
  | some id =>
      obtain ⟨functor, found, arity⟩ := known id rfl
      refine Context.Ensures.quiet scene.closes
        (holds.lt (Nat.zero_lt_succ _)) id.index holds.1.1 holds.1.2.1 rfl
        fun machine shown => ?_
      simp only [MachineM.perform, MachineM.reportTrace, ends_bind, ends_get]
      split
      case isFalse => exact next machine shown
      case isTrue =>
        have terms := ready.terms
        rw [← shown.memory] at terms
        have wellFormed := terms.wellFormed_with shown.stack_bounds.1
          (shown.holding scene.table cells)
        have functors : machine.program.functors = scene.table :=
          shown.functors
        rw [← functors] at wellFormed found
        obtain ⟨event, reported⟩ := Machine.exists_traceEvent
          wellFormed.termCells found
          (fun index below => by
            rw [functors]
            exact offers.argument_eq ready areTerms shown (arity ▸ below))
          .enter
        have same : machine.registers = { machine.registers with
            instruction :=
              .code (Int32.ofNat (position + Opcode.trace.size)) } := by
          rw [← shown.instruction]
        simp only [ends_bind, MachineM.ends_read]
        rw [show (⟨id.index⟩ : FunctorId) = id from rfl, reported]
        have later := shown.jumped (position + Opcode.trace.size)
          (machine.program.journal.add event)
        rw [← same] at later
        exact next _ later

end Scene

end LogicMachine
