import LogicMachine.Proofs.Matching.Reporting

/-!
# The end of a head

At the end of a head the slots of its variables keep words for their trees and
nothing waits any longer.  The trees that the machine has for the cells and the
variables are then those of the solutions of the equations between the words of
the arguments and the terms of the head.
-/

namespace LogicMachine

/-- The equations between words and the arguments of a head. -/
def Situation.ofCall (memory : Store) (cells : Set Address)
    (words : List Word) (head : Goal) : Situation :=
  ⟨memory, cells, Demand.each words head.args⟩

namespace Machine

section Binds

variable {T : Type} [TreeAlgebra T]

/-- The word in a slot calls for a tree. -/
def SlotDenotes (table : FunctorTable) (machine : Machine)
    (value : Address → T) (slot : Local) (tree : T) : Prop :=
  ∃ address word, machine.slot slot.index.toUInt32 = .ok address ∧
    machine.store.load address = .ok word ∧
    word.Denotes table machine.store.memory value tree

/-- Trees for the cells and for the variables that have got slots. -/
structure Binds (table : FunctorTable) (draft : Draft) (cells : Set Address)
    (machine : Machine) (value : Address → T) (bound : String → T) :
    Prop where
  respects : machine.store.memory.Respects table cells value
  denotes : ∀ name slot, draft.slots.lookup name = some slot →
    machine.SlotDenotes table value slot (bound name)

end Binds

/-- The equations are solved: the trees that the machine has for the cells and
the variables are those of the solutions. -/
structure Solved (table : FunctorTable) (naming : Naming) (start : Situation)
    (draft : Draft) (cells : Set Address) (machine : Machine) : Prop where
  more : start.cells ⊆ cells
  terms : machine.store.memory.Terms table cells
  binds : ∀ (T : Type) [TreeAlgebra T] (value : Address → T),
    machine.store.memory.Respects table cells value →
    ∃ bound, machine.Binds table draft cells value bound
  sound : ∀ (T : Type) [TreeAlgebra T] (value : Address → T)
    (bound : String → T), machine.Binds table draft cells value bound →
    start.Solves table naming value bound
  complete : ∀ (T : Type) [TreeAlgebra T] (known : Address → T)
    (bound : String → T), start.Solves table naming known bound →
    ∃ value : Address → T, machine.Binds table draft cells value bound ∧
      ∀ address ∈ start.cells, value address = known address

/-- The machine has unified the words of the arguments with the head. -/
structure Unifies (machine : Machine) (start : Situation) (draft : Draft)
    (final : Machine) : Prop where
  program : final.program =
    { machine.program with journal := final.program.journal }
  solved : ∃ cells, final.Solved machine.program.functors
    machine.program.naming start draft cells
  solvable : ∃ (value : Address → Tree) (bound : String → Tree),
    start.Solves machine.program.functors machine.program.naming value bound
  /-- The trees may be infinite only if a term has become cyclic. -/
  finite : ¬ final.store.memory.Cyclic machine.program.functors →
    ∃ (value : Address → FiniteTree) (bound : String → FiniteTree),
      start.Solves machine.program.functors machine.program.naming value bound

theorem Unifies.of_solved {machine final : Machine} {start : Situation}
    {draft : Draft} {cells : Set Address}
    (program : final.program =
      { machine.program with journal := final.program.journal })
    (solved : final.Solved machine.program.functors machine.program.naming
      start draft cells) : machine.Unifies start draft final where
  program := program
  solved := ⟨cells, solved⟩
  solvable := by
    have respects := solved.terms.toWellFormed.termCells.unfolding_respects
      fun _ => 0
    obtain ⟨bound, binds⟩ := solved.binds Tree _ respects
    exact ⟨_, bound, solved.sound Tree _ bound binds⟩
  finite := by
    intro straight
    have valued : ∃ value : Address → FiniteTree,
        final.store.memory.Respects machine.program.functors cells value := by
      by_contra none
      exact straight ⟨cells, solved.terms.toClosed, not_exists.mp none⟩
    obtain ⟨value, respects⟩ := valued
    obtain ⟨bound, binds⟩ := solved.binds FiniteTree value respects
    exact ⟨value, bound, solved.sound FiniteTree value bound binds⟩

end Machine

/-! ## The end of a head -/

namespace Shows

variable {context : Context} {position : Nat} {view : View}
  {machine : Machine}

theorem slot_load (shown : Shows context position view machine) {index : Nat}
    {operand : Operand} (small : index < 2 ^ 31)
    (found : view.locals[index]? = some operand) :
    ∃ address, machine.slot index.toUInt32 = .ok address ∧
      machine.store.load address = .ok operand.toWord := by
  have read := shown.localAddress_ends index.toUInt32
  rw [MachineM.localAddress, MachineM.ends_read, View.toNat_toUInt32 small]
    at read
  refine ⟨view.slot index, ?_, shown.load_eq (.inr ⟨_, rfl,
    View.frame_slot found⟩)⟩
  cases result : machine.slot index.toUInt32 with
  | ok address =>
      rw [result] at read
      rw [read.1]
  | error fault =>
      rw [result] at read
      exact read.elim

end Shows

namespace Scene

variable {scene : Scene} {view : View} {cells : Set Address}
  {named : List Keep} {draft : Draft} {position : Nat} {machine : Machine}

theorem Stage.slotDenotes_iff
    (stage : scene.Stage draft view cells named [] [])
    (shown : Shows scene.context position view machine)
    (fits : draft.assembler.locals ≤ scene.count) {keep : Keep}
    (member : keep ∈ named) {T : Type} [TreeAlgebra T] {value : Address → T}
    {tree : T} :
    machine.SlotDenotes scene.table value ⟨keep.place⟩ tree ↔
      keep.word.Denotes scene.table view.memory value tree := by
  have inside := Nat.lt_of_lt_of_le (stage.arranged.inside
    (List.mem_append_left _ member)) fits
  obtain ⟨stored, -⟩ := stage.ready.stored keep (List.mem_append_left _ member)
  obtain ⟨address, isSlot, found⟩ := shown.slot_load (small inside) stored
  rw [← shown.memory]
  constructor
  · rintro ⟨other, word, isOther, loaded, denotes⟩
    rw [isSlot] at isOther
    cases isOther
    rw [found] at loaded
    cases loaded
    exact denotes
  · exact fun denotes => ⟨address, keep.word, isSlot, found, denotes⟩

/-- The slots of the variables say what is left of the demands. -/
theorem Stage.binds_iff
    (stage : scene.Stage draft view cells named [] [])
    (shown : Shows scene.context position view machine)
    (fits : draft.assembler.locals ≤ scene.count) {T : Type} [TreeAlgebra T]
    {value : Address → T} {bound : String → T} :
    machine.Binds scene.table draft cells value bound ↔
      Situation.Solves scene.table scene.naming
        ⟨view.memory, cells, [] ++ (named ++ []).map Keep.demand⟩ value
        bound := by
  constructor
  · rintro ⟨respects, denotes⟩
    refine ⟨shown.memory ▸ respects, fun demand member => ?_⟩
    rw [List.nil_append, List.append_nil] at member
    obtain ⟨keep, kept, rfl⟩ := List.mem_map.mp member
    obtain ⟨name, isVariable, isNamed, found⟩ :=
      stage.arranged.areVariables keep kept
    have denoted := (stage.slotDenotes_iff shown fits kept).mp
      (denotes name _ found)
    rw [Keep.demand, isVariable]
    exact (Demand.met_var isNamed).mpr denoted
  · rintro ⟨respects, met⟩
    refine ⟨shown.memory ▸ respects, fun name slot found => ?_⟩
    obtain ⟨keep, member, same⟩ :=
      List.mem_map.mp (stage.arranged.lays.named name slot found)
    rw [List.append_nil] at member
    obtain ⟨other, isVariable, isNamed, -⟩ :=
      stage.arranged.areVariables keep member
    have isPlace : keep.place = slot.index := congrArg Prod.fst same
    have isName : keep.term = .var name := congrArg Prod.snd same
    rw [isName] at isVariable
    cases isVariable
    have meets := met keep.demand (by
      rw [List.nil_append, List.append_nil]
      exact List.mem_map_of_mem member)
    rw [Keep.demand, isName] at meets
    have denoted := (stage.slotDenotes_iff shown fits member).mpr
      ((Demand.met_var isNamed).mp meets)
    rw [isPlace] at denoted
    exact denoted

/-- Words of slots always call for some trees. -/
theorem Stage.binds (stage : scene.Stage draft view cells named [] [])
    (shown : Shows scene.context position view machine)
    (fits : draft.assembler.locals ≤ scene.count) {T : Type} [TreeAlgebra T]
    {value : Address → T}
    (respects : machine.store.memory.Respects scene.table cells value) :
    ∃ bound, machine.Binds scene.table draft cells value bound := by
  have each (name : String) : ∃ tree : T, ∀ slot,
      draft.slots.lookup name = some slot →
        machine.SlotDenotes scene.table value slot tree := by
    cases known : draft.slots.lookup name with
    | none => exact ⟨value (.heap 0), nofun⟩
    | some slot =>
        obtain ⟨keep, member, same⟩ :=
          List.mem_map.mp (stage.arranged.lays.named name slot known)
        rw [List.append_nil] at member
        have isPlace : keep.place = slot.index := congrArg Prod.fst same
        obtain ⟨-, isTerm⟩ :=
          stage.ready.stored keep (List.mem_append_left _ member)
        obtain ⟨tree, denotes⟩ := isTerm.formed.denotes value
        refine ⟨tree, ?_⟩
        rintro _ ⟨⟩
        have denoted := (stage.slotDenotes_iff shown fits member).mpr denotes
        rw [isPlace] at denoted
        exact denoted
  choose bound denotes using each
  exact ⟨bound, respects, denotes⟩

/-- At the end of the head the equations are solved. -/
theorem Stage.solved (stage : scene.Stage draft view cells named [] [])
    (shown : Shows scene.context position view machine)
    (fits : draft.assembler.locals ≤ scene.count) :
    machine.Solved scene.table scene.naming scene.start draft cells where
  more := stage.ready.refines.more
  terms := by
    rw [shown.memory]
    exact stage.ready.terms
  binds := fun _ _ _ respects => stage.binds shown fits respects
  sound := fun T _ value bound binds =>
    stage.ready.refines.sound T value bound
      ((stage.binds_iff shown fits).mp binds)
  complete := by
    intro T _ known bound solves
    obtain ⟨value, solved, same⟩ :=
      stage.ready.refines.complete T known bound solves
    exact ⟨value, (stage.binds_iff shown fits).mpr solved, same⟩

end Scene

end LogicMachine
