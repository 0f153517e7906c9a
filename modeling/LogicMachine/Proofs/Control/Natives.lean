import LogicMachine.Proofs.Control.Activity
import LogicMachine.Session.Library

/-!
# Native predicates at work

Apart from the cut and from calling a goal, a built-in native predicate works on
terms only: it leaves the registers and the stack alone and keeps the memory
plain.  So does everything that it collects.
-/

namespace LogicMachine

/-- The number of arguments of a built-in native predicate. -/
def Builtin.arity : Builtin → Nat
  | .callGoal | .level | .cut | .number | .collect | .collectEnd => 1
  | .evaluate | .copyTerm | .compare _ => 2
  | .plus => 3
  | .collectBegin => 0

theorem Library.arity_of_native {functor : Functor} {builtin : Builtin}
    (known : .native functor builtin ∈ natives) :
    functor.arity = builtin.arity := by
  have each : ∀ definition ∈ natives, ∀ functor builtin,
      definition = .native functor builtin →
        functor.arity = builtin.arity := by
    simp [natives, Builtin.arity]
  exact each _ known functor builtin rfl

variable [Atoms]

namespace Machine

/-- Everything that has been collected is plain. -/
def Collects (machine : Machine) : Prop :=
  ∀ words ∈ machine.collectors, ∀ word ∈ words, word.Plain

/-- The later machine comes from the earlier one by working on terms. -/
structure Onward (before after : Machine) : Prop where
  store : before.store.Onward after.store
  registers : after.registers = before.registers
  collected : after.Collects

/-- The first arguments of the current clause are terms. -/
def HasTerms (machine : Machine) (arity : Nat) : Prop :=
  ∀ index : UInt32, index.toNat < arity → ∀ address,
    machine.argument index = .ok address → machine.store.Spot address

theorem Onward.refl {machine : Machine} (tidy : machine.store.Tidy)
    (collects : machine.Collects) : machine.Onward machine :=
  ⟨.refl tidy, rfl, collects⟩

theorem Onward.spot {before machine : Machine}
    (onward : before.Onward machine) {address : Address}
    (spot : before.store.Spot address) : machine.store.Spot address :=
  spot.of_stack onward.store.stack

end Machine

namespace MachineM

variable {before machine : Machine} {arity : Nat}

/-- Working on terms without numbering functors, with something known about the
result. -/
abbrev Minds (before : Machine) (program : Program)
    (result : EStateM.Result Fault Machine α) (found : α → Prop) : Prop :=
  Ends result
    (fun value after => (before.Onward after ∧ after.program = program) ∧
      found value)
    (fun _ after => before.Onward after ∧ after.program = program)

variable {program : Program}

theorem Minds.bind {action : MachineM β} {next : β → MachineM α}
    {found : β → Prop} {result : α → Prop}
    (first : Minds before program (action machine) found)
    (second : ∀ value later, before.Onward later → later.program = program →
      found value → Minds before program (next value later) result) :
    Minds before program ((action >>= next) machine) result := by
  rw [Minds, ends_bind]
  exact first.imp (fun value later holds =>
    second value later holds.1.1 holds.1.2 holds.2) fun _ _ => id

theorem onStore_minds (onward : before.Onward machine)
    {action : FunctorTable → StoreM α} {found : α → Prop}
    (works : Ends (action machine.program.functors machine.store)
      (fun value store => before.store.Onward store ∧ found value)
      (fun _ => before.store.Onward)) :
    Minds before machine.program (onStore action machine) found := by
  rw [Minds, ends_onStore]
  refine works.imp ?_ ?_
  · rintro value store ⟨later, holds⟩
    exact ⟨⟨⟨later, onward.registers, onward.collected⟩, rfl⟩, holds⟩
  · exact fun _ store later =>
      ⟨⟨later, onward.registers, onward.collected⟩, rfl⟩

theorem unify_minds (onward : before.Onward machine) (fuel : Nat)
    {left right : Address} (leftSpot : machine.store.Spot left)
    (rightSpot : machine.store.Spot right) :
    Minds before machine.program (unify fuel left right machine)
      (fun _ => True) := by
  refine onStore_minds onward ?_
  exact (StoreM.unify_onward onward.store.tidy _ fuel leftSpot rightSpot).imp
    (fun _ _ later => ⟨onward.store.trans later, trivial⟩)
    fun _ _ later => onward.store.trans later

theorem pushCells_minds (onward : before.Onward machine) (region : Region)
    {words : List Word} (plain : ∀ word ∈ words, word.Plain) :
    Minds before machine.program (pushCells region words machine)
      (fun start => start.pack.Plain) :=
  onStore_minds onward (StoreM.pushCells_onward onward.store region plain)

theorem copyTerm_minds (onward : before.Onward machine) {root : Word}
    (plain : root.Plain) (region : Region) (mode : CopyMode) :
    Minds before machine.program (copyTerm root region mode machine)
      Word.Plain :=
  onStore_minds onward (StoreM.copyTerm_onward onward.store _ plain region mode)

theorem unifyWord_minds (onward : before.Onward machine) (fuel : Nat)
    (region : Region) {address : Address} (spot : before.store.Spot address)
    {value : Word} (plain : value.Plain) :
    Minds before machine.program (unifyWord fuel region address value machine)
      (fun _ => True) := by
  refine (pushCells_minds onward region (by simpa using plain)).bind ?_
  intro cell later onward same plainCell
  have offStack : cell.OffStack := by
    have kept := plainCell.offStack
    rwa [Address.address_pack] at kept
  rw [← same]
  exact unify_minds onward fuel (onward.spot spot) (.inl offStack)

theorem retainedList_minds (onward : before.Onward machine) {ending : Word}
    (plain : ending.Plain) {words : List Word}
    (allPlain : ∀ word ∈ words, word.Plain) :
    Minds before machine.program (retainedList ending words machine)
      Word.Plain := by
  induction words generalizing ending machine with
  | nil => exact ⟨⟨onward, rfl⟩, plain⟩
  | cons word rest ih =>
      have both : ∀ other ∈ [word, ending], other.Plain := by
        simpa using ⟨allPlain word List.mem_cons_self, plain⟩
      refine (pushCells_minds onward .retained both).bind ?_
      intro pair later onward same plainPair
      rw [← same]
      exact ih onward (Cell.plain_tagged (by decide) plainPair) fun other member =>
        allPlain other (List.mem_cons_of_mem _ member)

/-! ## Atoms for numbers -/

/-- A constant that is in the table of functors at the end, and not before, has
the number of an atom. -/
def Spells (program : Program) (result : EStateM.Result Fault Machine α) :
    Prop :=
  let named (name : String) (after : Machine) : Prop :=
    after.program.functors = (program.functors.intern (.constant name)).2 →
      Atoms.includes (program.functors.intern (.constant name)).1
  ∀ name, Ends result (fun _ => named name) (fun _ => named name)

/-- Working on terms, provided that the constants that are numbered are
atoms. -/
def Works (before machine : Machine)
    (result : EStateM.Result Fault Machine α) : Prop :=
  Spells machine.program result →
    Ends result (fun _ => before.Onward) (fun _ => before.Onward)

theorem Minds.works {result : EStateM.Result Fault Machine α}
    {found : α → Prop} (minds : Minds before program result found) :
    Works before machine result :=
  fun _ => minds.imp (fun _ _ holds => holds.1.1) fun _ _ holds => holds.1

theorem Works.pure (onward : before.Onward machine) (value : α) :
    Works before machine ((Pure.pure value : MachineM α) machine) :=
  fun _ => onward

theorem Works.read (onward : before.Onward machine)
    {query : Machine → Except Fault β} {next : β → MachineM α}
    (holds : ∀ value, query machine = .ok value →
      Works before machine (next value machine)) :
    Works before machine ((MachineM.read query >>= next) machine) := by
  intro spells
  simp only [Spells, ends_bind, ends_read] at spells ⊢
  split
  case h_1 value found =>
    simp only [found] at spells
    exact holds value found spells
  case h_2 => exact onward

theorem Works.argument (onward : before.Onward machine)
    (terms : before.HasTerms arity) {index : UInt32}
    (inside : index.toNat < arity) {next : Address → MachineM α}
    (holds : ∀ address, before.store.Spot address →
      Works before machine (next address machine)) :
    Works before machine ((MachineM.argument index >>= next) machine) := by
  refine .read onward fun address found =>
    holds address (terms index inside address ?_)
  rw [← found, Machine.argument, Machine.argument, onward.registers]

theorem Works.load (onward : before.Onward machine) {address : Address}
    (spot : before.store.Spot address) {next : Word → MachineM α}
    (holds : ∀ word, word.Plain → Works before machine (next word machine)) :
    Works before machine ((MachineM.load address >>= next) machine) :=
  .read onward fun word found =>
    holds word ((onward.spot spot).plain onward.store.tidy found)

/-- Nothing is numbered after the constant, so it is in the table at the end. -/
theorem Works.intern (onward : before.Onward machine) (name : String)
    {next : FunctorId → MachineM α}
    (keeps : ∀ id program, Keeps (fun after => after.program = program)
      (next id))
    (holds : ∀ id later, before.Onward later → Atoms.includes id →
      Minds before later.program (next id later) (fun _ => True)) :
    Works before machine
      ((onProgram (ProgramM.intern (.constant name)) >>= next) machine) := by
  intro spells
  have named := spells name
  rw [ends_bind, ends_onProgram] at named ⊢
  let later : Machine := { machine with
    program := { machine.program with
      functors := (machine.program.functors.intern (.constant name)).2 } }
  have isAtom : Atoms.includes
      (machine.program.functors.intern (.constant name)).1 := by
    have both := (keeps _ later.program later rfl).and named
    revert both
    generalize next _ later = result
    cases result with
    | ok value after => exact fun both => both.2 (by rw [both.1])
    | error fault after => exact fun both => both.2 (by rw [both.1])
  exact (holds _ later ⟨onward.store, onward.registers, onward.collected⟩
    isAtom).imp (fun _ _ both => both.1.1) fun _ _ both => both.1

omit [Atoms] in
/-- Nothing is numbered in the store. -/
theorem onStore_program (action : FunctorTable → StoreM α) (program : Program) :
    Keeps (fun machine => machine.program = program) (onStore action) := by
  intro machine same
  rw [ends_onStore]
  cases action machine.program.functors machine.store <;> exact same

omit [Atoms] in
theorem argument_program (index : UInt32) (program : Program) :
    Keeps (fun machine => machine.program = program) (argument index) := by
  intro machine same
  rw [argument, ends_read]
  split <;> exact same

omit [Atoms] in
theorem unifyWord_program (fuel : Nat) (region : Region) (address : Address)
    (value : Word) (program : Program) :
    Keeps (fun machine => machine.program = program)
      (unifyWord fuel region address value) :=
  (onStore_program _ program).bind fun _ => onStore_program _ program

omit [Atoms] in
theorem retainedList_program (ending : Word) (words : List Word)
    (program : Program) :
    Keeps (fun machine => machine.program = program)
      (retainedList ending words) := by
  induction words generalizing ending with
  | nil => exact Keeps.pure ending
  | cons word rest ih => exact (onStore_program _ program).bind fun _ => ih _

theorem unifyInteger_works (onward : before.Onward machine) (fuel : Nat)
    {address : Address} (spot : before.store.Spot address)
    (value : Option Int) :
    Works before machine (unifyInteger fuel address value machine) := by
  cases value with
  | none => exact .pure onward false
  | some value =>
      have spelled : unifyInteger fuel address (some value) =
          onProgram (ProgramM.intern (.constant (toString value))) >>= fun id =>
            unifyWord fuel .heap address (.constant id) := by
        simp only [unifyInteger, integerWord, bind_assoc, pure_bind]
      rw [spelled]
      refine .intern onward _ (fun _ => unifyWord_program _ _ _ _) ?_
      exact fun id later onward isAtom =>
        unifyWord_minds onward fuel .heap spot (Word.plain_constant isAtom)

/-! ## The native predicates -/

theorem plus_works (onward : before.Onward machine) (fuel : Nat)
    (terms : before.HasTerms 3) : Works before machine (plus fuel machine) := by
  refine .argument onward terms (by decide) fun first firstSpot => ?_
  refine .argument onward terms (by decide) fun second secondSpot => ?_
  refine .argument onward terms (by decide) fun sum sumSpot => ?_
  refine .read onward fun left _ => .read onward fun right _ =>
    .read onward fun total _ => ?_
  cases left <;> cases right <;> cases total
  all_goals first
    | exact .pure onward false
    | exact unifyInteger_works onward fuel sumSpot _
    | exact unifyInteger_works onward fuel secondSpot _
    | exact unifyInteger_works onward fuel firstSpot _

theorem compare_works (onward : before.Onward machine)
    (comparison : Comparison) (terms : before.HasTerms 2) :
    Works before machine (compare comparison machine) := by
  refine .argument onward terms (by decide) fun first _ => ?_
  refine .argument onward terms (by decide) fun second _ => ?_
  refine .read onward fun left _ => .read onward fun right _ => ?_
  cases left <;> cases right <;> exact .pure onward _

theorem collect_onward (onward : before.Onward machine) {word : Word}
    (plain : word.Plain) :
    Ends (collect word machine) (fun _ => before.Onward)
      (fun _ => before.Onward) := by
  simp only [collect, ends_modifyGet]
  have collected := onward.collected
  unfold Machine.Collects at collected
  split
  case h_1 => exact onward
  case h_2 innermost rest same =>
    rw [same] at collected
    refine ⟨onward.store, onward.registers, ?_⟩
    intro words member
    rcases List.mem_cons.mp member with rfl | older
    · intro other inside
      rcases List.mem_cons.mp inside with rfl | old
      · exact plain
      · exact collected innermost List.mem_cons_self other old
    · exact collected words (List.mem_cons_of_mem _ older)

theorem Works.endCollect (onward : before.Onward machine)
    {next : Option (List Word) → MachineM α}
    (holds : ∀ found later, before.Onward later →
      (∀ words ∈ found, ∀ word ∈ words, word.Plain) →
      Works before later (next found later)) :
    Works before machine ((MachineM.endCollect >>= next) machine) := by
  intro spells
  simp only [Spells, ends_bind, MachineM.endCollect, ends_modifyGet]
    at spells ⊢
  have collected := onward.collected
  unfold Machine.Collects at collected
  cases same : machine.collectors with
  | nil =>
      simp only [same] at spells ⊢
      refine holds _ _ onward ?_ spells
      rintro _ ⟨⟩
  | cons innermost rest =>
      simp only [same] at spells ⊢
      rw [same] at collected
      refine holds _ _ ⟨onward.store, onward.registers, fun words member =>
        collected words (List.mem_cons_of_mem _ member)⟩ ?_ spells
      rintro _ ⟨⟩ word member
      exact collected innermost List.mem_cons_self word
        (List.mem_reverse.mp member)

theorem finishCollecting_works (onward : before.Onward machine) (fuel : Nat)
    (terms : before.HasTerms 1) :
    Works before machine (finishCollecting fuel machine) := by
  refine .endCollect onward fun found later onward plain => ?_
  cases found with
  | none => exact .pure onward false
  | some words =>
      refine .intern onward _ (fun id program => ?_) fun ending last onward
        isAtom => ?_
      · exact (retainedList_program _ _ program).bind fun list =>
          (argument_program 0 program).bind fun target =>
            unifyWord_program _ _ _ _ program
      · refine (retainedList_minds onward (Word.plain_constant isAtom) fun word
          member => plain words rfl word (List.mem_reverse.mp member)).bind ?_
        intro list final onward same plainList
        rw [Minds, ends_bind, MachineM.argument, ends_read]
        split
        case h_1 target found =>
          rw [← same]
          refine unifyWord_minds onward fuel .retained ?_ plainList
          refine terms 0 (by decide) target ?_
          rw [← found, Machine.argument, Machine.argument, onward.registers]
        case h_2 => exact ⟨onward, same⟩

/-- All built-in native predicates but two work on terms only. -/
theorem runBuiltin_works (onward : before.Onward machine) (fuel : Nat)
    {builtin : Builtin} (terms : before.HasTerms builtin.arity)
    (noCall : builtin ≠ .callGoal) (noCut : builtin ≠ .cut) :
    Works before machine (runBuiltin fuel builtin machine) := by
  cases builtin with
  | callGoal => exact absurd rfl noCall
  | cut => exact absurd rfl noCut
  | level =>
      refine .argument onward terms (by decide) fun target spot => ?_
      exact unifyInteger_works onward fuel spot (some machine.level)
  | number =>
      refine .argument onward terms (by decide) fun target _ => ?_
      exact .read onward fun _ _ => .pure onward _
  | evaluate =>
      refine .argument onward terms (by decide) fun target spot => ?_
      refine .argument onward terms (by decide) fun source _ => ?_
      exact .read onward fun _ _ => unifyInteger_works onward fuel spot _
  | plus => exact plus_works onward fuel terms
  | copyTerm =>
      refine .argument onward terms (by decide) fun source sourceSpot => ?_
      refine .argument onward terms (by decide) fun target targetSpot => ?_
      refine .load onward sourceSpot fun root plain => ?_
      have minds : Minds before machine.program ((do
          let copy ← MachineM.copyTerm root .heap .fresh
          unifyWord fuel .heap target copy) machine) (fun _ => True) := by
        refine (copyTerm_minds onward plain .heap .fresh).bind ?_
        intro copy later onward same plainCopy
        rw [← same]
        exact unifyWord_minds onward fuel .heap targetSpot plainCopy
      exact minds.works
  | compare comparison => exact compare_works onward comparison terms
  | collectBegin =>
      refine fun _ => ⟨onward.store, onward.registers, ?_⟩
      intro words member
      rcases List.mem_cons.mp member with rfl | older
      · rintro _ ⟨⟩
      · exact onward.collected words older
  | collect =>
      refine .argument onward terms (by decide) fun source spot => ?_
      refine .load onward spot fun root plain => ?_
      refine fun _ => ends_bind.mpr
        ((copyTerm_minds onward plain .retained .fresh).imp ?_ fun _ _ => And.left)
      rintro copy later ⟨⟨onward, -⟩, plainCopy⟩
      exact collect_onward onward plainCopy
  | collectEnd => exact finishCollecting_works onward fuel terms

end MachineM

end LogicMachine
