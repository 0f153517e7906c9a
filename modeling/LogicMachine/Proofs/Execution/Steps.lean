import LogicMachine.Proofs.Execution.View

/-!
# Following code on the view

A step executes the instruction at the position of the machine.  What most
instructions do can be told from the view alone, so straight code is followed on
the view.  The only fault that this meets is a segment that is full.
-/

namespace LogicMachine

/-! ## Words that are computed -/

theorem Address.withTag_pack (address : Address) (tag : Tag) :
    address.pack.withTag tag = Cell.tagged tag address := by
  apply Word.eq_of_toNat
  have small := address.segment_lt
  have bound := address.offset.toUInt32.toNat_lt
  have masked : (address.pack.bits &&& addressMask) = address.pack.bits := by
    apply UInt64.toNat_inj.mp
    rw [UInt64.toNat_and, show addressMask.toNat = 2 ^ 36 - 1 from rfl,
      Nat.and_two_pow_sub_one_eq_mod, Address.pack_toNat]
    apply Nat.mod_eq_of_lt
    omega
  rw [Word.withTag, masked]
  rfl

/-- The number of a functor with a tag put on it. -/
theorem Word.withTag_number (id : FunctorId) (tag : Tag) :
    (⟨id.index.toUInt64⟩ : Word).withTag tag =
      Cell.tagged tag (.blank id.index.toInt32) := by
  have same : (⟨id.index.toUInt64⟩ : Word) =
      (Address.blank id.index.toInt32).pack := by
    apply Word.eq_of_toNat
    rw [Address.pack_toNat]
    simp [Address.segment, Address.offset]
  rw [same, Address.withTag_pack]

/-- Counting up from an address inside a segment. -/
theorem Region.pack_add (region : Region) {index : Int32} {count : Nat}
    (nonnegative : 0 ≤ index) (small : count < 2 ^ 31) :
    (⟨count.toUInt64 + (region.address index).pack.bits⟩ : Word) =
      (region.address (index + Int32.ofNat count)).pack := by
  apply Word.eq_of_toNat
  have start := Int32.cast_toNatClampNeg index nonnegative
  have limit := Int32.toInt_lt index
  have low := Int32.toNat_toUInt32_of_le nonnegative
  have value : (index + Int32.ofNat count).toUInt32.toNat =
      index.toUInt32.toNat + count := by
    rw [Int32.toUInt32_add, UInt32.toNat_add, Int32.toUInt32_ofNat',
      UInt32.toNat_ofNat']
    omega
  have segment : (region.address (index + Int32.ofNat count)).segment =
      (region.address index).segment := by
    cases region <;> rfl
  have offset (place : Int32) : (region.address place).offset = place := by
    cases region <;> rfl
  have few := (region.address index).segment_lt
  rw [Address.pack_toNat, segment, offset, value, UInt64.toNat_add,
    Address.pack_toNat, offset]
  simp only [Nat.toUInt64, UInt64.toNat_ofNat']
  omega

/-! ## The next instruction -/

namespace MachineM

/-- Fetches the next instruction, with its position and its operand. -/
def advance : MachineM (Int32 × Opcode × UInt32) := do
  let position := (← get).registers.instruction.offset
  let (opcode, operand) ← fetch position
  jump (.code (position + Int32.ofNat opcode.size))
  report (.stepped position opcode operand)
  return (position, opcode, operand)

theorem step_eq (fuel : Nat) (machine : Machine) :
    step fuel machine =
      (advance >>= fun (position, opcode, operand) =>
        execute fuel position opcode operand) machine := by
  unfold step advance
  simp only [bind_assoc, pure_bind]

end MachineM

namespace Machine

/-- The next instruction of a machine, and the machine when it has been
fetched. -/
structure Next (machine : Machine) (position : Int32) (opcode : Opcode)
    (operand : UInt32) (ready : Machine) : Prop where
  offset : machine.registers.instruction.offset = position
  fetched : MachineM.fetch position machine = .ok (opcode, operand) machine
  advances : MachineM.advance machine = .ok (position, opcode, operand) ready

theorem Next.step {machine ready : Machine} {position : Int32}
    {opcode : Opcode} {operand : UInt32}
    (next : machine.Next position opcode operand ready) (fuel : Nat) :
    MachineM.step fuel machine =
      MachineM.execute fuel position opcode operand ready := by
  rw [MachineM.step_eq]
  simp only [bind, EStateM.bind, next.advances]

theorem next_of_advance {machine ready : Machine} {position : Int32}
    {opcode : Opcode} {operand : UInt32}
    (advances : MachineM.advance machine =
      .ok (position, opcode, operand) ready) :
    machine.Next position opcode operand ready := by
  have known := advances
  unfold MachineM.advance at known
  simp only [bind, EStateM.bind, get_apply] at known
  cases fetched : MachineM.fetch machine.registers.instruction.offset
      machine with
  | error fault other =>
      rw [fetched] at known
      cases known
  | ok pair other =>
      have same : other = machine := by
        unfold MachineM.fetch MachineM.read at fetched
        dsimp only at fetched
        split at fetched
        · cases fetched
          rfl
        · cases fetched
      subst same
      rw [fetched] at known
      cases known
      exact ⟨rfl, fetched, advances⟩

/-- The machine when the instruction at a position has been fetched. -/
def fetched (machine : Machine) (position : Nat) (opcode : Opcode)
    (operand : UInt32) : Machine :=
  { machine with
    registers := { machine.registers with
      instruction := .code (Int32.ofNat (position + opcode.size)) }
    program := { machine.program with
      journal := machine.program.journal.add
        (.stepped (Int32.ofNat position) opcode operand) } }

theorem fetch_eq {machine : Machine}
    (small : machine.program.code.size < 2 ^ 31) {index : Nat} {word : UInt32}
    (there : machine.program.code[index]? = some word) :
    machine.program.fetch (Int32.ofNat index) = .ok word := by
  have inside := (Array.getElem?_eq_some_iff.mp there).1
  have nonnegative : ¬ Int32.ofNat index < 0 :=
    Int32.not_lt.mpr (Store.ofNat_nonneg (by omega))
  unfold Program.fetch
  rw [if_neg nonnegative, Store.toNatClampNeg_ofNat (by omega), there]

/-- The next instruction is the one at the position. -/
theorem next_fetched {machine : Machine} {position : Nat}
    (small : machine.program.code.size < 2 ^ 31)
    (instruction : machine.registers.instruction =
      .code (Int32.ofNat position))
    {opcode : Opcode} {operand : UInt32}
    (there : machine.program.code[position]? = some opcode.encode)
    (argument : if opcode.hasOperand then
      machine.program.code[position + 1]? = some operand else operand = 0) :
    machine.Next (Int32.ofNat position) opcode operand
      (machine.fetched position opcode operand) := by
  have found : MachineM.fetch (Int32.ofNat position) machine =
      .ok (opcode, operand) machine := by
    unfold MachineM.fetch MachineM.read
    dsimp only
    rw [fetch_eq small there]
    simp only [bind, Except.bind, Opcode.decode?_encode]
    cases has : opcode.hasOperand with
    | true =>
        rw [has, if_pos rfl] at argument
        have following : Int32.ofNat position + 1 =
            Int32.ofNat (position + 1) := by
          rw [Int32.ofNat_add]
          rfl
        simp only [if_true, following, fetch_eq small argument]
        rfl
    | false =>
        rw [has, if_neg (by decide)] at argument
        subst argument
        rfl
  have offset : machine.registers.instruction.offset =
      Int32.ofNat position := by
    rw [instruction]
    rfl
  refine ⟨offset, found, ?_⟩
  unfold Machine.fetched
  rw [Int32.ofNat_add]
  unfold MachineM.advance
  simp only [bind, EStateM.bind, get_apply, offset, found]
  rfl

end Machine

namespace Opcode

/-- The instructions after which the run always goes on, with the same
effect however long it may take. -/
def isOrdinary : Opcode → Bool
  | .halt | .fail | .unify | .proceed | .native => false
  | _ => true

/-- The instructions that stay inside a clause. -/
def isQuiet : Opcode → Bool
  | .call | .choicePoint | .choicePointRelative | .cut => false
  | opcode => opcode.isOrdinary

theorem isOrdinary_of_isQuiet {opcode : Opcode}
    (quiet : opcode.isQuiet = true) : opcode.isOrdinary = true := by
  cases opcode <;> first | rfl | cases quiet

end Opcode

theorem MachineM.execute_ordinary {opcode : Opcode}
    (ordinary : opcode.isOrdinary = true) (fuel : Nat) (position : Int32)
    (operand : UInt32) :
    MachineM.execute fuel position opcode operand = do
      MachineM.perform position opcode operand
      return Status.running := by
  cases opcode <;> first | rfl | cases ordinary

namespace Shows

variable {context : Context} {position : Nat} {view : View}
  {machine : Machine}

/-- Another position, and more in the journal. -/
theorem jumped (shown : Shows context position view machine) (target : Nat)
    (journal : Journal) :
    Shows context target view
      { machine with
        registers := { machine.registers with
          instruction := .code (Int32.ofNat target) }
        program := { machine.program with journal } } where
  program := by
    change { machine.program with journal } =
      { context.program with journal }
    rw [shown.program]
  collectors := shown.collectors
  guarded := shown.guarded
  addressable := shown.addressable
  room := shown.room
  instruction := rfl
  environment := shown.environment
  continuation := shown.continuation
  cutBase := shown.cutBase
  memory := shown.memory
  stacked := shown.stacked

/-- The next instruction is the one at the position. -/
theorem next (shown : Shows context position view machine)
    {opcode : Opcode} {operand : UInt32}
    (there : context.program.code[position]? = some opcode.encode)
    (argument : if opcode.hasOperand then
      context.program.code[position + 1]? = some operand else operand = 0) :
    ∃ ready, machine.Next (Int32.ofNat position) opcode operand ready ∧
      Shows context (position + opcode.size) view ready := by
  have code := shown.code
  refine ⟨_, Machine.next_fetched (by rw [code]; exact context.small)
    shown.instruction (by rwa [code]) (by rwa [code]), ?_⟩
  exact shown.jumped (position + opcode.size) _

end Shows

/-! ## Straight code -/

namespace View

/-- What holds after an item of straight code.  A cell that does not fit in its
segment ends the run. -/
def After (view : View) (wanted : View → Prop) : Item → Prop
  | .mark _ => wanted view
  | .plain .duplicate =>
      match view.operands with
      | operand :: _ => wanted (view.push operand)
      | _ => False
  | .plain .load =>
      match view.operands with
      | .address target :: rest => ∃ word, view.Loads target word ∧
          wanted { view with operands := .word word :: rest }
      | _ => False
  | .plain .store =>
      match view.operands with
      | .word word :: .address target :: rest =>
          (∃ (region : Region) (index : Int32),
            target = region.address index ∧ 0 ≤ index ∧
              index < view.memory.top region ∧
              view.memory.Admits target word ∧
              wanted (View.write { view with operands := rest } target word)) ∨
          ∃ index, target = .heap index ∧ 0 ≤ index ∧
            (index.toNatClampNeg < view.memory.heap.size →
              wanted (View.prepare { view with operands := rest } index word))
      | _ => False
  | .plain .deref =>
      match view.operands with
      | .address target :: rest => ∃ root, view.Leads target root ∧
          wanted { view with operands := .address root :: rest }
      | _ => False
  | .plain .getTag =>
      match view.operands with
      | .word word :: rest =>
          wanted { view with operands := .number word.tag.code :: rest }
      | _ => False
  | .plain .getAddress =>
      match view.operands with
      | .word word :: rest =>
          wanted { view with operands := .address word.address :: rest }
      | _ => False
  | .plain .tagReference => tagged .reference
  | .plain .tagCompound => tagged .compound
  | .plain .tagList => tagged .list
  | .plain .tagConstant => numbered Word.constant
  | .plain .tagFunctor => numbered Word.functor
  | .plain .add =>
      match view.operands with
      | .number value :: .address target :: rest =>
          ∃ (region : Region) (index : Int32) (count : Nat),
            target = region.address index ∧ 0 ≤ index ∧ count < 2 ^ 31 ∧
              value = count.toUInt64 ∧ wanted { view with
                operands := .address (region.address
                  (index + Int32.ofNat count)) :: rest }
      | _ => False
  | .plain .loadHeapTop =>
      wanted (view.push (.address (.heap view.memory.heapTop)))
  | .plain .storeHeapTop =>
      match view.operands with
      | .address (.heap top) :: rest => view.memory.heapTop ≤ top ∧
          top.toNatClampNeg ≤ view.memory.heap.size ∧
          (∀ index, view.memory.heapTop ≤ index → index < top →
            .heap index ∈ view.pending) ∧
          wanted (View.raise { view with operands := rest } top)
      | _ => False
  | .plain .loadCutBase => wanted (view.push (.address view.cutBase))
  | .plain .increment =>
      match view.operands with
      | .address target :: rest => ∃ (region : Region) (index : Int32),
          target = region.address index ∧ 0 ≤ index ∧
            wanted { view with
              operands := .address (region.address (index + 1)) :: rest }
      | _ => False
  | .operand .loadConstant value => wanted (view.push (.number value.toUInt64))
  | .operand .loadLocal index => ∃ operand,
      view.locals[index.toNat]? = some operand ∧ wanted (view.push operand)
  | .operand .storeLocal index =>
      match view.operands with
      | operand :: rest => index.toNat < view.locals.length ∧
          wanted (View.setLocal { view with operands := rest } index.toNat
            operand)
      | _ => False
  | .operand .loadLocalAddress index =>
      wanted (view.push (.address (view.slot index.toNat)))
  | .operand .loadArgumentAddress index =>
      index.toNat + 3 ≤ view.below.length ∧
        wanted (view.push (.address (view.argument index.toNat)))
  | _ => False
where
  tagged (tag : Tag) : Prop :=
    match view.operands with
    | .address target :: rest =>
        wanted { view with operands := .word (Cell.tagged tag target) :: rest }
    | _ => False
  numbered (make : FunctorId → Word) : Prop :=
    match view.operands with
    | .number value :: rest => ∃ id : FunctorId,
        value = id.index.toUInt64 ∧
          wanted { view with operands := .word (make id) :: rest }
    | _ => False

theorem Leads.withOperands {view : View} {address root : Address}
    (leads : view.Leads address root) (operands : List Operand) :
    View.Leads { view with operands } address root := by
  induction leads with
  | here loads ends => exact .here loads ends
  | there loads refers different _ ih =>
      exact .there loads refers different ih

/-- What holds after straight code. -/
def AfterAll (view : View) (wanted : View → Prop) : List Item → Prop
  | [] => wanted view
  | item :: rest => view.After (fun later => later.AfterAll wanted rest) item

end View

namespace Shows

variable {context : Context} {position : Nat} {view : View}
  {machine : Machine} {wanted : View → Prop}

/-- The machine has one of the wanted views. -/
def Meets (context : Context) (position : Nat) (wanted : View → Prop)
    (machine : Machine) : Prop :=
  ∃ view, wanted view ∧ Shows context position view machine

theorem push_meets (shown : Shows context position view machine)
    {operand : Operand} (holds : wanted (view.push operand)) :
    Ends (MachineM.push operand.toWord machine)
      (fun _ => Meets context position wanted)
      (context.Stops view.memory) :=
  (shown.push_ends operand).imp (fun _ _ later => ⟨_, holds, later⟩)
    (fun _ _ => id)

/-- An instruction that replaces the top word. -/
theorem replace_meets (shown : Shows context position view machine)
    {operand result : Operand} {rest : List Operand}
    (top : view.operands = operand :: rest) {update : Word → Word}
    (computes : update operand.toWord = result.toWord)
    (holds : wanted { view with operands := result :: rest }) :
    Ends ((do MachineM.push (update (← MachineM.pop)) : MachineM Unit) machine)
      (fun _ => Meets context position wanted)
      (context.Stops view.memory) := by
  rw [ends_bind]
  refine (shown.pop_ends top).imp ?_ (fun _ _ => False.elim)
  rintro found middle ⟨rfl, later⟩
  rw [computes]
  exact later.push_meets holds

theorem tag_meets (shown : Shows context position view machine) {tag : Tag}
    (after : View.After.tagged view wanted tag) :
    Ends (MachineM.applyTag tag machine)
      (fun _ => Meets context position wanted)
      (context.Stops view.memory) := by
  unfold View.After.tagged at after
  split at after
  case h_1 target rest top =>
    exact @replace_meets _ _ _ _ _ shown _ (.word (Cell.tagged tag target)) _
      top (fun word => word.withTag tag) (Address.withTag_pack target tag) after
  case h_2 => cases after

theorem number_meets (shown : Shows context position view machine) {tag : Tag}
    {make : FunctorId → Word}
    (makes : ∀ id : FunctorId,
      make id = Cell.tagged tag (.blank id.index.toInt32))
    (after : View.After.numbered view wanted make) :
    Ends (MachineM.applyTag tag machine)
      (fun _ => Meets context position wanted)
      (context.Stops view.memory) := by
  unfold View.After.numbered at after
  split at after
  case h_1 value rest top =>
    obtain ⟨id, rfl, holds⟩ := after
    refine @replace_meets _ _ _ _ _ shown _ (.word (make id)) _ top
      (fun word => word.withTag tag) ?_ holds
    rw [Operand.toWord, Operand.toWord, Word.withTag_number, makes]
  case h_2 => cases after

theorem add_meets (shown : Shows context position view machine)
    {region : Region} {index : Int32} {count : Nat} {rest : List Operand}
    (top : view.operands =
      .number count.toUInt64 :: .address (region.address index) :: rest)
    (nonnegative : 0 ≤ index) (small : count < 2 ^ 31)
    (holds : wanted { view with
      operands :=
        .address (region.address (index + Int32.ofNat count)) :: rest }) :
    Ends ((do
        let first ← MachineM.pop
        let second ← MachineM.pop
        MachineM.push ⟨first.bits + second.bits⟩ : MachineM Unit) machine)
      (fun _ => Meets context position wanted)
      (context.Stops view.memory) := by
  rw [ends_bind]
  refine (shown.pop_ends top).imp ?_ (fun _ _ => False.elim)
  rintro first middle ⟨rfl, later⟩
  rw [ends_bind]
  refine (later.pop_ends rfl).imp ?_ (fun _ _ => False.elim)
  rintro second last ⟨rfl, ready⟩
  have sum := region.pack_add nonnegative small
  rw [Operand.toWord, Operand.toWord, sum]
  exact @push_meets _ _ _ _ _ ready (.address _) holds

theorem store_meets (shown : Shows context position view machine)
    {word : Word} {target : Address} {rest : List Operand}
    (top : view.operands = .word word :: .address target :: rest)
    (after : (∃ (region : Region) (index : Int32),
        target = region.address index ∧ 0 ≤ index ∧
          index < view.memory.top region ∧ view.memory.Admits target word ∧
          wanted (View.write { view with operands := rest } target word)) ∨
      ∃ index, target = .heap index ∧ 0 ≤ index ∧
        (index.toNatClampNeg < view.memory.heap.size →
          wanted (View.prepare { view with operands := rest } index word))) :
    Ends ((do
        let value ← MachineM.pop
        MachineM.store (← MachineM.popAddress) value : MachineM Unit) machine)
      (fun _ => Meets context position wanted)
      (context.Stops view.memory) := by
  rw [ends_bind]
  refine (shown.pop_ends top).imp ?_ (fun _ _ => False.elim)
  rintro value middle ⟨same, later⟩
  change value = word at same
  subst same
  rw [ends_bind]
  refine (later.popAddress_ends rfl).imp ?_ (fun _ _ => False.elim)
  rintro _ last ⟨rfl, ready⟩
  rcases after with ⟨region, index, rfl, nonnegative, inUse, admits, holds⟩ |
    ⟨index, rfl, nonnegative, holds⟩
  · refine (ready.write_ends nonnegative inUse admits).imp ?_
      (fun _ _ => False.elim)
    intro _ final stored
    exact ⟨_, holds, stored⟩
  · refine ready.prepare_ends nonnegative value ?_
    intro inside final stored
    exact ⟨_, holds inside, stored⟩

theorem plain_meets (shown : Shows context position view machine)
    {opcode : Opcode} (after : view.After wanted (.plain opcode))
    (origin : Int32) (operand : UInt32) :
    opcode.isQuiet = true ∧ opcode.hasOperand = false ∧
      Ends (MachineM.perform origin opcode operand machine)
        (fun _ => Meets context position wanted)
      (context.Stops view.memory) := by
  cases opcode with
  | duplicate =>
      refine ⟨rfl, rfl, ?_⟩
      simp only [View.After] at after
      split at after
      case h_1 top rest operands =>
        simp only [MachineM.perform, ends_bind]
        refine (shown.peek_ends operands).imp ?_ (fun _ _ => False.elim)
        rintro found middle ⟨rfl, rfl⟩
        exact shown.push_meets after
      case h_2 => cases after
  | load =>
      refine ⟨rfl, rfl, ?_⟩
      simp only [View.After] at after
      split at after
      case h_1 target rest operands =>
        obtain ⟨word, loads, holds⟩ := after
        simp only [MachineM.perform, ends_bind]
        refine (shown.popAddress_ends operands).imp ?_ (fun _ _ => False.elim)
        rintro address middle ⟨rfl, later⟩
        refine (later.load_ends loads).imp ?_ (fun _ _ => False.elim)
        rintro found same ⟨rfl, rfl⟩
        exact @push_meets _ _ _ _ _ later (.word found) holds
      case h_2 => cases after
  | store =>
      refine ⟨rfl, rfl, ?_⟩
      simp only [View.After] at after
      split at after
      case h_1 word target rest operands => exact shown.store_meets operands after
      case h_2 => cases after
  | deref =>
      refine ⟨rfl, rfl, ?_⟩
      simp only [View.After] at after
      split at after
      case h_1 target rest operands =>
        obtain ⟨root, leads, holds⟩ := after
        simp only [MachineM.perform, ends_bind]
        refine (shown.popAddress_ends operands).imp ?_ (fun _ _ => False.elim)
        rintro address middle ⟨rfl, later⟩
        refine (later.deref_ends (leads.withOperands rest)).imp ?_ (fun _ _ => False.elim)
        rintro found same ⟨rfl, rfl⟩
        exact @push_meets _ _ _ _ _ later (.address found) holds
      case h_2 => cases after
  | getTag =>
      refine ⟨rfl, rfl, ?_⟩
      simp only [View.After] at after
      split at after
      case h_1 word rest operands =>
        exact @replace_meets _ _ _ _ _ shown _ (.number word.tag.code) _ operands
          (fun word => ⟨word.tag.code⟩) rfl after
      case h_2 => cases after
  | getAddress =>
      refine ⟨rfl, rfl, ?_⟩
      simp only [View.After] at after
      split at after
      case h_1 word rest operands =>
        simp only [MachineM.perform, MachineM.popAddress, bind_assoc, pure_bind]
        exact @replace_meets _ _ _ _ _ shown _ (.address word.address) _ operands
          (fun word => word.address.pack) rfl after
      case h_2 => cases after
  | tagReference => exact ⟨rfl, rfl, shown.tag_meets after⟩
  | tagCompound => exact ⟨rfl, rfl, shown.tag_meets after⟩
  | tagList => exact ⟨rfl, rfl, shown.tag_meets after⟩
  | tagConstant =>
      exact ⟨rfl, rfl, shown.number_meets (fun _ => rfl) after⟩
  | tagFunctor =>
      exact ⟨rfl, rfl, shown.number_meets (fun _ => rfl) after⟩
  | add =>
      refine ⟨rfl, rfl, ?_⟩
      simp only [View.After] at after
      split at after
      case h_1 value target rest operands =>
        obtain ⟨region, index, count, rfl, nonnegative, small, rfl, holds⟩ :=
          after
        exact shown.add_meets operands nonnegative small holds
      case h_2 => cases after
  | loadHeapTop =>
      have same : machine.store.heapTop = view.memory.heapTop := by
        rw [← shown.memory]
        rfl
      refine ⟨rfl, rfl, ?_⟩
      simp only [MachineM.perform, ends_bind, ends_get, Machine.register, same]
      exact @push_meets _ _ _ _ _ shown (.address _) after
  | storeHeapTop =>
      refine ⟨rfl, rfl, ?_⟩
      simp only [View.After] at after
      split at after
      case h_1 place rest operands =>
        obtain ⟨higher, fits, -, holds⟩ := after
        simp only [MachineM.perform, ends_bind]
        refine (shown.popAddress_ends operands).imp ?_ (fun _ _ => False.elim)
        rintro address middle ⟨rfl, later⟩
        refine (later.raise_ends higher fits).imp ?_ (fun _ _ => False.elim)
        intro _ final raised
        exact ⟨_, holds, raised⟩
      case h_2 => cases after
  | loadCutBase =>
      refine ⟨rfl, rfl, ?_⟩
      simp only [MachineM.perform, ends_bind, ends_get, shown.cutBase]
      exact @push_meets _ _ _ _ _ shown (.address _) after
  | increment =>
      refine ⟨rfl, rfl, ?_⟩
      simp only [View.After] at after
      split at after
      case h_1 target rest operands =>
        obtain ⟨region, index, rfl, nonnegative, holds⟩ := after
        refine @replace_meets _ _ _ _ _ shown _
          (.address (region.address (index + 1))) _ operands
          (fun word => ⟨word.bits + 1⟩) ?_ holds
        have counted := region.pack_add nonnegative (by decide : 1 < 2 ^ 31)
        rw [UInt64.add_comm] at counted
        exact counted
      case h_2 => cases after
  | _ => cases after

theorem operand_meets (shown : Shows context position view machine)
    {opcode : Opcode} {operand : UInt32}
    (after : view.After wanted (.operand opcode operand)) (origin : Int32) :
    opcode.isQuiet = true ∧ opcode.hasOperand = true ∧
      Ends (MachineM.perform origin opcode operand machine)
        (fun _ => Meets context position wanted)
      (context.Stops view.memory) := by
  cases opcode with
  | loadConstant =>
      exact ⟨rfl, rfl, @push_meets _ _ _ _ _ shown (.number _) after⟩
  | loadLocal =>
      obtain ⟨value, found, holds⟩ := after
      have loads : view.Loads (view.slot operand.toNat) value.toWord := by
        refine .inr ⟨_, rfl, ?_⟩
        rw [View.frame, List.getElem?_append_right (Nat.le_add_right _ _),
          Nat.add_sub_cancel_left, List.getElem?_map, found]
        rfl
      refine ⟨rfl, rfl, ?_⟩
      simp only [MachineM.perform, ends_bind]
      refine (shown.localAddress_ends operand).imp ?_ (fun _ _ => False.elim)
      rintro address middle ⟨rfl, rfl⟩
      refine (shown.load_ends loads).imp ?_ (fun _ _ => False.elim)
      rintro word middle ⟨rfl, rfl⟩
      exact shown.push_meets holds
  | storeLocal =>
      refine ⟨rfl, rfl, ?_⟩
      simp only [View.After] at after
      split at after
      case h_1 top rest operands =>
        obtain ⟨inside, holds⟩ := after
        simp only [MachineM.perform, ends_bind]
        refine (shown.pop_ends operands).imp ?_ (fun _ _ => False.elim)
        rintro word middle ⟨rfl, later⟩
        refine (later.localAddress_ends operand).imp ?_ (fun _ _ => False.elim)
        rintro address last ⟨rfl, rfl⟩
        refine (later.storeLocal_ends inside top).imp ?_
          (fun _ _ => False.elim)
        intro _ final stored
        exact ⟨_, holds, stored⟩
      case h_2 => cases after
  | loadLocalAddress =>
      refine ⟨rfl, rfl, ?_⟩
      simp only [MachineM.perform, ends_bind]
      refine (shown.localAddress_ends operand).imp ?_ (fun _ _ => False.elim)
      rintro address middle ⟨rfl, rfl⟩
      exact @push_meets _ _ _ _ _ shown (.address _) after
  | loadArgumentAddress =>
      obtain ⟨inside, holds⟩ := after
      refine ⟨rfl, rfl, ?_⟩
      simp only [MachineM.perform, ends_bind]
      refine (shown.argument_ends inside).imp ?_ (fun _ _ => False.elim)
      rintro address middle ⟨rfl, rfl⟩
      exact @push_meets _ _ _ _ _ shown (.address _) holds
  | _ => cases after

end Shows

end LogicMachine
