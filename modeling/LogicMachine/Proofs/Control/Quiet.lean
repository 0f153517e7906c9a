import LogicMachine.Proofs.Control.Activity
import LogicMachine.Proofs.Execution.Logic

/-!
# Following code to its next turning point

Most instructions stay inside the running clause: they are quiet.  A machine
heads for a set of machines if its quiet instructions lead there, unless a fault
ends the run or the branch is given up on the way.  What straight code does is
told by the activity alone.
-/

namespace LogicMachine

variable [Atoms]

/-- Quiet instructions lead to a turning point, or to where the branch may be
given up.  A condition holds all the way, and also where a fault ends the run. -/
inductive Heads (always turning given : Machine → Prop) : Machine → Prop where
  | here {machine : Machine} (holds : always machine)
      (turns : turning machine) : Heads always turning given machine
  | quiet {machine ready : Machine} {position : Int32} {opcode : Opcode}
      {operand : UInt32} (holds : always machine)
      (next : machine.Next position opcode operand ready)
      (isQuiet : opcode.isQuiet = true)
      (onward : ∀ after,
        MachineM.perform position opcode operand ready = .ok () after →
          Heads always turning given after)
      (stops : ∀ fault after,
        MachineM.perform position opcode operand ready = .error fault after →
          always after) :
      Heads always turning given machine
  | fail {machine ready : Machine} {position : Int32} {operand : UInt32}
      (holds : always machine)
      (next : machine.Next position .fail operand ready)
      (gives : given ready) : Heads always turning given machine
  | unify {machine ready : Machine} {position : Int32} {operand : UInt32}
      (holds : always machine)
      (next : machine.Next position .unify operand ready)
      (onward : ∀ fuel after, MachineM.unifyTop fuel ready = .ok true after →
        Heads always turning given after)
      (gives : ∀ fuel after, MachineM.unifyTop fuel ready = .ok false after →
        given after)
      (stops : ∀ fuel fault after,
        MachineM.unifyTop fuel ready = .error fault after → always after) :
      Heads always turning given machine

omit [Atoms] in
theorem Heads.always {always turning given : Machine → Prop}
    {machine : Machine} (heads : Heads always turning given machine) :
    always machine := by
  cases heads <;> assumption

/-- Every machine with an activity at a position heads for a turning point. -/
def Setting.Heads (setting : Setting) (turning given : Machine → Prop)
    (position : Nat) (activity : Activity) : Prop :=
  ∀ machine, Runs setting position activity machine →
    LogicMachine.Heads setting.Stays turning given machine

omit [Atoms] in
theorem MachineM.ends_of_ok {action : MachineM α} {machine : Machine}
    {regular : α → Machine → Prop} {faulty : Fault → Machine → Prop}
    (ends : Ends (action machine) regular faulty) {value : α}
    {after : Machine} (result : action machine = .ok value after) :
    regular value after := by
  rw [result] at ends
  exact ends

omit [Atoms] in
theorem MachineM.ends_of_error {action : MachineM α} {machine : Machine}
    {regular : α → Machine → Prop} {faulty : Fault → Machine → Prop}
    (ends : Ends (action machine) regular faulty) {fault : Fault}
    {after : Machine} (result : action machine = .error fault after) :
    faulty fault after := by
  rw [result] at ends
  exact ends

/-! ## Straight code -/

namespace Activity

/-- What holds after an item of straight code. -/
def Then (activity : Activity) (wanted : Activity → Prop) : Item → Prop
  | .mark _ => wanted activity
  | .plain .duplicate =>
      match activity.operands with
      | word :: _ => wanted (activity.push word)
      | [] => False
  | .plain .load => replaced fun word result =>
      activity.Finds word.address result
  | .plain .store =>
      match activity.operands with
      | value :: target :: rest =>
          target.address.OffStack ∧ value.Plain ∧
            activity.memory.Open activity.memory target.address ∧
            ((∃ old, activity.memory.load target.address = .ok old) →
              wanted (write { activity with operands := rest } target.address
                value))
      | _ => False
  | .plain .deref => replaced fun word result =>
      ∃ root, activity.Reaches word.address root ∧ result = root.pack
  | .plain .getTag => replaced fun word result => result = ⟨word.tag.code⟩
  | .plain .getAddress => replaced fun word result =>
      result = word.address.pack
  | .plain .tagReference => tagged .reference
  | .plain .tagCompound => tagged .compound
  | .plain .tagList => tagged .list
  | .plain .tagConstant => tagged .constant
  | .plain .tagFunctor => tagged .functor
  | .plain .increment => replaced fun word result => result = ⟨word.bits + 1⟩
  | .plain .add =>
      match activity.operands with
      | first :: second :: rest =>
          wanted { activity with
            operands := ⟨first.bits + second.bits⟩ :: rest }
      | _ => False
  | .plain .loadHeapTop =>
      wanted (activity.push (Address.heap activity.memory.heapTop).pack)
  | .plain .storeHeapTop =>
      match activity.operands with
      | word :: rest => ∃ top, word.address = .heap top ∧
          activity.memory.heapTop ≤ top ∧
          top.toNatClampNeg ≤ activity.memory.heap.size ∧
          wanted (raise { activity with operands := rest } top)
      | [] => False
  | .plain .loadCutBase => wanted (activity.push activity.cutBase.pack)
  | .operand .loadConstant value =>
      wanted (activity.push ⟨value.toUInt64⟩)
  | .operand .loadLocal index => activity.Framed ∧ ∃ word,
      activity.locals[index.toNat]? = some word ∧ wanted (activity.push word)
  | .operand .storeLocal index =>
      match activity.operands with
      | word :: rest => activity.Framed ∧
          index.toNat < activity.locals.length ∧
          wanted (setLocal { activity with operands := rest } index.toNat word)
      | [] => False
  | .operand .loadLocalAddress index => activity.Framed ∧
      wanted (activity.push (activity.slot index.toNat).pack)
  | .operand .loadArgumentAddress index => activity.Framed ∧
      index.toNat + 3 ≤ activity.below.length ∧
        wanted (activity.push (activity.argument index.toNat).pack)
  | .operand .trace _ => wanted activity
  | .operand .endTrace _ => wanted activity
  | _ => False
where
  replaced (results : Word → Word → Prop) : Prop :=
    match activity.operands with
    | word :: rest => ∀ result, results word result →
        wanted { activity with operands := result :: rest }
    | [] => False
  tagged (tag : Tag) : Prop :=
    replaced fun word result => result = word.withTag tag

/-- What holds after straight code. -/
def ThenAll (activity : Activity) (wanted : Activity → Prop) :
    List Item → Prop
  | [] => wanted activity
  | item :: rest => activity.Then (fun later => later.ThenAll wanted rest) item

theorem thenAll_append {activity : Activity} {wanted : Activity → Prop}
    {first second : List Item} :
    activity.ThenAll wanted (first ++ second) ↔
      activity.ThenAll (fun later => later.ThenAll wanted second) first := by
  induction first generalizing activity with
  | nil => rfl
  | cons item rest ih =>
      rw [List.cons_append, ThenAll, ThenAll]
      have same : (fun later : Activity =>
            later.ThenAll wanted (rest ++ second)) =
          fun later => later.ThenAll
            (fun last => last.ThenAll wanted second) rest :=
        funext fun later => propext ih
      rw [same]

section Monotone

variable {activity : Activity} {weaker stronger : Activity → Prop}

omit [Atoms] in
theorem Then.replaced_mono (implies : ∀ later, stronger later → weaker later)
    {results : Word → Word → Prop} (after : replaced activity stronger results) :
    replaced activity weaker results := by
  unfold replaced at after ⊢
  split
  · next word rest top =>
      rw [top] at after
      exact fun result holds => implies _ (after result holds)
  · next top =>
      rw [top] at after
      exact after

theorem then_mono (implies : ∀ later, stronger later → weaker later)
    {item : Item} (after : activity.Then stronger item) :
    activity.Then weaker item := by
  cases item with
  | mark label => exact implies _ after
  | branch opcode target => exact after
  | plain opcode =>
      cases opcode with
      | load | deref | getTag | getAddress | tagReference | tagCompound
      | tagList | tagConstant | tagFunctor | increment =>
          exact Then.replaced_mono implies after
      | loadHeapTop | loadCutBase => exact implies _ after
      | duplicate =>
          simp only [Then] at after ⊢
          split at after
          · exact implies _ after
          · exact after
      | store =>
          simp only [Then] at after ⊢
          split at after
          · obtain ⟨offStack, plain, isOpen, holds⟩ := after
            exact ⟨offStack, plain, isOpen, fun present =>
              implies _ (holds present)⟩
          · exact after
      | add =>
          simp only [Then] at after ⊢
          split at after
          · exact implies _ after
          · exact after
      | storeHeapTop =>
          simp only [Then] at after ⊢
          split at after
          · obtain ⟨top, isHeap, higher, fits, holds⟩ := after
            exact ⟨top, isHeap, higher, fits, implies _ holds⟩
          · exact after
      | _ => exact after
  | operand opcode value =>
      cases opcode with
      | loadConstant | trace | endTrace => exact implies _ after
      | loadLocal =>
          obtain ⟨framed, word, found, holds⟩ := after
          exact ⟨framed, word, found, implies _ holds⟩
      | storeLocal =>
          simp only [Then] at after ⊢
          split at after
          · exact ⟨after.1, after.2.1, implies _ after.2.2⟩
          · exact after
      | loadLocalAddress => exact ⟨after.1, implies _ after.2⟩
      | loadArgumentAddress => exact ⟨after.1, after.2.1, implies _ after.2.2⟩
      | _ => exact after

theorem thenAll_mono (implies : ∀ later, stronger later → weaker later)
    {items : List Item} (after : activity.ThenAll stronger items) :
    activity.ThenAll weaker items := by
  induction items generalizing activity with
  | nil => exact implies activity after
  | cons item rest ih => exact then_mono (fun _ => ih) after

end Monotone

end Activity

namespace Runs

variable {setting : Setting} {position : Nat} {activity : Activity}
  {machine : Machine} {wanted : Activity → Prop}

/-- The machine has one of the wanted activities. -/
def Meets (setting : Setting) (position : Nat) (wanted : Activity → Prop)
    (machine : Machine) : Prop :=
  ∃ activity, wanted activity ∧ Runs setting position activity machine

theorem push_meets (runs : Runs setting position activity machine)
    {word : Word} (holds : wanted (activity.push word)) :
    Ends (MachineM.push word machine)
      (fun _ => Meets setting position wanted) (fun _ => setting.Stays) :=
  (runs.push_ends word).imp (fun _ _ later => ⟨_, holds, later⟩)
    (fun _ _ => id)

/-- An instruction that replaces the top word by one that it finds. -/
theorem replace_meets (runs : Runs setting position activity machine)
    {results : Word → Word → Prop}
    (after : Activity.Then.replaced activity wanted results)
    {action : Word → MachineM Word}
    (computes : ∀ word middle, Runs setting position
      { activity with operands := activity.operands.tail } middle →
      Ends (action word middle)
        (fun result last => results word result ∧ last = middle)
        (fun _ => setting.Stays)) :
    Ends ((do
        let word ← MachineM.pop
        MachineM.push (← action word) : MachineM Unit) machine)
      (fun _ => Meets setting position wanted) (fun _ => setting.Stays) := by
  unfold Activity.Then.replaced at after
  split at after
  case h_2 => cases after
  case h_1 word rest top =>
    rw [ends_bind]
    refine (runs.pop_ends top).imp ?_ (fun _ _ => id)
    rintro found middle ⟨rfl, later⟩
    rw [ends_bind]
    have tail : activity.operands.tail = rest := by rw [top, List.tail_cons]
    refine (computes found middle (tail ▸ later)).imp ?_ (fun _ _ => id)
    rintro result last ⟨holds, rfl⟩
    exact later.push_meets (after result holds)

/-- An instruction that computes with the top word alone. -/
theorem compute_meets (runs : Runs setting position activity machine)
    {update : Word → Word}
    (after : Activity.Then.replaced activity wanted
      (fun word result => result = update word)) :
    Ends ((do MachineM.push (update (← MachineM.pop)) : MachineM Unit) machine)
      (fun _ => Meets setting position wanted) (fun _ => setting.Stays) := by
  have replaced := runs.replace_meets after
    (fun word middle _ => (show Ends ((pure (update word) : MachineM Word)
      middle) (fun result last => result = update word ∧ last = middle)
      (fun _ => setting.Stays) from ⟨rfl, rfl⟩))
  simpa only [pure_bind] using replaced

theorem trace_meets (runs : Runs setting position activity machine)
    (id : FunctorId) (passage : Passage) (holds : wanted activity) :
    Ends (MachineM.reportTrace id passage machine)
      (fun _ => Meets setting position wanted) (fun _ => setting.Stays) := by
  simp only [MachineM.reportTrace, ends_bind, ends_get]
  split
  case isFalse => exact ⟨activity, holds, runs⟩
  case isTrue =>
    simp only [ends_bind, MachineM.ends_read]
    split
    case h_2 => exact runs.toStays
    case h_1 event _ =>
      have later := runs.jumped position (machine.program.journal.add event)
      have same : machine.registers = { machine.registers with
          instruction := .code (Int32.ofNat position) } := by
        rw [← runs.instruction]
      rw [← same] at later
      exact ⟨activity, holds, later⟩

/-- An item without operand, apart from the position it stands at. -/
theorem plain_meets (runs : Runs setting position activity machine)
    {opcode : Opcode} (after : activity.Then wanted (.plain opcode))
    (origin : Int32) (operand : UInt32) :
    opcode.isQuiet = true ∧ opcode.hasOperand = false ∧
      Ends (MachineM.perform origin opcode operand machine)
        (fun _ => Meets setting position wanted) (fun _ => setting.Stays) := by
  have addressed {query : Address → MachineM Word}
      {results : Word → Word → Prop}
      (replaced : Activity.Then.replaced activity wanted results)
      (computes : ∀ word middle, Runs setting position
        { activity with operands := activity.operands.tail } middle →
        Ends (query word.address middle)
          (fun result last => results word result ∧ last = middle)
          (fun _ => setting.Stays)) :
      Ends ((do
          let address ← MachineM.popAddress
          MachineM.push (← query address) : MachineM Unit) machine)
        (fun _ => Meets setting position wanted) (fun _ => setting.Stays) := by
    have combined := @replace_meets _ _ _ _ _ _ runs _ replaced
      (fun word => query word.address) computes
    simpa only [MachineM.popAddress, bind_assoc, pure_bind] using combined
  cases opcode with
  | duplicate =>
      refine ⟨rfl, rfl, ?_⟩
      simp only [Activity.Then] at after
      split at after
      case h_2 => cases after
      case h_1 word rest top =>
        simp only [MachineM.perform, ends_bind]
        refine (runs.peek_ends top).imp ?_ (fun _ _ => id)
        rintro found middle ⟨rfl, rfl⟩
        exact runs.push_meets after
  | load =>
      refine ⟨rfl, rfl, ?_⟩
      refine addressed after fun word middle later => ?_
      refine (later.load_ends word.address).imp ?_ (fun _ _ => id)
      rintro result last ⟨finds, rfl⟩
      exact ⟨⟨finds.cell, finds.slot⟩, rfl⟩
  | store =>
      refine ⟨rfl, rfl, ?_⟩
      simp only [Activity.Then] at after
      split at after
      case h_2 => cases after
      case h_1 value target rest top =>
        obtain ⟨offStack, plain, isOpen, holds⟩ := after
        simp only [MachineM.perform, ends_bind]
        refine (runs.pop_ends top).imp ?_ (fun _ _ => id)
        rintro found middle ⟨rfl, later⟩
        refine (later.popAddress_ends rfl).imp ?_ (fun _ _ => id)
        rintro address last ⟨rfl, ready⟩
        refine (ready.store_ends offStack isOpen plain).imp ?_ (fun _ _ => id)
        rintro _ final ⟨present, stored⟩
        exact ⟨_, holds present, stored⟩
  | deref =>
      refine ⟨rfl, rfl, ?_⟩
      have query := @addressed
        (fun address => do return (← MachineM.deref address).pack) _ after
      simp only [bind_assoc, pure_bind] at query
      refine query fun word middle later => ?_
      rw [ends_bind]
      refine (later.deref_ends word.address).imp ?_ (fun _ _ => id)
      rintro root last ⟨reaches, rfl⟩
      exact ⟨⟨root, ⟨reaches.cell, reaches.slot⟩, rfl⟩, rfl⟩
  | getTag =>
      exact ⟨rfl, rfl, @compute_meets _ _ _ _ _ _ runs
        (fun word => ⟨word.tag.code⟩) after⟩
  | getAddress =>
      refine ⟨rfl, rfl, ?_⟩
      have computed := @compute_meets _ _ _ _ _ _ runs
        (fun word => word.address.pack) after
      simpa only [MachineM.perform, MachineM.popAddress, bind_assoc, pure_bind]
        using computed
  | tagReference => exact ⟨rfl, rfl, runs.compute_meets after⟩
  | tagCompound => exact ⟨rfl, rfl, runs.compute_meets after⟩
  | tagList => exact ⟨rfl, rfl, runs.compute_meets after⟩
  | tagConstant => exact ⟨rfl, rfl, runs.compute_meets after⟩
  | tagFunctor => exact ⟨rfl, rfl, runs.compute_meets after⟩
  | increment =>
      exact ⟨rfl, rfl, @compute_meets _ _ _ _ _ _ runs
        (fun word => ⟨word.bits + 1⟩) after⟩
  | add =>
      refine ⟨rfl, rfl, ?_⟩
      simp only [Activity.Then] at after
      split at after
      case h_2 => cases after
      case h_1 first second rest top =>
        simp only [MachineM.perform, ends_bind]
        refine (runs.pop_ends top).imp ?_ (fun _ _ => id)
        rintro found middle ⟨rfl, later⟩
        refine (later.pop_ends rfl).imp ?_ (fun _ _ => id)
        rintro other last ⟨rfl, ready⟩
        exact ready.push_meets after
  | loadHeapTop =>
      have same : machine.store.heapTop = activity.memory.heapTop := by
        rw [← runs.memory]
        rfl
      refine ⟨rfl, rfl, ?_⟩
      simp only [MachineM.perform, ends_bind, ends_get, Machine.register, same]
      exact runs.push_meets after
  | storeHeapTop =>
      refine ⟨rfl, rfl, ?_⟩
      simp only [Activity.Then] at after
      split at after
      case h_2 => cases after
      case h_1 word rest top =>
        obtain ⟨place, isHeap, higher, fits, holds⟩ := after
        simp only [MachineM.perform, ends_bind]
        refine (runs.popAddress_ends top).imp ?_ (fun _ _ => id)
        rintro address middle ⟨rfl, later⟩
        rw [isHeap]
        refine (later.raise_ends higher fits).imp ?_ (fun _ _ => id)
        intro _ final raised
        exact ⟨_, holds, raised⟩
  | loadCutBase =>
      refine ⟨rfl, rfl, ?_⟩
      simp only [MachineM.perform, ends_bind, ends_get, runs.cutBase]
      exact runs.push_meets after
  | _ => cases after

theorem operand_meets (runs : Runs setting position activity machine)
    {opcode : Opcode} {operand : UInt32}
    (after : activity.Then wanted (.operand opcode operand)) (origin : Int32) :
    opcode.isQuiet = true ∧ opcode.hasOperand = true ∧
      Ends (MachineM.perform origin opcode operand machine)
        (fun _ => Meets setting position wanted) (fun _ => setting.Stays) := by
  cases opcode with
  | loadConstant => exact ⟨rfl, rfl, runs.push_meets after⟩
  | loadLocal =>
      obtain ⟨framed, word, found, holds⟩ := after
      refine ⟨rfl, rfl, ?_⟩
      simp only [MachineM.perform, ends_bind]
      refine (runs.localAddress_ends framed operand).imp ?_ (fun _ _ => id)
      rintro address middle ⟨rfl, rfl⟩
      refine (runs.load_ends (activity.slot operand.toNat)).imp ?_
        (fun _ _ => id)
      rintro other last ⟨finds, rfl⟩
      have there : activity.frame[activity.below.length + operand.toNat]? =
          some word := by
        rw [Activity.frame, List.getElem?_append_right (Nat.le_add_right _ _),
          Nat.add_sub_cancel_left, found]
      rw [finds.slot _ word rfl there]
      exact runs.push_meets holds
  | storeLocal =>
      refine ⟨rfl, rfl, ?_⟩
      simp only [Activity.Then] at after
      split at after
      case h_2 => cases after
      case h_1 word rest top =>
        obtain ⟨framed, inside, holds⟩ := after
        simp only [MachineM.perform, ends_bind]
        refine (runs.pop_ends top).imp ?_ (fun _ _ => id)
        rintro found middle ⟨rfl, later⟩
        refine (later.localAddress_ends framed operand).imp ?_ (fun _ _ => id)
        rintro address last ⟨rfl, rfl⟩
        refine (later.storeLocal_ends inside found).imp ?_ (fun _ _ => id)
        intro _ final stored
        exact ⟨_, holds, stored⟩
  | loadLocalAddress =>
      obtain ⟨framed, holds⟩ := after
      refine ⟨rfl, rfl, ?_⟩
      simp only [MachineM.perform, ends_bind]
      refine (runs.localAddress_ends framed operand).imp ?_ (fun _ _ => id)
      rintro address middle ⟨rfl, rfl⟩
      exact runs.push_meets holds
  | loadArgumentAddress =>
      obtain ⟨framed, inside, holds⟩ := after
      refine ⟨rfl, rfl, ?_⟩
      simp only [MachineM.perform, ends_bind]
      refine (runs.argument_ends framed inside).imp ?_ (fun _ _ => id)
      rintro address middle ⟨rfl, rfl⟩
      exact runs.push_meets holds
  | trace => exact ⟨rfl, rfl, runs.trace_meets _ .enter after⟩
  | endTrace => exact ⟨rfl, rfl, runs.trace_meets _ .exit after⟩
  | _ => cases after

/-- The next instruction is the one at the position. -/
theorem next (runs : Runs setting position activity machine)
    {opcode : Opcode} {operand : UInt32}
    (there : setting.program.code[position]? = some opcode.encode)
    (argument : if opcode.hasOperand then
      setting.program.code[position + 1]? = some operand else operand = 0) :
    ∃ ready, machine.Next (Int32.ofNat position) opcode operand ready ∧
      Runs setting (position + opcode.size) activity ready := by
  have code := runs.code
  refine ⟨_, Machine.next_fetched (by rw [code]; exact setting.small)
    runs.instruction (by rwa [code]) (by rwa [code]), ?_⟩
  exact runs.jumped (position + opcode.size) _

end Runs

/-! ## Rules -/

namespace Setting.Heads

variable {setting : Setting} {turning given : Machine → Prop} {place : Label → Nat}
  {position : Nat} {activity : Activity} {rest : List Item}

theorem quiet {opcode : Opcode} (operand : UInt32)
    (there : setting.program.code[position]? = some opcode.encode)
    (argument : if opcode.hasOperand then
      setting.program.code[position + 1]? = some operand else operand = 0)
    (isQuiet : opcode.isQuiet = true)
    (performs : ∀ ready,
      Runs setting (position + opcode.size) activity ready →
      Ends (MachineM.perform (Int32.ofNat position) opcode operand ready)
        (fun _ => LogicMachine.Heads setting.Stays turning given)
        (fun _ => setting.Stays)) :
    setting.Heads turning given position activity := by
  intro machine runs
  obtain ⟨ready, next, later⟩ := runs.next there argument
  refine .quiet runs.toStays next isQuiet ?_ ?_
  · exact fun after result => MachineM.ends_of_ok (performs ready later) result
  · exact fun fault after result =>
      MachineM.ends_of_error (performs ready later) result

/-- Straight code is followed on the activity. -/
theorem straight {items : List Item}
    (holds : setting.program.Holds place position items)
    (after : activity.ThenAll
      (setting.Heads turning given (position + textSize items)) items) :
    setting.Heads turning given position activity := by
  induction items generalizing position activity with
  | nil => exact after
  | cons item rest ih =>
      rw [textSize_cons, ← Nat.add_assoc] at after
      cases item with
      | plain opcode =>
          obtain ⟨there, others⟩ := holds
          intro machine runs
          have plain := (runs.plain_meets after 0 0).2.1
          refine quiet 0 there ?_ (runs.plain_meets after 0 0).1 ?_ machine runs
          · rw [plain]
            rfl
          · intro ready later
            have size : opcode.size = 1 := by
              rw [Opcode.size, plain]
              rfl
            rw [size] at later
            refine (later.plain_meets after _ _).2.2.imp ?_ (fun _ _ => id)
            rintro _ final ⟨next, held, reached⟩
            exact ih others held final reached
      | operand opcode value =>
          obtain ⟨there, following, others⟩ := holds
          intro machine runs
          have has := (runs.operand_meets after 0).2.1
          refine quiet value there ?_ (runs.operand_meets after 0).1 ?_
            machine runs
          · rw [has]
            exact following
          · intro ready later
            have size : opcode.size = 2 := by
              rw [Opcode.size, has]
              rfl
            rw [size] at later
            refine (later.operand_meets after _).2.2.imp ?_ (fun _ _ => id)
            rintro _ final ⟨next, held, reached⟩
            exact ih others held final reached
      | branch opcode target => cases after
      | mark label => exact ih holds.2 after

theorem branchAlways {target : Label}
    (holds : setting.program.Holds place position
      (.branch .branchAlways target :: rest))
    (next : setting.Heads turning given (place target) activity) :
    setting.Heads turning given position activity := by
  obtain ⟨there, following, -⟩ := holds
  apply quiet _ there following rfl
  intro ready runs
  simp only [MachineM.perform, Context.Ensures.target_eq]
  exact next _ (runs.jumped (place target) ready.program.journal)

theorem branchIf_ends {machine : Machine}
    (runs : Runs setting position activity machine) (equal : Bool)
    {first second : Word} {others : List Word}
    (top : activity.operands = first :: second :: others) (target : Nat)
    (taken : (first == second) = equal →
      setting.Heads turning given target { activity with operands := others })
    (passed : (first == second) ≠ equal →
      setting.Heads turning given position { activity with operands := others }) :
    Ends (MachineM.branchIf equal (.code (Int32.ofNat target)) machine)
      (fun _ => LogicMachine.Heads setting.Stays turning given)
      (fun _ => setting.Stays) := by
  unfold MachineM.branchIf
  rw [ends_bind]
  refine (runs.pop_ends top).imp ?_ (fun _ _ => id)
  rintro left middle ⟨rfl, later⟩
  rw [ends_bind]
  refine (later.pop_ends rfl).imp ?_ (fun _ _ => id)
  rintro right last ⟨rfl, ready⟩
  by_cases compares : (left == right) = equal
  · rw [if_pos compares]
    exact taken compares _ (ready.jumped target last.program.journal)
  · rw [if_neg compares]
    exact passed compares _ ready

/-- A branch that compares the two operands on top. -/
theorem branch (equal : Bool) {target : Label} {first second : Word}
    {others : List Word}
    (holds : setting.program.Holds place position
      (.branch (if equal then .branchEqual else .branchNotEqual) target :: rest))
    (top : activity.operands = first :: second :: others)
    (taken : (first == second) = equal →
      setting.Heads turning given (place target) { activity with operands := others })
    (passed : (first == second) ≠ equal →
      setting.Heads turning given (position + 2)
        { activity with operands := others }) :
    setting.Heads turning given position activity := by
  obtain ⟨there, following, -⟩ := holds
  cases equal with
  | true =>
      apply quiet _ there following rfl
      intro ready runs
      simp only [MachineM.perform, Context.Ensures.target_eq]
      exact branchIf_ends runs true top (place target) taken passed
  | false =>
      apply quiet _ there following rfl
      intro ready runs
      simp only [MachineM.perform, Context.Ensures.target_eq]
      exact branchIf_ends runs false top (place target) taken passed

theorem fail
    (holds : setting.program.Holds place position (.plain .fail :: rest))
    (gives : ∀ machine, Runs setting (position + 1) activity machine →
      given machine) :
    setting.Heads turning given position activity := by
  intro machine runs
  obtain ⟨ready, next, later⟩ := @Runs.next _ _ _ _ _ runs .fail 0 holds.1 rfl
  exact .fail runs.toStays next (gives ready later)

/-- Unifying changes the memory.  If it does not succeed, the branch is given
up. -/
theorem unify {left right : Word} {others : List Word}
    (holds : setting.program.Holds place position (.plain .unify :: rest))
    (top : activity.operands = left :: right :: others)
    (leftPlace : Runs.Places activity left.address)
    (rightPlace : Runs.Places activity right.address)
    (next : ∀ memory, setting.Heads turning given (position + 1)
      { activity with memory, operands := others })
    (gives : ∀ machine, setting.Stays machine → given machine) :
    setting.Heads turning given position activity := by
  intro machine runs
  obtain ⟨ready, isNext, later⟩ :=
    @Runs.next _ _ _ _ _ runs .unify 0 holds.1 rfl
  have unified (fuel : Nat) : Ends (MachineM.unifyTop fuel ready)
      (fun _ after => ∃ memory,
        Runs setting (position + 1) { activity with memory, operands := others }
          after)
      (fun _ => setting.Stays) := by
    simp only [MachineM.unifyTop, ends_bind]
    refine (later.popAddress_ends top).imp ?_ (fun _ _ => id)
    rintro _ middle ⟨rfl, popped⟩
    refine (popped.popAddress_ends rfl).imp ?_ (fun _ _ => id)
    rintro _ last ⟨rfl, both⟩
    exact both.unify_ends fuel leftPlace rightPlace
  refine .unify runs.toStays isNext ?_ ?_ ?_
  · intro fuel after result
    obtain ⟨memory, reached⟩ := MachineM.ends_of_ok (unified fuel) result
    exact next memory after reached
  · intro fuel after result
    obtain ⟨memory, reached⟩ := MachineM.ends_of_ok (unified fuel) result
    exact gives after reached.toStays
  · intro fuel fault after result
    exact MachineM.ends_of_error (unified fuel) result

end Setting.Heads

end LogicMachine
