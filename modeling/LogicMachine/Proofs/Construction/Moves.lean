import LogicMachine.Proofs.Matching.Scene

/-!
# Code that has the room it needs

Code that builds terms claims heap cells and uses a few words of the stack.  If
there is room for these, each of its instructions has one effect on the view and
no fault, so a run of it comes to its end.
-/

namespace LogicMachine

namespace StoreM

variable {store : Store} {words : List Word}

/-- Pushing onto a stack that is not full. -/
theorem push_size (stacked : store.Stacked words)
    (addressable : store.Addressable) (value : Word)
    (room : words.length < store.stack.size) :
    Ends (push value store)
      (fun _ after => after.stack.size = store.stack.size)
      (fun _ _ => False) := by
  have small := Nat.lt_trans room addressable.stack
  have next : store.pointer + 1 = Int32.ofNat words.length := by
    rw [stacked.pointer, ofInt_pred_add_one]
  have fits : ¬ (Int32.ofNat words.length < 0 ∨
      store.stack.size ≤ (Int32.ofNat words.length).toNatClampNeg) := by
    have nonnegative := Store.ofNat_nonneg small
    rw [Store.toNatClampNeg_ofNat small, not_or, Int32.not_lt]
    exact ⟨nonnegative, by omega⟩
  have raised : ({ store with pointer := Int32.ofNat words.length } :
      Store).load (.stack (Int32.ofNat words.length)) =
        .ok store.stack[words.length] :=
    (Store.load_stack small).mpr (Array.getElem?_eq_getElem room)
  simp only [push, ends_bind, ends_get, next, if_neg fits, ends_modify,
    store_eq raised, ends_ok]
  simp

theorem pop_size (limit : Nat) :
    Keeps (fun store : Store => store.stack.size = limit) pop := by
  intro store size
  simp only [pop, peek, ends_bind, ends_read]
  split
  · simpa using size
  · exact size

theorem store_size (limit : Nat) (address : Address) (value : Word) :
    Keeps (fun store : Store => store.stack.size = limit)
      (StoreM.store address value) := by
  intro state size
  simp only [StoreM.store, ends_bind, ends_read, ends_modify]
  split
  · simpa using size
  · exact size

end StoreM

/-- The machine has a view and a stack of a given size. -/
structure Hosts (context : Context) (limit : Nat) (position : Nat)
    (view : View) (machine : Machine) : Prop
    extends Shows context position view machine where
  size : machine.store.stack.size = limit

namespace Hosts

variable {context : Context} {limit position : Nat} {view : View}
  {machine : Machine}

theorem push_ends (hosts : Hosts context limit position view machine)
    (operand : Operand) (room : view.stack.length < limit) :
    Ends (MachineM.push operand.toWord machine)
      (fun _ => Hosts context limit position (view.push operand))
      (fun _ _ => False) := by
  have shows := hosts.toShows.push_ends operand
  rw [MachineM.push, MachineM.ends_onStore] at shows ⊢
  have size := StoreM.push_size hosts.stacked hosts.addressable operand.toWord
    (hosts.size ▸ room)
  exact (shows.and size).imp
    (fun _ _ both => ⟨both.1, both.2.trans hosts.size⟩)
    (fun _ _ faulty => faulty.2)

theorem pop_ends (hosts : Hosts context limit position view machine)
    {operand : Operand} {rest : List Operand}
    (top : view.operands = operand :: rest) :
    Ends (MachineM.pop machine)
      (fun found after => found = operand.toWord ∧
        Hosts context limit position { view with operands := rest } after)
      (fun _ _ => False) := by
  have shows := hosts.toShows.pop_ends top
  rw [MachineM.pop, MachineM.ends_onStore] at shows ⊢
  have size := StoreM.pop_size limit machine.store hosts.size
  exact (shows.and size).imp (fun _ _ both => ⟨both.1.1, both.1.2, both.2⟩)
    (fun _ _ faulty => faulty.1)

/-- After a pop there is room for a push. -/
theorem room_of_pop (hosts : Hosts context limit position view machine)
    {operand : Operand} {rest : List Operand}
    (top : view.operands = operand :: rest) :
    (View.stack { view with operands := rest }).length < limit := by
  have fits := (hosts.stacked_cons top).fits
  rw [hosts.size, List.length_append, List.length_singleton] at fits
  exact fits

theorem replace_ends (hosts : Hosts context limit position view machine)
    {operand result : Operand} {rest : List Operand}
    (top : view.operands = operand :: rest) {update : Word → Word}
    (computes : update operand.toWord = result.toWord) :
    Ends ((do MachineM.push (update (← MachineM.pop)) : MachineM Unit) machine)
      (fun _ => Hosts context limit position
        { view with operands := result :: rest })
      (fun _ _ => False) := by
  rw [ends_bind]
  refine (hosts.pop_ends top).imp ?_ (fun _ _ => id)
  rintro found middle ⟨rfl, later⟩
  rw [computes]
  exact later.push_ends result (hosts.room_of_pop top)

/-- Writing a heap cell that exists. -/
theorem prepare_ends (hosts : Hosts context limit position view machine)
    {index : Int32} (nonnegative : 0 ≤ index) (word : Word)
    (fits : index.toNatClampNeg < view.memory.heap.size) :
    Ends (MachineM.store (.heap index) word machine)
      (fun _ => Hosts context limit position (view.prepare index word))
      (fun _ _ => False) := by
  have same : machine.store.heap = view.memory.heap := by
    rw [← hosts.memory]
    rfl
  have present : ∃ old, machine.store.load (.heap index) = .ok old :=
    @Store.exists_load machine.store .heap index nonnegative
      (by rwa [Store.capacity, same])
  obtain ⟨old, found⟩ := present
  rw [MachineM.store, MachineM.ends_onStore, StoreM.store_eq found]
  refine ⟨@Shows.put_shows _ _ _ _ hosts.toShows .heap index old word _ found
    (by rintro _ ⟨⟩) rfl rfl rfl rfl rfl, ?_⟩
  simpa using hosts.size

theorem storeLocal_ends (hosts : Hosts context limit position view machine)
    {index : Nat} (inside : index < view.locals.length) (operand : Operand) :
    Ends (MachineM.store (view.slot index) operand.toWord machine)
      (fun _ => Hosts context limit position (view.setLocal index operand))
      (fun _ _ => False) := by
  have shows := hosts.toShows.storeLocal_ends inside operand
  rw [MachineM.store, MachineM.ends_onStore] at shows ⊢
  have size := StoreM.store_size limit (view.slot index) operand.toWord
    machine.store hosts.size
  exact (shows.and size).imp (fun _ _ both => ⟨both.1, both.2⟩)
    (fun _ _ faulty => faulty.1)

end Hosts

namespace View

/-- What an instruction that has room does to a view. -/
inductive Moves (limit : Nat) : View → Item → View → Prop where
  | duplicate {view : View} {operand : Operand} {rest : List Operand}
      (top : view.operands = operand :: rest)
      (room : view.stack.length < limit) :
      Moves limit view (.plain .duplicate) (view.push operand)
  | load {view : View} {target : Address} {word : Word} {rest : List Operand}
      (top : view.operands = .address target :: rest)
      (loads : view.Loads target word) :
      Moves limit view (.plain .load)
        { view with operands := .word word :: rest }
  | store {view : View} {word : Word} {index : Int32} {rest : List Operand}
      (top : view.operands = .word word :: .address (.heap index) :: rest)
      (nonnegative : 0 ≤ index)
      (fits : index.toNatClampNeg < view.memory.heap.size) :
      Moves limit view (.plain .store)
        (View.prepare { view with operands := rest } index word)
  | tagReference {view : View} {target : Address} {rest : List Operand}
      (top : view.operands = .address target :: rest) :
      Moves limit view (.plain .tagReference)
        { view with operands := .word (.reference target) :: rest }
  | tagCompound {view : View} {target : Address} {rest : List Operand}
      (top : view.operands = .address target :: rest) :
      Moves limit view (.plain .tagCompound)
        { view with operands := .word (.compound target) :: rest }
  | tagList {view : View} {target : Address} {rest : List Operand}
      (top : view.operands = .address target :: rest) :
      Moves limit view (.plain .tagList)
        { view with operands := .word (.list target) :: rest }
  | tagFunctor {view : View} {id : FunctorId} {rest : List Operand}
      (top : view.operands = .number id.index.toUInt64 :: rest) :
      Moves limit view (.plain .tagFunctor)
        { view with operands := .word (.functor id) :: rest }
  | tagConstant {view : View} {id : FunctorId} {rest : List Operand}
      (top : view.operands = .number id.index.toUInt64 :: rest) :
      Moves limit view (.plain .tagConstant)
        { view with operands := .word (.constant id) :: rest }
  | add {view : View} {index : Int32} {count : Nat} {rest : List Operand}
      (top : view.operands =
        .number count.toUInt64 :: .address (.heap index) :: rest)
      (nonnegative : 0 ≤ index) (small : count < 2 ^ 31) :
      Moves limit view (.plain .add)
        { view with
          operands := .address (.heap (index + Int32.ofNat count)) :: rest }
  | increment {view : View} {index : Int32} {rest : List Operand}
      (top : view.operands = .address (.heap index) :: rest)
      (nonnegative : 0 ≤ index) :
      Moves limit view (.plain .increment)
        { view with operands := .address (.heap (index + 1)) :: rest }
  | loadHeapTop {view : View} (room : view.stack.length < limit) :
      Moves limit view (.plain .loadHeapTop)
        (view.push (.address (.heap view.memory.heapTop)))
  | storeHeapTop {view : View} {top : Int32} {rest : List Operand}
      (isTop : view.operands = .address (.heap top) :: rest)
      (higher : view.memory.heapTop ≤ top)
      (fits : top.toNatClampNeg ≤ view.memory.heap.size) :
      Moves limit view (.plain .storeHeapTop)
        (View.raise { view with operands := rest } top)
  | loadConstant {view : View} (value : UInt32)
      (room : view.stack.length < limit) :
      Moves limit view (.operand .loadConstant value)
        (view.push (.number value.toUInt64))
  | loadLocal {view : View} {slot : Local} {operand : Operand}
      (small : slot.index < 2 ^ 31)
      (found : view.locals[slot.index]? = some operand)
      (room : view.stack.length < limit) :
      Moves limit view (Item.onLocal .loadLocal slot) (view.push operand)
  | storeLocal {view : View} {slot : Local} {operand : Operand}
      {rest : List Operand} (small : slot.index < 2 ^ 31)
      (top : view.operands = operand :: rest)
      (inside : slot.index < view.locals.length) :
      Moves limit view (Item.onLocal .storeLocal slot)
        (View.setLocal { view with operands := rest } slot.index operand)

/-- What code that has room does to a view. -/
inductive Runs (limit : Nat) : View → List Item → View → Prop where
  | nil (view : View) : Runs limit view [] view
  | cons {view middle last : View} {item : Item} {rest : List Item}
      (moves : Moves limit view item middle)
      (runs : Runs limit middle rest last) : Runs limit view (item :: rest) last

theorem Runs.append {limit : Nat} {view middle last : View}
    {items more : List Item} (first : Runs limit view items middle)
    (second : Runs limit middle more last) :
    Runs limit view (items ++ more) last := by
  induction first with
  | nil => exact second
  | cons moves _ ih => exact .cons moves (ih second)

end View

namespace Hosts

variable {context : Context} {limit position : Nat} {view later : View}
  {machine : Machine}

/-- An instruction that has room takes effect. -/
theorem perform_plain (hosts : Hosts context limit position view machine)
    {opcode : Opcode} (moves : View.Moves limit view (.plain opcode) later)
    (origin : Int32) (operand : UInt32) :
    opcode.isOrdinary = true ∧ opcode.hasOperand = false ∧
      Ends (MachineM.perform origin opcode operand machine)
        (fun _ => Hosts context limit position later) (fun _ _ => False) := by
  cases moves with
  | duplicate top room =>
      refine ⟨rfl, rfl, ?_⟩
      simp only [MachineM.perform, ends_bind]
      refine (hosts.peek_ends top).imp ?_ (fun _ _ => id)
      rintro found middle ⟨rfl, rfl⟩
      exact hosts.push_ends _ room
  | load top loads =>
      refine ⟨rfl, rfl, ?_⟩
      simp only [MachineM.perform, MachineM.popAddress, ends_bind, ends_pure]
      refine (hosts.pop_ends top).imp ?_ (fun _ _ => id)
      rintro _ middle ⟨rfl, later⟩
      rw [Operand.toWord, Address.address_pack]
      refine (later.load_ends loads).imp ?_ (fun _ _ => id)
      rintro found same ⟨rfl, rfl⟩
      exact later.push_ends (.word found) (hosts.room_of_pop top)
  | @store word index rest top nonnegative fits =>
      refine ⟨rfl, rfl, ?_⟩
      simp only [MachineM.perform, MachineM.popAddress, ends_bind, ends_pure]
      refine (hosts.pop_ends top).imp ?_ (fun _ _ => id)
      rintro _ middle ⟨rfl, later⟩
      refine (later.pop_ends rfl).imp ?_ (fun _ _ => id)
      rintro _ last ⟨rfl, ready⟩
      have target : (Operand.address (.heap index)).toWord.address =
          .heap index := Address.address_pack _
      rw [target]
      exact ready.prepare_ends nonnegative _ fits
  | tagReference top =>
      exact ⟨rfl, rfl, hosts.replace_ends top (Address.withTag_pack _ _)⟩
  | tagCompound top =>
      exact ⟨rfl, rfl, hosts.replace_ends top (Address.withTag_pack _ _)⟩
  | tagList top =>
      exact ⟨rfl, rfl, hosts.replace_ends top (Address.withTag_pack _ _)⟩
  | tagFunctor top =>
      exact ⟨rfl, rfl, hosts.replace_ends top (Word.withTag_number _ _)⟩
  | tagConstant top =>
      exact ⟨rfl, rfl, hosts.replace_ends top (Word.withTag_number _ _)⟩
  | @add index count rest top nonnegative small =>
      refine ⟨rfl, rfl, ?_⟩
      simp only [MachineM.perform, ends_bind]
      refine (hosts.pop_ends top).imp ?_ (fun _ _ => id)
      rintro _ middle ⟨rfl, later⟩
      refine (later.pop_ends rfl).imp ?_ (fun _ _ => id)
      rintro _ last ⟨rfl, ready⟩
      have sum : (⟨count.toUInt64 + (Address.heap index).pack.bits⟩ : Word) =
          (Address.heap (index + Int32.ofNat count)).pack :=
        @Region.pack_add .heap index count nonnegative small
      change Ends (MachineM.push
        ⟨count.toUInt64 + (Address.heap index).pack.bits⟩ last) _ _
      rw [sum]
      exact ready.push_ends (.address _) (later.room_of_pop rfl)
  | @increment index rest top nonnegative =>
      have counted := @Region.pack_add .heap index 1 nonnegative (by decide)
      rw [UInt64.add_comm] at counted
      exact ⟨rfl, rfl, @replace_ends _ _ _ _ _ hosts _
        (.address (.heap (index + 1))) _ top (fun word => ⟨word.bits + 1⟩)
        counted⟩
  | loadHeapTop room =>
      have same : machine.store.heapTop = view.memory.heapTop := by
        rw [← hosts.memory]
        rfl
      refine ⟨rfl, rfl, ?_⟩
      simp only [MachineM.perform, ends_bind, ends_get, Machine.register, same]
      exact hosts.push_ends (.address _) room
  | storeHeapTop isTop higher fits =>
      refine ⟨rfl, rfl, ?_⟩
      simp only [MachineM.perform, MachineM.popAddress, ends_bind, ends_pure]
      refine (hosts.pop_ends isTop).imp ?_ (fun _ _ => id)
      rintro _ middle ⟨rfl, later⟩
      rw [Operand.toWord, Address.address_pack]
      exact ⟨later.raise_ends higher fits, later.size⟩

theorem perform_operand (hosts : Hosts context limit position view machine)
    {opcode : Opcode} {operand : UInt32}
    (moves : View.Moves limit view (.operand opcode operand) later)
    (origin : Int32) :
    opcode.isOrdinary = true ∧ opcode.hasOperand = true ∧
      Ends (MachineM.perform origin opcode operand machine)
        (fun _ => Hosts context limit position later) (fun _ _ => False) := by
  generalize same : Item.operand opcode operand = item at moves
  cases moves with
  | loadConstant value room =>
      cases same
      exact ⟨rfl, rfl, hosts.push_ends (.number _) room⟩
  | @loadLocal slot value small found room =>
      cases same
      have loads : view.Loads (view.slot slot.index) value.toWord :=
        .inr ⟨_, rfl, View.frame_slot found⟩
      refine ⟨rfl, rfl, ?_⟩
      simp only [MachineM.perform, ends_bind]
      refine (hosts.localAddress_ends _).imp ?_ (fun _ _ => id)
      rintro _ middle ⟨rfl, rfl⟩
      rw [View.toNat_toUInt32 small]
      refine (hosts.load_ends loads).imp ?_ (fun _ _ => id)
      rintro _ middle ⟨rfl, rfl⟩
      exact hosts.push_ends value room
  | storeLocal small top inside =>
      cases same
      refine ⟨rfl, rfl, ?_⟩
      simp only [MachineM.perform, ends_bind]
      refine (hosts.pop_ends top).imp ?_ (fun _ _ => id)
      rintro _ middle ⟨rfl, later⟩
      refine (later.localAddress_ends _).imp ?_ (fun _ _ => id)
      rintro _ last ⟨rfl, rfl⟩
      rw [View.toNat_toUInt32 small]
      exact later.storeLocal_ends inside _
  | _ => cases same

theorem jumped (hosts : Hosts context limit position view machine)
    (target : Nat) (journal : Journal) :
    Hosts context limit target view
      { machine with
        registers := { machine.registers with
          instruction := .code (Int32.ofNat target) }
        program := { machine.program with journal } } :=
  ⟨hosts.toShows.jumped target journal, hosts.size⟩

/-- The next instruction is executed if it has room. -/
theorem step (hosts : Hosts context limit position view machine)
    {opcode : Opcode} {operand : UInt32}
    (there : context.program.code[position]? = some opcode.encode)
    (argument : if opcode.hasOperand then
      context.program.code[position + 1]? = some operand else operand = 0)
    (ordinary : opcode.isOrdinary = true)
    (performs : ∀ ready,
      Hosts context limit (position + opcode.size) view ready →
        Ends (MachineM.perform (Int32.ofNat position) opcode operand ready)
          (fun _ => Hosts context limit (position + opcode.size) later)
          (fun _ _ => False)) :
    ∃ after, Hosts context limit (position + opcode.size) later after ∧
      ∀ fuel, MachineM.step fuel machine = .ok .running after := by
  have code := hosts.code
  have next := Machine.next_fetched (by rw [code]; exact context.small)
    hosts.instruction (by rwa [code]) (by rwa [code])
  have ready : Hosts context limit (position + opcode.size) view
      (machine.fetched position opcode operand) :=
    hosts.jumped (position + opcode.size) (machine.program.journal.add
      (.stepped (Int32.ofNat position) opcode operand))
  have ends := performs _ ready
  generalize machine.fetched position opcode operand = start at next ends
  cases performed : MachineM.perform (Int32.ofNat position) opcode operand
      start with
  | error fault after =>
      rw [performed] at ends
      exact ends.elim
  | ok result after =>
      rw [performed] at ends
      refine ⟨after, ends, fun fuel => ?_⟩
      rw [next.step, MachineM.execute_ordinary ordinary]
      simp only [bind, EStateM.bind, performed]
      rfl

/-- Code that has room is executed to its end. -/
theorem runs {items : List Item}
    (runs : View.Runs limit view items later)
    (hosts : Hosts context limit position view machine)
    {place : Label → Nat}
    (holds : context.program.Holds place position items) :
    ∃ after, Hosts context limit (position + textSize items) later after ∧
      ∀ more, MachineM.run (items.length + more) machine =
        MachineM.run more after := by
  induction runs generalizing position machine with
  | nil view =>
      refine ⟨machine, hosts, fun more => ?_⟩
      rw [List.length_nil, Nat.zero_add]
  | @cons view middle last item rest moves _ ih =>
      have one : ∃ after,
          Hosts context limit (position + item.codeWords.length) middle after ∧
            context.program.Holds place (position + item.codeWords.length)
              rest ∧
            ∀ fuel, MachineM.step fuel machine = .ok .running after := by
        cases item with
        | plain opcode =>
            obtain ⟨there, others⟩ := holds
            obtain ⟨ordinary, none, -⟩ := hosts.perform_plain moves 0 0
            have size : opcode.size = 1 := by
              rw [Opcode.size, none]
              rfl
            obtain ⟨after, reached, steps⟩ := hosts.step there
              (by rw [none]; rfl) ordinary
              (fun ready there => (there.perform_plain moves _ 0).2.2)
            rw [size] at reached
            exact ⟨after, reached, others, steps⟩
        | operand opcode value =>
            obtain ⟨there, following, others⟩ := holds
            obtain ⟨ordinary, has, -⟩ := hosts.perform_operand moves 0
            have size : opcode.size = 2 := by
              rw [Opcode.size, has]
              rfl
            obtain ⟨after, reached, steps⟩ := hosts.step there
              (by rw [has]; exact following) ordinary
              (fun ready there => (there.perform_operand moves _).2.2)
            rw [size] at reached
            exact ⟨after, reached, others, steps⟩
        | branch opcode target => cases moves
        | mark label => cases moves
      obtain ⟨after, reached, others, steps⟩ := one
      obtain ⟨final, ended, rest⟩ := ih reached others
      refine ⟨final, ?_, fun more => ?_⟩
      · rw [textSize_cons, ← Nat.add_assoc]
        exact ended
      · rw [List.length_cons, Nat.add_right_comm, MachineM.run]
        simp only [bind, EStateM.bind, steps]
        exact rest more

end Hosts

end LogicMachine
