import LogicMachine.Proofs.Code.Placement
import LogicMachine.Proofs.Execution.Terms

/-!
# What a running clause sees

A view is the part of the machine that the code of a clause works on: the
memory, the slots of its activation record and its operands, with everything
below them.  The words that code computes with are addresses, numbers or words
of terms, and a view tells which.  The lemmas say what the actions that
instructions are made of do to the view.
-/

namespace LogicMachine

/-- A word on the stack with what it is meant to be. -/
inductive Operand where
  /-- The word of a term or a functor. -/
  | word (content : Word)
  | address (target : Address)
  | number (value : UInt64)

namespace Operand

def toWord : Operand → Word
  | .word content => content
  | .address target => target.pack
  | .number value => ⟨value⟩

end Operand

/-- The state of a running clause. -/
structure View where
  memory : Store
  /-- Heap cells that are written but not yet claimed. -/
  pending : List Address
  /-- The stack up to the saved continuation, bottom first. -/
  below : List Word
  locals : List Operand
  /-- Newest first. -/
  operands : List Operand
  continuation : Address
  cutBase : Address

namespace View

/-- The stack without the operands, bottom first. -/
def frame (view : View) : List Word :=
  view.below ++ view.locals.map Operand.toWord

/-- The whole stack, bottom first. -/
def stack (view : View) : List Word :=
  view.frame ++ (view.operands.map Operand.toWord).reverse

def push (view : View) (operand : Operand) : View :=
  { view with operands := operand :: view.operands }

def setLocal (view : View) (index : Nat) (operand : Operand) : View :=
  { view with locals := view.locals.set index operand }

@[simp]
theorem stack_push (view : View) (operand : Operand) :
    (view.push operand).stack = view.stack ++ [operand.toWord] := by
  simp [stack, push, frame]

/-- The word at an address of a cell in use or of the activation record. -/
def Loads (view : View) (address : Address) (word : Word) : Prop :=
  ((address ∈ view.memory.allocated ∨ address ∈ view.pending) ∧
      view.memory.load address = .ok word) ∨
    ∃ index, address = .stack (Int32.ofNat index) ∧
      view.frame[index]? = some word

/-- References lead from one address to another. -/
inductive Leads (view : View) : Address → Address → Prop where
  | here {address word} : view.Loads address word →
      (∀ next, word.cell = .reference next → next = address) →
      Leads view address address
  | there {address word next root} : view.Loads address word →
      word.cell = .reference next → next ≠ address → Leads view next root →
      Leads view address root

/-- Overwrites a cell in use. -/
def write (view : View) (address : Address) (word : Word) : View :=
  { view with memory := view.memory.put address word }

/-- Writes a heap cell that is going to be claimed. -/
def prepare (view : View) (index : Int32) (word : Word) : View :=
  { view with
    memory := view.memory.put (.heap index) word
    pending := .heap index :: view.pending }

/-- Claims the heap cells below an index. -/
def raise (view : View) (top : Int32) : View :=
  { view with memory := { view.memory with heapTop := top }, pending := [] }

/-- The address of a slot. -/
def slot (view : View) (index : Nat) : Address :=
  .stack (Int32.ofNat (view.below.length + index))

/-- The address of an argument. -/
def argument (view : View) (index : Nat) : Address :=
  .stack (Int32.ofNat (view.below.length - 3 - index))

end View

/-- The word may be put at an address: in the retained segment only a constant
is, and only in place of an unbound variable. -/
def Store.Admits (store : Store) (address : Address) (word : Word) : Prop :=
  ∀ index, address = .retained index → index < store.retainedTop ∧
    store.Unbound address ∧ ∃ id, word = .constant id

/-- A store with cells and slots for terms, none of which are out of reach. -/
structure Store.Bears (table : FunctorTable) (store : Store)
    (cells slots lost : Set Address) : Prop where
  terms : store.memory.Terms table cells
  bottom : -1 ≤ store.pointer
  holding : store.Holding table cells slots
  apart : ∀ address ∈ cells, address ∉ lost

/-- A condition on stores that running code keeps. -/
structure Guard (table : FunctorTable) where
  Holds : Store → Prop
  /-- What is left when a fault interrupts an instruction, by the first retained
  cell that was free before. -/
  Rests : Int32 → Store → Prop
  /-- Cells that no term reaches. -/
  lost : Set Address
  rests : ∀ {store : Store}, Holds store → Rests store.retainedTop store
  push : ∀ value, Keeps Holds (StoreM.push value)
  pop : Keeps Holds StoreM.pop
  store : ∀ {store : Store} {address : Address} {value : Word}, Holds store →
    store.Admits address value →
      Ends (StoreM.store address value store) (fun _ => Holds)
        (fun _ => Holds)
  raise : ∀ {store : Store} {top : Int32}, Holds store →
    store.heapTop ≤ top → top.toNatClampNeg ≤ store.heap.size →
      Holds { store with heapTop := top }
  bind : ∀ {cells slots : Set Address} {first second : Address}
    {firstWord secondWord : Word} {store : Store}, Holds store →
    store.Bears table cells slots lost → store.Addressable →
    store.RootAt cells first firstWord → store.RootAt cells second secondWord →
    first ≠ second → (∃ next, secondWord.cell = .reference next) →
      Ends (StoreM.bindVariable table first second store) (fun _ => Holds)
        (fun _ => Rests store.retainedTop)
  unify : ∀ {cells slots : Set Address} {first second : Address}
    {store : Store}, Holds store → store.Bears table cells slots lost →
    store.Addressable → first ∈ cells ∪ slots → second ∈ cells ∪ slots →
    ∀ fuel, Ends (StoreM.unify table fuel first second store)
      (fun _ => Holds) (fun _ => Rests store.retainedTop)

/-- No condition at all. -/
def Guard.trivial (table : FunctorTable) : Guard table where
  Holds := fun _ => True
  Rests := fun _ _ => True
  lost := ∅
  rests := id
  push := fun _ _ _ => by cases StoreM.push _ _ <;> exact True.intro
  pop := fun _ _ => by cases StoreM.pop _ <;> exact True.intro
  store := fun _ _ => by cases StoreM.store _ _ _ <;> exact True.intro
  raise := fun _ _ _ => True.intro
  bind := fun _ _ _ _ _ _ _ => by
    cases StoreM.bindVariable _ _ _ _ <;> exact True.intro
  unify := fun _ _ _ _ _ fuel => by
    cases StoreM.unify _ _ _ _ _ <;> exact True.intro

/-- What stays the same while a clause runs: the program, apart from what is
reported, the collectors, and what is known about the store. -/
structure Context where
  program : Program
  small : program.code.size < 2 ^ 31
  collectors : List (List Word)
  guard : Guard program.functors

/-- The machine still has the program and the collectors of the context. -/
structure Context.Keeps (context : Context) (machine : Machine) : Prop where
  program : machine.program =
    { context.program with journal := machine.program.journal }
  collectors : machine.collectors = context.collectors

/-- The machine is about to execute the code at a position and has a view. -/
structure Shows (context : Context) (position : Nat) (view : View)
    (machine : Machine) : Prop extends context.Keeps machine where
  guarded : context.guard.Holds machine.store
  addressable : machine.store.Addressable
  room : ∀ region, machine.store.Room region
  instruction : machine.registers.instruction =
    .code (Int32.ofNat position)
  environment : machine.registers.environment =
    .stack (Int32.ofInt (view.below.length - 3))
  continuation : machine.registers.continuation = view.continuation
  cutBase : machine.registers.cutBase = view.cutBase
  memory : machine.store.memory = view.memory
  stacked : machine.store.Stacked view.stack

/-- The fault of a full segment. -/
def Exhausts (fault : Fault) (_ : Machine) : Prop :=
  ∃ segment capacity, fault = .exhausted segment capacity

/-- What is known where a fault interrupts an instruction. -/
structure Context.Halts (context : Context) (memory : Store)
    (machine : Machine) : Prop extends context.Keeps machine where
  rests : context.guard.Rests memory.retainedTop machine.store

/-- A full segment interrupts an instruction. -/
def Context.Stops (context : Context) (memory : Store) (fault : Fault)
    (machine : Machine) : Prop :=
  Exhausts fault machine ∧ context.Halts memory machine

namespace Shows

variable {context : Context} {position : Nat} {view : View}
  {machine : Machine}

theorem code (shown : Shows context position view machine) :
    machine.program.code = context.program.code := by
  rw [shown.program]

theorem functors (shown : Shows context position view machine) :
    machine.program.functors = context.program.functors := by
  rw [shown.program]

theorem memory_room (shown : Shows context position view machine)
    (region : Region) : view.memory.Room region := by
  have room := shown.room region
  rw [← shown.memory]
  unfold Store.Room at room ⊢
  rw [Store.top_memory, Store.capacity_memory]
  exact room

/-- The size of the memory is bounded by the size of addresses. -/
theorem memory_capacity (shown : Shows context position view machine)
    (region : Region) : view.memory.capacity region < 2 ^ 31 := by
  rw [← shown.memory, Store.capacity_memory]
  exact shown.addressable.capacity region

theorem stack_bounds (shown : Shows context position view machine) :
    -1 ≤ machine.store.pointer ∧
      machine.store.pointer.toInt < machine.store.stack.size := by
  have small := shown.stacked.small shown.addressable
  have fits := shown.stacked.fits
  have value := Store.toInt_ofInt_pred small
  rw [shown.stacked.pointer, Int32.le_iff_toInt_le, value,
    show (-1 : Int32).toInt = -1 from rfl]
  omega

/-- A fault has changed nothing but the store. -/
theorem halts (shown : Shows context position view machine) {store : Store}
    (rests : context.guard.Rests view.memory.retainedTop store) :
    context.Halts view.memory { machine with store } where
  program := shown.program
  collectors := shown.collectors
  rests := rests

/-- The memory of the view is that of the machine. -/
theorem halted (shown : Shows context position view machine) {after : Machine}
    (halts : context.Halts view.memory after) :
    context.Halts machine.store after := by
  rw [← shown.memory] at halts
  exact ⟨halts.toKeeps, halts.rests⟩

theorem stops (shown : Shows context position view machine) {fault : Fault}
    {after : Machine} (stops : context.Stops view.memory fault after) :
    context.Stops machine.store fault after := by
  exact ⟨stops.1, shown.halted stops.2⟩

/-- What holds of the store is left when a fault comes. -/
theorem rests (shown : Shows context position view machine) {store : Store}
    (holds : context.guard.Holds store)
    (same : store.retainedTop = machine.store.retainedTop) :
    context.guard.Rests view.memory.retainedTop store := by
  have rests := context.guard.rests holds
  rwa [same, ← Store.retainedTop_memory, shown.memory] at rests

/-- A changed store with the same registers. -/
theorem withStore (shown : Shows context position view machine)
    {store : Store} {later : View} (guarded : context.guard.Holds store)
    (addressable : store.Addressable)
    (memory : store.memory = later.memory)
    (room : ∀ region, later.memory.Room region)
    (stacked : store.Stacked later.stack)
    (below : later.below = view.below)
    (continuation : later.continuation = view.continuation)
    (cutBase : later.cutBase = view.cutBase) :
    Shows context position later { machine with store } where
  program := shown.program
  collectors := shown.collectors
  guarded := guarded
  addressable := addressable
  room := by
    intro region
    have fits := room region
    rw [← memory] at fits
    unfold Store.Room at fits ⊢
    rwa [Store.top_memory, Store.capacity_memory] at fits
  instruction := shown.instruction
  environment := below ▸ shown.environment
  continuation := continuation ▸ shown.continuation
  cutBase := cutBase ▸ shown.cutBase
  memory := memory
  stacked := stacked

theorem load_eq (shown : Shows context position view machine)
    {address : Address} {word : Word} (loads : view.Loads address word) :
    machine.store.load address = .ok word := by
  rcases loads with ⟨-, found⟩ | ⟨index, rfl, found⟩
  · rw [← shown.memory] at found
    exact Store.load_of_memory found
  · apply shown.stacked.load_eq shown.addressable
    rw [View.stack, List.getElem?_append_left
      (List.getElem?_eq_some_iff.mp found).1]
    exact found

theorem leads_eq (shown : Shows context position view machine)
    {address root : Address} (leads : view.Leads address root) :
    machine.store.Leads address root := by
  induction leads with
  | here loads ends => exact .here ⟨_, shown.load_eq loads, ends⟩
  | there loads refers different _ ih =>
      exact .there (shown.load_eq loads) refers different ih

/-! ## The operands -/

theorem push_ends (shown : Shows context position view machine)
    (operand : Operand) :
    Ends (MachineM.push operand.toWord machine)
      (fun _ => Shows context position (view.push operand))
      (context.Stops view.memory) := by
  rw [MachineM.push, MachineM.ends_onStore]
  have pushed := StoreM.push_ends shown.stacked shown.addressable
    operand.toWord
  have kept := context.guard.push operand.toWord _ shown.guarded
  refine (pushed.and kept).imp ?_ ?_
  · intro _ after ⟨⟨stacked, memory, addressable⟩, guarded⟩
    exact shown.withStore guarded (addressable shown.addressable)
      (memory.trans shown.memory) shown.memory_room (by simpa using stacked)
      rfl rfl rfl
  · intro fault after ⟨⟨⟨capacity, full⟩, same⟩, guarded⟩
    exact ⟨⟨_, _, full⟩, shown.halts (shown.rests guarded (by rw [same]))⟩

theorem stacked_cons (shown : Shows context position view machine)
    {operand : Operand} {rest : List Operand}
    (top : view.operands = operand :: rest) :
    machine.store.Stacked
      (View.stack { view with operands := rest } ++ [operand.toWord]) := by
  have stacked := shown.stacked
  simp only [View.stack, top, List.map_cons, List.reverse_cons,
    ← List.append_assoc] at stacked
  exact stacked

theorem peek_ends (shown : Shows context position view machine)
    {operand : Operand} {rest : List Operand}
    (top : view.operands = operand :: rest) :
    Ends (MachineM.peek machine)
      (fun found after => found = operand.toWord ∧ after = machine)
      (fun _ _ => False) := by
  rw [MachineM.peek, MachineM.ends_onStore]
  refine (StoreM.peek_ends (shown.stacked_cons top) shown.addressable).imp ?_
    (fun _ _ => id)
  rintro found after ⟨rfl, rfl⟩
  exact ⟨rfl, rfl⟩

theorem pop_ends (shown : Shows context position view machine)
    {operand : Operand} {rest : List Operand}
    (top : view.operands = operand :: rest) :
    Ends (MachineM.pop machine)
      (fun found after => found = operand.toWord ∧
        Shows context position { view with operands := rest } after)
      (fun _ _ => False) := by
  rw [MachineM.pop, MachineM.ends_onStore]
  have popped := StoreM.pop_ends (shown.stacked_cons top) shown.addressable
  have kept := context.guard.pop _ shown.guarded
  refine (popped.and kept).imp ?_ (fun _ _ faulty => faulty.1)
  rintro found after ⟨⟨rfl, stacked, memory, addressable⟩, guarded⟩
  exact ⟨rfl, shown.withStore guarded (addressable shown.addressable)
    (memory.trans shown.memory) shown.memory_room stacked rfl rfl rfl⟩

theorem popAddress_ends (shown : Shows context position view machine)
    {target : Address} {rest : List Operand}
    (top : view.operands = .address target :: rest) :
    Ends (MachineM.popAddress machine)
      (fun found after => found = target ∧
        Shows context position { view with operands := rest } after)
      (fun _ _ => False) := by
  simp only [MachineM.popAddress, ends_bind, ends_pure]
  refine (shown.pop_ends top).imp ?_ (fun _ _ => id)
  rintro found after ⟨rfl, later⟩
  exact ⟨Address.address_pack target, later⟩

/-! ## Reading -/

theorem load_ends (shown : Shows context position view machine)
    {address : Address} {word : Word} (loads : view.Loads address word) :
    Ends (MachineM.load address machine)
      (fun found after => found = word ∧ after = machine)
      (fun _ _ => False) := by
  rw [MachineM.load, MachineM.ends_read, shown.load_eq loads]
  exact ⟨rfl, rfl⟩

theorem deref_ends (shown : Shows context position view machine)
    {address root : Address} (leads : view.Leads address root) :
    Ends (MachineM.deref address machine)
      (fun found after => found = root ∧ after = machine)
      (fun _ _ => False) := by
  rw [MachineM.deref, MachineM.ends_read, (shown.leads_eq leads).deref_eq]
  exact ⟨rfl, rfl⟩

theorem toInt32_eq (index : UInt32) :
    index.toInt32 = Int32.ofNat index.toNat := by
  rw [← UInt32.toInt32_ofNat', UInt32.ofNat_toNat]

theorem localAddress_ends (shown : Shows context position view machine)
    (index : UInt32) :
    Ends (MachineM.localAddress index machine)
      (fun found after => found = view.slot index.toNat ∧ after = machine)
      (fun _ _ => False) := by
  rw [MachineM.localAddress, MachineM.ends_read, Machine.slot,
    shown.environment]
  refine ⟨?_, rfl⟩
  rw [View.slot, toInt32_eq, ← Int32.ofInt_eq_ofNat, ← Int32.ofInt_eq_ofNat,
    show (3 : Int32) = Int32.ofInt 3 from rfl, ← Int32.ofInt_add,
    ← Int32.ofInt_add]
  congr 2
  omega

theorem argument_ends (shown : Shows context position view machine)
    {index : UInt32} (inside : index.toNat + 3 ≤ view.below.length) :
    Ends (MachineM.argument index machine)
      (fun found after => found = view.argument index.toNat ∧ after = machine)
      (fun _ _ => False) := by
  rw [MachineM.argument, MachineM.ends_read, Machine.argument,
    shown.environment]
  refine ⟨?_, rfl⟩
  rw [View.argument, toInt32_eq, ← Int32.ofInt_eq_ofNat,
    ← Int32.ofInt_eq_ofNat, ← Int32.ofInt_neg, ← Int32.ofInt_add]
  congr 2
  omega

/-! ## Writing -/

theorem frame_length (view : View) :
    view.frame.length = view.below.length + view.locals.length := by
  simp [View.frame]

theorem stack_setLocal {view : View} {index : Nat}
    (inside : index < view.locals.length) (operand : Operand) :
    view.stack.set (view.below.length + index) operand.toWord =
      (view.setLocal index operand).stack := by
  simp only [View.stack, View.frame, View.setLocal, List.append_assoc]
  rw [List.set_append_right _ _ (by omega), Nat.add_sub_cancel_left,
    List.set_append_left _ _ (by simpa using inside), List.map_set]

/-- Storing in a slot. -/
theorem storeLocal_ends (shown : Shows context position view machine)
    {index : Nat} (inside : index < view.locals.length) (operand : Operand) :
    Ends (MachineM.store (view.slot index) operand.toWord machine)
      (fun _ => Shows context position (view.setLocal index operand))
      (fun _ _ => False) := by
  have stacked := shown.stacked
  have length : view.below.length + index < view.stack.length := by
    rw [View.stack, List.length_append, frame_length]
    omega
  have present := stacked.load_eq shown.addressable
    (List.getElem?_eq_getElem length)
  have unretained : machine.store.Admits (view.slot index) operand.toWord :=
    nofun
  have kept := context.guard.store shown.guarded unretained
  rw [MachineM.store, MachineM.ends_onStore]
  rw [View.slot] at kept ⊢
  rw [StoreM.store_eq present] at kept ⊢
  have addressable := shown.addressable
  refine shown.withStore kept ?_ ?_ shown.memory_room ?_ rfl rfl rfl
  · apply Store.Addressable.put
    exact ⟨addressable.heap, addressable.retained, addressable.stack⟩
  · show _ = view.memory
    simpa using shown.memory
  · have recorded : (machine.store.record
        (.stack (Int32.ofNat (view.below.length + index)))
        view.stack[view.below.length + index]).Stacked view.stack :=
      stacked.of_stack rfl rfl
    have written := recorded.set
      ⟨addressable.heap, addressable.retained, addressable.stack⟩ length
      operand.toWord
    rw [stack_setLocal inside] at written
    exact written

theorem stacked_put (shown : Shows context position view machine)
    (region : Region) (index : Int32) (old word : Word) :
    ((machine.store.record (region.address index) old).put
      (region.address index) word).Stacked view.stack := by
  refine shown.stacked.of_stack ?_ ?_
  · simp
  · cases region <;> rfl

/-- Storing in a cell that exists. -/
theorem put_shows (shown : Shows context position view machine)
    {region : Region} {index : Int32} {old word : Word} {later : View}
    (found : machine.store.load (region.address index) = .ok old)
    (admits : view.memory.Admits (region.address index) word)
    (memory : later.memory = view.memory.put (region.address index) word)
    (stack : later.stack = view.stack) (below : later.below = view.below)
    (continuation : later.continuation = view.continuation)
    (cutBase : later.cutBase = view.cutBase) :
    Shows context position later
      { machine with
        store := (machine.store.record (region.address index) old).put
          (region.address index) word } := by
  have admitted : machine.store.Admits (region.address index) word := by
    intro place same
    obtain ⟨inUse, ⟨content, loaded, refers⟩, constant⟩ := admits place same
    rw [← shown.memory] at inUse loaded
    exact ⟨inUse, ⟨content, Store.load_of_memory loaded, refers⟩, constant⟩
  have kept := context.guard.store shown.guarded admitted
  rw [StoreM.store_eq found] at kept
  have addressable := shown.addressable
  refine shown.withStore kept ?_ ?_ ?_ ?_ below continuation cutBase
  · apply Store.Addressable.put
    exact ⟨addressable.heap, addressable.retained, addressable.stack⟩
  · rw [Store.memory_put, Store.memory_record, shown.memory, memory]
  · intro other
    rw [memory]
    simpa [Store.Room] using shown.memory_room other
  · rw [stack]
    exact shown.stacked_put region index old word

theorem write_ends (shown : Shows context position view machine)
    {region : Region} {index : Int32} (nonnegative : 0 ≤ index)
    (inUse : index < view.memory.top region) {word : Word}
    (admits : view.memory.Admits (region.address index) word) :
    Ends (MachineM.store (region.address index) word machine)
      (fun _ => Shows context position
        (view.write (region.address index) word))
      (fun _ _ => False) := by
  have present : ∃ old, machine.store.load (region.address index) = .ok old := by
    have room := shown.room region
    have below : index < machine.store.top region := by
      rw [← Store.top_memory, shown.memory]
      exact inUse
    exact Store.exists_load_of_lt room nonnegative below
  obtain ⟨old, found⟩ := present
  rw [MachineM.store, MachineM.ends_onStore, StoreM.store_eq found]
  exact shown.put_shows found admits rfl rfl rfl rfl rfl

/-- Writing a heap cell, if there is room for it. -/
theorem prepare_ends (shown : Shows context position view machine)
    {index : Int32} (nonnegative : 0 ≤ index) (word : Word)
    {regular : Unit → Machine → Prop}
    (stored : index.toNatClampNeg < view.memory.heap.size → ∀ later,
      Shows context position (view.prepare index word) later →
        regular () later) :
    Ends (MachineM.store (.heap index) word machine) regular
      (context.Stops view.memory) := by
  have inside : ¬ index < 0 := Int32.not_lt.mpr nonnegative
  have same : machine.store.heap = view.memory.heap := by
    rw [← shown.memory]
    rfl
  rw [MachineM.store, MachineM.ends_onStore]
  cases found : machine.store.load (.heap index) with
  | ok old =>
      rw [StoreM.store_eq found]
      refine stored ?_ _ (@put_shows _ _ _ _ shown .heap _ _ _ _ found nofun
        rfl rfl rfl rfl rfl)
      rw [← same]
      simp only [Store.load, wordAt?, if_neg inside] at found
      cases there : machine.store.heap[index.toNatClampNeg]? with
      | none =>
          rw [there] at found
          cases found
      | some there' => exact (Array.getElem?_eq_some_iff.mp there).1
  | error fault =>
      have missing : machine.store.slot (.heap index) =
          .error (.exhausted .heap machine.store.heap.size) := by
        simp only [Store.slot, Store.load] at found ⊢
        cases there : wordAt? machine.store.heap index with
        | some word =>
            rw [there] at found
            cases found
        | none => exact if_neg inside
      rw [StoreM.store, ends_bind, StoreM.ends_read, missing]
      exact ⟨⟨_, _, rfl⟩, shown.halts (shown.rests shown.guarded rfl)⟩

/-- Claiming heap cells. -/
theorem raise_ends (shown : Shows context position view machine)
    {top : Int32} (higher : view.memory.heapTop ≤ top)
    (fits : top.toNatClampNeg ≤ view.memory.heap.size) :
    Ends (MachineM.setHeapTop (.heap top) machine)
      (fun _ => Shows context position (view.raise top))
      (fun _ _ => False) := by
  have same : machine.store.heapTop = view.memory.heapTop := by
    rw [← shown.memory]
    rfl
  have addressable := shown.addressable
  have sameHeap : machine.store.heap = view.memory.heap := by
    rw [← shown.memory]
    rfl
  refine shown.withStore
    (context.guard.raise shown.guarded (same ▸ higher) (sameHeap ▸ fits))
    ⟨addressable.heap, addressable.retained, addressable.stack⟩ ?_ ?_ ?_
    rfl rfl rfl
  · show Store.memory _ = { view.memory with heapTop := top }
    rw [← shown.memory]
    rfl
  · intro region
    cases region with
    | heap => exact ⟨Int32.le_trans (shown.memory_room .heap).1 higher, fits⟩
    | retained => exact shown.memory_room .retained
  · exact shown.stacked.of_stack rfl rfl

end Shows

end LogicMachine
