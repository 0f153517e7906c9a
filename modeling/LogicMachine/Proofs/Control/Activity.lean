import LogicMachine.Proofs.Control.Onward
import LogicMachine.Proofs.Execution.Steps

/-!
# What a running clause works on

An activity is the part of the machine that matters to the code of a clause: the
memory, the stack and the registers.  The stack consists of what was there before
the clause was entered, the slots of the clause and its operands.  The lemmas say
what the actions that instructions are made of do to the activity.  Any of them
may end in a fault instead, with a store that is still tidy.
-/

namespace LogicMachine

variable [Atoms]

structure Activity where
  memory : Store
  environment : Address
  continuation : Address
  cutBase : Address
  /-- The stack below the slots, bottom first. -/
  below : List Word
  locals : List Word
  /-- Newest first. -/
  operands : List Word

namespace Activity

/-- The stack without the operands, bottom first. -/
def frame (activity : Activity) : List Word :=
  activity.below ++ activity.locals

/-- The whole stack, bottom first. -/
def stack (activity : Activity) : List Word :=
  activity.frame ++ activity.operands.reverse

omit [Atoms] in
theorem stack_of_frame {activity : Activity} {index : Nat} {word : Word}
    (found : activity.frame[index]? = some word) :
    activity.stack[index]? = some word := by
  rw [stack, List.getElem?_append_left (List.getElem?_eq_some_iff.mp found).1]
  exact found

/-- The slots are those of the current activation record. -/
def Framed (activity : Activity) : Prop :=
  activity.environment = .stack (Int32.ofInt (activity.below.length - 3))

def push (activity : Activity) (word : Word) : Activity :=
  { activity with operands := word :: activity.operands }

def setLocal (activity : Activity) (index : Nat) (word : Word) : Activity :=
  { activity with locals := activity.locals.set index word }

/-- Overwrites a cell. -/
def write (activity : Activity) (address : Address) (word : Word) : Activity :=
  { activity with memory := activity.memory.put address word }

/-- Claims the heap cells below an index. -/
def raise (activity : Activity) (top : Int32) : Activity :=
  { activity with memory := { activity.memory with heapTop := top } }

/-- The address of a slot. -/
def slot (activity : Activity) (index : Nat) : Address :=
  .stack (Int32.ofNat (activity.below.length + index))

/-- The address of an argument. -/
def argument (activity : Activity) (index : Nat) : Address :=
  .stack (Int32.ofNat (activity.below.length - 3 - index))

omit [Atoms] in
@[simp]
theorem stack_push (activity : Activity) (word : Word) :
    (activity.push word).stack = activity.stack ++ [word] := by
  simp [stack, frame, push]

/-- What is known about a word that was read at an address. -/
structure Finds (activity : Activity) (address : Address) (word : Word) :
    Prop where
  cell : address.OffStack → activity.memory.load address = .ok word
  slot : ∀ index known, address = .stack (Int32.ofNat index) →
    activity.frame[index]? = some known → word = known

/-- What is known about the cell that references lead to from an address. -/
structure Reaches (activity : Activity) (address root : Address) : Prop where
  cell : address.OffStack → activity.memory.Leads address root
  slot : ∀ index known, address = .stack (Int32.ofNat index) →
    activity.frame[index]? = some known → known.Plain →
      ((∀ next, known.cell ≠ .reference next) ∧ root = address) ∨
        ∃ next, known.cell = .reference next ∧ next.OffStack ∧
          activity.memory.Leads next root

end Activity

/-- What stays the same while a clause runs by itself: the program, apart from
what is reported, the collectors and the open choice points.  There is also an
earlier store whose bound cells stay as they were. -/
structure Setting where
  program : Program
  small : program.code.size < 2 ^ 31
  collectors : List (List Word)
  checkpoints : List Checkpoint
  origin : Store

/-- The machine has a tidy store and remembers its choice points. -/
structure Setting.Stays (setting : Setting) (machine : Machine) : Prop where
  program : machine.program =
    { setting.program with journal := machine.program.journal }
  collectors : machine.collectors = setting.collectors
  follows : machine.store.Follows setting.checkpoints []
  tidy : machine.store.Tidy

/-- In addition, the bound cells of the earlier store are as they were. -/
structure Setting.Fits (setting : Setting) (machine : Machine) : Prop
    extends setting.Stays machine where
  persists : setting.origin.Persists machine.store

/-- What is reported does not matter. -/
theorem Setting.Stays.program_journal {setting : Setting} {machine : Machine}
    (stays : setting.Stays machine) (journal : Journal) :
    { machine.program with journal } = { setting.program with journal } :=
  congrArg (fun program : Program => { program with journal }) stays.program

/-- The machine is about to execute the code at a position. -/
structure Runs (setting : Setting) (position : Nat) (activity : Activity)
    (machine : Machine) : Prop extends setting.Fits machine where
  instruction : machine.registers.instruction =
    .code (Int32.ofNat position)
  environment : machine.registers.environment = activity.environment
  continuation : machine.registers.continuation = activity.continuation
  cutBase : machine.registers.cutBase = activity.cutBase
  memory : machine.store.memory = activity.memory
  stacked : machine.store.Stacked activity.stack

namespace Store

omit [Atoms] in
theorem Persists.of_memory {before store later : Store}
    (persists : before.Persists store) (same : later.memory = store.memory) :
    before.Persists later where
  heapTop := by
    show before.heapTop ≤ later.memory.heapTop
    rw [same]
    exact persists.heapTop
  bound := by
    intro index word below found isBound
    have kept : store.memory.load (.heap index) = .ok word :=
      persists.bound below found isBound
    rw [← same] at kept
    exact kept

omit [Atoms] in
/-- Overwriting an unbound variable or a cell that is not in use. -/
theorem Persists.put {before store : Store} (persists : before.Persists store)
    {address : Address} {old : Word} (present : store.load address = .ok old)
    (isOpen : before.Open store address) (value : Word) :
    before.Persists (store.put address value) where
  heapTop := by
    rw [put_heapTop]
    exact persists.heapTop
  bound := by
    intro index word below found isBound
    have kept := persists.bound below found isBound
    rw [load_put present]
    split
    case isTrue same =>
      subst same
      exact absurd (isOpen index rfl below word kept) isBound
    case isFalse => exact kept

omit [Atoms] in
theorem Persists.raise {before store : Store} (persists : before.Persists store)
    {top : Int32} (higher : store.heapTop ≤ top) :
    before.Persists { store with heapTop := top } :=
  ⟨Int32.le_trans persists.heapTop higher, persists.bound⟩

theorem Tidy.memory {store : Store} (tidy : store.Tidy) : store.memory.Tidy where
  cells := by
    intro address word offStack found
    obtain ⟨region, index, rfl⟩ := region_of_load offStack found
    rw [load_memory] at found
    exact tidy.cells offStack found
  saved := nofun
  addressable := ⟨tidy.addressable.heap, tidy.addressable.retained, by
    show (#[] : Array Word).size < 2 ^ 31
    decide⟩
  room := fun region => by
    have room := tidy.room region
    unfold Room at room ⊢
    rwa [top_memory, capacity_memory]

theorem Tidy.withPointer {store : Store} (tidy : store.Tidy) (pointer : Int32) :
    ({ store with pointer } : Store).Tidy :=
  ⟨tidy.cells, tidy.saved,
    ⟨tidy.addressable.heap, tidy.addressable.retained, tidy.addressable.stack⟩,
    fun region => by
      have room := tidy.room region
      cases region <;> exact room⟩

/-- References between cells can be followed in the memory alone. -/
theorem Leads.inMemory {store : Store} (tidy : store.Tidy)
    {address root : Address} (leads : store.Leads address root)
    (offStack : address.OffStack) : store.memory.Leads address root := by
  induction leads with
  | here isRoot =>
      obtain ⟨word, found, ends⟩ := isRoot
      obtain ⟨region, index, rfl⟩ := region_of_load offStack found
      exact .here ⟨word, by rwa [load_memory], ends⟩
  | there found refers different _ ih =>
      obtain ⟨region, index, rfl⟩ := region_of_load offStack found
      refine .there (by rwa [load_memory]) refers different (ih ?_)
      exact Plain.of_cell (tidy.cells offStack found) (.inl refers)

omit [Atoms] in
theorem load_memory_of_offStack {store : Store} {address : Address}
    (offStack : address.OffStack) {word : Word}
    (found : store.load address = .ok word) :
    store.memory.load address = .ok word := by
  obtain ⟨region, index, rfl⟩ := region_of_load offStack found
  rwa [load_memory]

end Store

namespace StoreM

theorem push_tidy (value : Word) : Keeps Store.Tidy (push value) := by
  intro store tidy
  simp only [push, ends_bind, ends_get]
  split
  case isTrue => exact tidy
  case isFalse =>
    have raised := tidy.withPointer (store.pointer + 1)
    simp only [ends_bind, ends_modify, StoreM.store, ends_read]
    split
    case h_2 => exact raised
    case h_1 old found =>
      have present := Store.slot_eq_ok_iff.mp found
      refine raised.overwrite present ?_
      rintro ⟨⟩

end StoreM

namespace Runs

variable {setting : Setting} {position : Nat} {activity : Activity}
  {machine : Machine}

theorem code (runs : Runs setting position activity machine) :
    machine.program.code = setting.program.code := by
  rw [runs.program]

theorem functors (runs : Runs setting position activity machine) :
    machine.program.functors = setting.program.functors := by
  rw [runs.program]

theorem persists_memory (runs : Runs setting position activity machine) :
    setting.origin.Persists activity.memory :=
  runs.memory ▸ runs.persists.of_memory rfl

theorem tidy_memory (runs : Runs setting position activity machine) :
    activity.memory.Tidy :=
  runs.memory ▸ runs.tidy.memory

/-- A changed store with the same registers. -/
theorem withStore (runs : Runs setting position activity machine)
    {store : Store} {later : Activity}
    (follows : store.Follows setting.checkpoints []) (tidy : store.Tidy)
    (memory : store.memory = later.memory)
    (persists : setting.origin.Persists later.memory)
    (stacked : store.Stacked later.stack)
    (environment : later.environment = activity.environment)
    (continuation : later.continuation = activity.continuation)
    (cutBase : later.cutBase = activity.cutBase) :
    Runs setting position later { machine with store } where
  program := runs.program
  collectors := runs.collectors
  follows := follows
  tidy := tidy
  persists := persists.of_memory (by rw [← memory]; rfl)
  instruction := runs.instruction
  environment := environment ▸ runs.environment
  continuation := continuation ▸ runs.continuation
  cutBase := cutBase ▸ runs.cutBase
  memory := memory
  stacked := stacked

theorem stays (runs : Runs setting position activity machine) {store : Store}
    (follows : store.Follows setting.checkpoints []) (tidy : store.Tidy) :
    setting.Stays { machine with store } :=
  ⟨runs.program, runs.collectors, follows, tidy⟩

/-- Another position, and more in the journal. -/
theorem jumped (runs : Runs setting position activity machine) (target : Nat)
    (journal : Journal) :
    Runs setting target activity
      { machine with
        registers := { machine.registers with
          instruction := .code (Int32.ofNat target) }
        program := { machine.program with journal } } where
  program := by
    change { machine.program with journal } =
      { setting.program with journal }
    rw [runs.program]
  collectors := runs.collectors
  follows := runs.follows
  tidy := runs.tidy
  persists := runs.persists
  instruction := rfl
  environment := runs.environment
  continuation := runs.continuation
  cutBase := runs.cutBase
  memory := runs.memory
  stacked := runs.stacked

/-! ## The operands -/

theorem push_ends (runs : Runs setting position activity machine)
    (word : Word) :
    Ends (MachineM.push word machine)
      (fun _ => Runs setting position (activity.push word))
      (fun _ => setting.Stays) := by
  rw [MachineM.push, MachineM.ends_onStore]
  have pushed := StoreM.push_ends runs.stacked runs.tidy.addressable word
  have follows := StoreM.push_keeps word _ runs.follows
  have tidy := StoreM.push_tidy word _ runs.tidy
  refine (pushed.and (follows.and tidy)).imp ?_ fun _ _ kept =>
    runs.stays kept.2.1 kept.2.2
  rintro _ after ⟨⟨stacked, memory, -⟩, stillFollows, stillTidy⟩
  exact runs.withStore stillFollows stillTidy (memory.trans runs.memory)
    runs.persists_memory (by simpa using stacked) rfl rfl rfl

theorem stacked_cons (runs : Runs setting position activity machine)
    {word : Word} {rest : List Word}
    (top : activity.operands = word :: rest) :
    machine.store.Stacked
      (Activity.stack { activity with operands := rest } ++ [word]) := by
  have stacked := runs.stacked
  simp only [Activity.stack, top, List.reverse_cons, ← List.append_assoc]
    at stacked
  exact stacked

theorem peek_ends (runs : Runs setting position activity machine)
    {word : Word} {rest : List Word}
    (top : activity.operands = word :: rest) :
    Ends (MachineM.peek machine)
      (fun found after => found = word ∧ after = machine)
      (fun _ => setting.Stays) := by
  rw [MachineM.peek, MachineM.ends_onStore]
  refine (StoreM.peek_ends (runs.stacked_cons top) runs.tidy.addressable).imp
    ?_ fun _ _ => False.elim
  rintro found after ⟨rfl, rfl⟩
  exact ⟨rfl, rfl⟩

theorem pop_ends (runs : Runs setting position activity machine)
    {word : Word} {rest : List Word}
    (top : activity.operands = word :: rest) :
    Ends (MachineM.pop machine)
      (fun found after => found = word ∧
        Runs setting position { activity with operands := rest } after)
      (fun _ => setting.Stays) := by
  rw [MachineM.pop, MachineM.ends_onStore]
  have popped := StoreM.pop_ends (runs.stacked_cons top) runs.tidy.addressable
  have follows := StoreM.pop_keeps _ runs.follows
  have tidy : Ends (StoreM.pop machine.store) (fun _ => Store.Tidy)
      (fun _ => Store.Tidy) := by
    simp only [StoreM.pop, StoreM.peek, ends_bind, StoreM.ends_read,
      ends_modify]
    split
    · exact runs.tidy.withPointer _
    · exact runs.tidy
  refine (popped.and (follows.and tidy)).imp ?_ fun _ _ kept => kept.1.elim
  rintro found after ⟨⟨rfl, stacked, memory, -⟩, stillFollows, stillTidy⟩
  exact ⟨rfl, runs.withStore stillFollows stillTidy
    (memory.trans runs.memory) runs.persists_memory stacked rfl rfl rfl⟩

theorem popAddress_ends (runs : Runs setting position activity machine)
    {word : Word} {rest : List Word}
    (top : activity.operands = word :: rest) :
    Ends (MachineM.popAddress machine)
      (fun found after => found = word.address ∧
        Runs setting position { activity with operands := rest } after)
      (fun _ => setting.Stays) := by
  simp only [MachineM.popAddress, ends_bind, ends_pure]
  refine (runs.pop_ends top).imp ?_ (fun _ _ => id)
  rintro found after ⟨rfl, later⟩
  exact ⟨rfl, later⟩

/-! ## Reading -/

theorem finds (runs : Runs setting position activity machine)
    {address : Address} {word : Word}
    (found : machine.store.load address = .ok word) :
    activity.Finds address word where
  cell := fun offStack => by
    rw [← runs.memory]
    exact Store.load_memory_of_offStack offStack found
  slot := by
    rintro index known rfl there
    have loaded := runs.stacked.load_eq runs.tidy.addressable
      (Activity.stack_of_frame there)
    rw [loaded] at found
    exact (Except.ok.inj found).symm

theorem load_ends (runs : Runs setting position activity machine)
    (address : Address) :
    Ends (MachineM.load address machine)
      (fun word after => activity.Finds address word ∧ after = machine)
      (fun _ => setting.Stays) := by
  rw [MachineM.load, MachineM.ends_read]
  split
  case h_1 word found => exact ⟨runs.finds found, rfl⟩
  case h_2 => exact runs.toStays

theorem reaches (runs : Runs setting position activity machine)
    {address root : Address} (leads : machine.store.Leads address root) :
    activity.Reaches address root where
  cell := fun offStack => by
    rw [← runs.memory]
    exact leads.inMemory runs.tidy offStack
  slot := by
    rintro index known rfl there plain
    have loaded := runs.stacked.load_eq runs.tidy.addressable
      (Activity.stack_of_frame there)
    cases leads with
    | here isRoot =>
        left
        refine ⟨fun next refers => ?_, rfl⟩
        obtain ⟨word, found, ends⟩ := isRoot
        rw [loaded] at found
        cases found
        have offStack := Store.Plain.of_cell plain (.inl refers)
        rw [ends next refers] at offStack
        exact offStack
    | there found refers _ later =>
        rw [loaded] at found
        cases found
        have offStack := Store.Plain.of_cell plain (.inl refers)
        right
        refine ⟨_, refers, offStack, ?_⟩
        rw [← runs.memory]
        exact later.inMemory runs.tidy offStack

theorem deref_ends (runs : Runs setting position activity machine)
    (address : Address) :
    Ends (MachineM.deref address machine)
      (fun root after => activity.Reaches address root ∧ after = machine)
      (fun _ => setting.Stays) := by
  rw [MachineM.deref, MachineM.ends_read]
  split
  case h_1 root found =>
    exact ⟨runs.reaches (Store.deref_eq_ok_iff.mp found), rfl⟩
  case h_2 => exact runs.toStays

theorem localAddress_ends (runs : Runs setting position activity machine)
    (framed : activity.Framed) (index : UInt32) :
    Ends (MachineM.localAddress index machine)
      (fun found after => found = activity.slot index.toNat ∧ after = machine)
      (fun _ => setting.Stays) := by
  rw [MachineM.localAddress, MachineM.ends_read, Machine.slot,
    runs.environment, framed]
  refine ⟨?_, rfl⟩
  rw [Activity.slot, Shows.toInt32_eq, ← Int32.ofInt_eq_ofNat,
    ← Int32.ofInt_eq_ofNat, show (3 : Int32) = Int32.ofInt 3 from rfl,
    ← Int32.ofInt_add, ← Int32.ofInt_add]
  congr 2
  omega

theorem argument_ends (runs : Runs setting position activity machine)
    (framed : activity.Framed) {index : UInt32}
    (inside : index.toNat + 3 ≤ activity.below.length) :
    Ends (MachineM.argument index machine)
      (fun found after => found = activity.argument index.toNat ∧
        after = machine)
      (fun _ => setting.Stays) := by
  rw [MachineM.argument, MachineM.ends_read, Machine.argument,
    runs.environment, framed]
  refine ⟨?_, rfl⟩
  rw [Activity.argument, Shows.toInt32_eq, ← Int32.ofInt_eq_ofNat,
    ← Int32.ofInt_eq_ofNat, ← Int32.ofInt_neg, ← Int32.ofInt_add]
  congr 2
  omega

/-! ## Writing -/

omit [Atoms] in
theorem stack_setLocal {index : Nat} (inside : index < activity.locals.length)
    (word : Word) :
    activity.stack.set (activity.below.length + index) word =
      (activity.setLocal index word).stack := by
  simp only [Activity.stack, Activity.frame, Activity.setLocal,
    List.append_assoc]
  rw [List.set_append_right _ _ (by omega), Nat.add_sub_cancel_left,
    List.set_append_left _ _ inside]

/-- Storing in a slot. -/
theorem storeLocal_ends (runs : Runs setting position activity machine)
    {index : Nat} (inside : index < activity.locals.length) (word : Word) :
    Ends (MachineM.store (activity.slot index) word machine)
      (fun _ => Runs setting position (activity.setLocal index word))
      (fun _ => setting.Stays) := by
  have length : activity.below.length + index < activity.stack.length := by
    simp only [Activity.stack, Activity.frame, List.length_append]
    omega
  have present := runs.stacked.load_eq runs.tidy.addressable
    (List.getElem?_eq_getElem length)
  have follows := StoreM.store_keeps (activity.slot index) word _ runs.follows
  rw [MachineM.store, MachineM.ends_onStore]
  rw [Activity.slot] at follows ⊢
  rw [StoreM.store_eq present] at follows ⊢
  refine runs.withStore follows (runs.tidy.overwrite present ?_) ?_
    runs.persists_memory ?_ rfl rfl rfl
  · rintro ⟨⟩
  · show _ = activity.memory
    simpa using runs.memory
  · have recorded : (machine.store.record
        (.stack (Int32.ofNat (activity.below.length + index)))
        activity.stack[activity.below.length + index]).Stacked activity.stack :=
      runs.stacked.of_stack rfl rfl
    have written := recorded.set (runs.tidy.record present).addressable length
      word
    rw [stack_setLocal inside] at written
    exact written

/-- Storing in a cell. -/
theorem store_ends (runs : Runs setting position activity machine)
    {address : Address} {word : Word} (offStack : address.OffStack)
    (isOpen : activity.memory.Open activity.memory address)
    (plain : word.Plain) :
    Ends (MachineM.store address word machine)
      (fun _ after => (∃ old, activity.memory.load address = .ok old) ∧
        Runs setting position (activity.write address word) after)
      (fun _ => setting.Stays) := by
  have follows := StoreM.store_keeps address word _ runs.follows
  rw [MachineM.store, MachineM.ends_onStore]
  simp only [StoreM.store, ends_bind, StoreM.ends_read, ends_modify]
    at follows ⊢
  split
  case h_2 => exact runs.toStays
  case h_1 old found =>
    have present := Store.slot_eq_ok_iff.mp found
    simp only [found] at follows
    have inMemory : activity.memory.load address = .ok old := by
      rw [← runs.memory]
      exact Store.load_memory_of_offStack offStack present
    refine ⟨⟨old, inMemory⟩, ?_⟩
    obtain ⟨region, index, rfl⟩ := Store.region_of_load offStack present
    refine runs.withStore follows
      (runs.tidy.overwrite present fun _ => plain) ?_ ?_ ?_ rfl rfl rfl
    · rw [Store.memory_put, Store.memory_record, runs.memory]
      rfl
    · have before := runs.persists_memory
      refine before.put inMemory ?_ word
      exact fun other same below => isOpen other same
        (Int32.lt_of_lt_of_le below before.heapTop)
    · refine runs.stacked.of_stack ?_ ?_
      · simp
      · cases region <;> rfl

/-- Claiming heap cells. -/
theorem raise_ends (runs : Runs setting position activity machine)
    {top : Int32} (higher : activity.memory.heapTop ≤ top)
    (fits : top.toNatClampNeg ≤ activity.memory.heap.size) :
    Ends (MachineM.setHeapTop (.heap top) machine)
      (fun _ => Runs setting position (activity.raise top))
      (fun _ => setting.Stays) := by
  have sameTop : machine.store.heapTop = activity.memory.heapTop := by
    rw [← runs.memory]
    rfl
  have sameHeap : machine.store.heap = activity.memory.heap := by
    rw [← runs.memory]
    rfl
  rw [← sameTop] at higher
  rw [← sameHeap] at fits
  have onward : machine.store.Onward (machine.store.setTop .heap top) :=
    (Store.Onward.refl runs.tidy).setTop higher fits
  refine runs.withStore ?_ onward.tidy ?_ ?_
    (runs.stacked.of_stack rfl rfl) rfl rfl rfl
  · refine runs.follows.of_load rfl (fun _ => rfl) ?_ onward.tidy.addressable
    intro checkpoint member
    have above := runs.follows.above checkpoint member
    exact ⟨Int32.le_trans above.1 higher, above.2⟩
  · show Store.memory _ = { activity.memory with heapTop := top }
    rw [← runs.memory]
    rfl
  · exact runs.persists_memory.raise (sameTop ▸ higher)

/-! ## Unifying and binding -/

/-- Work on terms changes the memory of the activity only. -/
theorem onward (runs : Runs setting position activity machine) {store : Store}
    (onward : machine.store.Onward store)
    (follows : store.Follows setting.checkpoints []) :
    Runs setting position { activity with memory := store.memory }
      { machine with store } :=
  runs.withStore follows onward.tidy rfl
    ((runs.persists.trans onward.persists).of_memory rfl)
    (runs.stacked.of_stack onward.pointer onward.stack) rfl rfl rfl

/-- An address at which the activity has a term. -/
def Places (activity : Activity) (address : Address) : Prop :=
  address.OffStack ∨ ∃ index word, address = .stack (Int32.ofNat index) ∧
    activity.frame[index]? = some word ∧ word.Plain

theorem spot (runs : Runs setting position activity machine)
    {address : Address} (places : Places activity address) :
    machine.store.Spot address := by
  rcases places with offStack | ⟨index, word, rfl, found, plain⟩
  · exact .inl offStack
  · exact .inr ⟨_, word, rfl, runs.stacked.load_eq runs.tidy.addressable
      (Activity.stack_of_frame found), plain⟩

theorem unify_ends (runs : Runs setting position activity machine)
    (fuel : Nat) {left right : Address} (leftPlace : Places activity left)
    (rightPlace : Places activity right) :
    Ends (MachineM.unify fuel left right machine)
      (fun _ after => ∃ memory,
        Runs setting position { activity with memory } after)
      (fun _ => setting.Stays) := by
  rw [MachineM.unify, MachineM.ends_onStore]
  have kept := StoreM.unify_onward runs.tidy machine.program.functors fuel
    (runs.spot leftPlace) (runs.spot rightPlace)
  have follows := StoreM.unify_keeps machine.program.functors fuel left right _
    runs.follows
  refine (kept.and follows).imp ?_ fun _ _ both =>
    runs.stays both.2 both.1.tidy
  rintro _ after ⟨onward, stillFollows⟩
  exact ⟨after.memory, runs.onward onward stillFollows⟩

/-- Binding one of two cells that may be overwritten. -/
theorem bind_ends (runs : Runs setting position activity machine)
    {first second : Address} (firstOff : first.OffStack)
    (secondOff : second.OffStack)
    (firstOpen : setting.origin.Open activity.memory first)
    (secondOpen : setting.origin.Open activity.memory second) :
    Ends (MachineM.bindVariable first second machine)
      (fun _ after => ∃ memory,
        Runs setting position { activity with memory } after)
      (fun _ => setting.Stays) := by
  rw [MachineM.bindVariable, MachineM.ends_onStore]
  have inStore {address : Address} (offStack : address.OffStack)
      (isOpen : setting.origin.Open activity.memory address) :
      setting.origin.Open machine.store address := by
    intro index same below word found
    refine isOpen index same below word ?_
    rw [← runs.memory]
    exact Store.load_memory_of_offStack offStack found
  -- Only the memory of the origin counts, so its stack may be the present one.
  let before : Store :=
    { machine.store with
      heap := setting.origin.heap, heapTop := setting.origin.heapTop }
  have start : before.Onward machine.store :=
    ⟨runs.tidy, rfl, rfl, rfl, runs.persists.heapTop, runs.persists.bound⟩
  have kept := StoreM.bindVariable_onward start machine.program.functors
    (.inl firstOff) (.inl secondOff)
    (fun _ _ _ => ⟨firstOff, inStore firstOff firstOpen⟩)
    (fun _ _ _ _ _ => ⟨secondOff, inStore secondOff secondOpen⟩)
  have follows := StoreM.bindVariable_keeps machine.program.functors first
    second _ runs.follows
  refine (kept.and follows).imp ?_ fun _ _ both =>
    runs.stays both.2 both.1.tidy
  rintro _ after ⟨onward, stillFollows⟩
  have persists : setting.origin.Persists after :=
    ⟨onward.persists.heapTop, onward.persists.bound⟩
  exact ⟨after.memory, runs.withStore stillFollows onward.tidy rfl
    (persists.of_memory rfl)
    (runs.stacked.of_stack onward.pointer onward.stack) rfl rfl rfl⟩

end Runs

end LogicMachine
