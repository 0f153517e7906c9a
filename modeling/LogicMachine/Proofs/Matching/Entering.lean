import LogicMachine.Proofs.Matching.Crossing
import LogicMachine.Proofs.Matching.Opening
import LogicMachine.Proofs.Matching.Reporting

/-!
# Entering a clause

A clause is entered with its arguments on the stack.  Its first instruction
saves the caller's registers above them and makes room for the slots.
-/

namespace LogicMachine

namespace StoreM

variable {store : Store} {words more : List Word}

theorem Restacked.trans {middle after : Store}
    (first : Restacked store words middle)
    (second : Restacked middle more after) : Restacked store more after :=
  ⟨second.1, second.2.1.trans first.2.1,
    fun addressable => second.2.2 (first.2.2 addressable)⟩

/-- The stack is full, and a condition on the store is kept. -/
def Overflows (holds : Store → Prop) (store : Store) (fault : Fault)
    (after : Store) : Prop :=
  (∃ capacity, fault = .exhausted .stack capacity) ∧
    after.memory = store.memory ∧ holds after

section Guarded

variable {holds : Store → Prop} (pushes : ∀ value, Keeps holds (push value))

include pushes

theorem push_guarded (stacked : store.Stacked words)
    (addressable : store.Addressable) (guarded : holds store) (value : Word) :
    Ends (push value store)
      (fun _ after => Restacked store (words ++ [value]) after ∧ holds after)
      (Overflows holds store) := by
  refine ((push_ends stacked addressable value).and
    (pushes value store guarded)).imp (fun _ _ => id) ?_
  rintro fault after ⟨⟨full, rfl⟩, kept⟩
  exact ⟨full, rfl, kept⟩

theorem pushZeros_ends (count : Nat) (stacked : store.Stacked words)
    (addressable : store.Addressable) (guarded : holds store) :
    Ends (pushZeros count store)
      (fun _ after => Restacked store (words ++ List.replicate count .zero)
        after ∧ holds after)
      (Overflows holds store) := by
  induction count generalizing store words with
  | zero =>
      rw [List.replicate_zero, List.append_nil]
      exact ⟨⟨stacked, rfl, id⟩, guarded⟩
  | succ count ih =>
      simp only [pushZeros, ends_bind]
      refine (push_guarded pushes stacked addressable guarded .zero).imp ?_
        (fun _ _ => id)
      rintro _ middle ⟨pushed, kept⟩
      refine (ih pushed.1 (pushed.2.2 addressable) kept).imp ?_ ?_
      · rintro _ after ⟨filled, holding⟩
        rw [List.append_assoc, List.singleton_append, ← List.replicate_succ]
          at filled
        exact ⟨pushed.trans filled, holding⟩
      · rintro fault after ⟨full, memory, holding⟩
        exact ⟨full, memory.trans pushed.2.1, holding⟩

end Guarded

end StoreM

/-- Only the stack was in the way. -/
def MachineM.Overflows (holds : Store → Prop) (machine : Machine)
    (fault : Fault) (after : Machine) : Prop :=
  after.program = machine.program ∧ after.collectors = machine.collectors ∧
    StoreM.Overflows holds machine.store fault after.store

theorem MachineM.enterClause_ends {holds : Store → Prop}
    (pushes : ∀ value, Keeps holds (StoreM.push value)) {machine : Machine}
    {words : List Word} (stacked : machine.store.Stacked words)
    (addressable : machine.store.Addressable) (guarded : holds machine.store)
    (count : Nat) :
    Ends (MachineM.enterClause count machine)
      (fun _ after =>
        after = { machine with
          store := after.store
          registers := { machine.registers with
            environment := .stack machine.store.pointer } } ∧
        StoreM.Restacked machine.store
          (words ++ [machine.registers.environment.pack,
              machine.registers.continuation.pack] ++
            List.replicate count .zero) after.store ∧
        holds after.store)
      (Overflows holds machine) := by
  simp only [MachineM.enterClause, ends_bind, ends_get, MachineM.setRegisters,
    ends_modify, MachineM.push, MachineM.ends_onStore]
  refine (StoreM.push_guarded pushes stacked addressable guarded _).imp ?_
    fun _ _ full => ⟨rfl, rfl, full⟩
  rintro _ first ⟨saved, kept⟩
  refine (StoreM.push_guarded pushes saved.1 (saved.2.2 addressable) kept
    _).imp ?_ fun fault _ full =>
      ⟨rfl, rfl, full.1, full.2.1.trans saved.2.1, full.2.2⟩
  rintro _ second ⟨both, still⟩
  have usable := both.2.2 (saved.2.2 addressable)
  have upto := saved.trans both
  refine (StoreM.pushZeros_ends pushes count both.1 usable still).imp ?_
    fun fault _ full =>
      ⟨rfl, rfl, full.1, full.2.1.trans upto.2.1, full.2.2⟩
  rintro _ third ⟨filled, holding⟩
  rw [List.append_assoc words] at filled
  exact ⟨trivial, upto.trans filled, holding⟩

/-- The condition holds of a store, and no term reaches the cells that are out
of reach, which are retained ones. -/
structure Guard.Minds {table : FunctorTable} (guard : Guard table)
    (store : Store) (cells : Set Address) : Prop where
  holds : guard.Holds store
  apart : ∀ address ∈ cells, address ∉ guard.lost
  behind : ∀ address ∈ guard.lost, ∃ index,
    address = .retained index ∧ address ∈ store.memory.allocated

theorem Guard.trivial_minds (table : FunctorTable) (store : Store)
    (cells : Set Address) : (Guard.trivial table).Minds store cells where
  holds := True.intro
  apart := fun _ _ => id
  behind := fun _ => False.elim

/-- The machine is about to enter the clause at a position.  Words for its
arguments are on the stack, the first one on top. -/
structure Machine.Awaits (machine : Machine) (entry : Nat) (words : List Word)
    (cells : Set Address) : Prop where
  small : machine.program.code.size < 2 ^ 31
  consistent : machine.program.functors.Consistent
  addressable : machine.store.Addressable
  room : ∀ region, machine.store.Room region
  instruction : machine.registers.instruction = .code (Int32.ofNat entry)
  stacked : ∃ under, machine.store.Stacked (under ++ words.reverse)
  terms : machine.store.memory.Terms machine.program.functors cells
  arguments : ∀ word ∈ words,
    word.IsTerm machine.program.functors machine.store.memory cells

namespace Machine.Awaits

variable {machine : Machine} {entry : Nat} {words : List Word}
  {cells : Set Address}

def context (awaits : machine.Awaits entry words cells)
    (guard : Guard machine.program.functors) : Context where
  program := machine.program
  small := awaits.small
  collectors := machine.collectors
  guard := guard

/-- The stack below the slots. -/
def below (machine : Machine) (under words : List Word) : List Word :=
  under ++ words.reverse ++ [machine.registers.environment.pack,
    machine.registers.continuation.pack]

/-- What the clause sees when it has been entered. -/
def entered (machine : Machine) (under words : List Word) (count : Nat) :
    View where
  memory := machine.store.memory
  pending := []
  below := below machine under words
  locals := List.replicate count (.word .zero)
  operands := []
  continuation := machine.registers.continuation
  cutBase := machine.registers.cutBase

theorem stack_entered (under : List Word) (count : Nat) :
    (entered machine under words count).stack =
      under ++ words.reverse ++ [machine.registers.environment.pack,
        machine.registers.continuation.pack] ++
          List.replicate count .zero := by
  simp [View.stack, View.frame, entered, below, Operand.toWord]

/-- Setting up the activation record. -/
theorem ensures (awaits : machine.Awaits entry words cells)
    {under : List Word}
    (stacked : machine.store.Stacked (under ++ words.reverse))
    {place : Label → Nat} {count arity : Nat} {body : List Item}
    (holds : machine.program.Holds place entry
      (Assembler.clauseText count arity body)) (few : count < 2 ^ 31)
    {guard : Guard machine.program.functors} (guarded : guard.Holds machine.store)
    {fuels : Set Nat} {stop : Nat} (below : entry < stop) {hopeless : Prop}
    {endless : Nat → Store → Prop} {goal : Machine → Prop}
    (closes : Closes (awaits.context guard) fuels stop hopeless endless goal)
    (next : (awaits.context guard).Ensures goal (entry + 2)
      (entered machine under words count)) : goal machine := by
  have there : machine.program.code[entry]? = some Opcode.allocate.encode :=
    holds.1
  have step := Machine.next_fetched awaits.small awaits.instruction there
    holds.2.1
  apply closes.quiet below ⟨rfl, rfl⟩ guarded step rfl
  have value : count.toUInt32.toNat = count := View.toNat_toUInt32 few
  simp only [MachineM.perform, value]
  refine (@MachineM.enterClause_ends _ guard.push (machine.fetched entry
    .allocate count.toUInt32) _ stacked awaits.addressable guarded count).imp ?_
      ?_
  case refine_2 =>
    rintro fault after ⟨program, collectors, ⟨capacity, full⟩, memory, kept⟩
    refine ⟨⟨_, capacity, full⟩, ⟨?_, collectors⟩, ?_⟩
    · rw [program]
      rfl
    · have rests := guard.rests kept
      rwa [← Store.retainedTop_memory, memory] at rests
  rintro _ after ⟨isAfter, ⟨restacked, memory, addressable⟩, kept⟩
  have sameMemory : after.store.memory = machine.store.memory := memory
  apply next
  rw [isAfter]
  refine ⟨⟨rfl, rfl⟩, kept, addressable awaits.addressable, ?_, rfl, ?_, rfl,
    rfl, memory, ?_⟩
  · intro region
    have room := awaits.room region
    unfold Store.Room at room ⊢
    rw [← Store.top_memory, ← Store.capacity_memory] at room ⊢
    rw [← sameMemory] at room
    exact room
  · show Address.stack machine.store.pointer = _
    rw [stacked.pointer]
    congr 2
    simp only [entered, Awaits.below, List.length_append, List.length_cons,
      List.length_nil]
    omega
  · rw [stack_entered]
    exact restacked

end Machine.Awaits

end LogicMachine
