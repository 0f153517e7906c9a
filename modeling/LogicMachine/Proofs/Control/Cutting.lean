import LogicMachine.Proofs.Arithmetic.Answers
import LogicMachine.Proofs.Control.Calling
import LogicMachine.Proofs.Control.Calls

/-!
# Finding levels and cutting back to them

A level is found by binding a new variable to the atom that spells it.  Cutting
back to a level reads the number again, from an atom or from the slot of a clause.
-/

namespace LogicMachine

namespace Store

variable {store : Store} {table known : FunctorTable} {word : Word}
  {number : Nat}

/-- The number is read from the atom that the word leads to. -/
theorem Denotes.integerAt_eq (denotes : store.Denotes table word number)
    (small : number < 2 ^ 31)
    (numbered : ∀ id functor, known.get? id = some functor →
      table.get? id = some functor)
    {slot : Int32} (loaded : store.load (.stack slot) = .ok word) {value : Int}
    (spelled : store.integerAt known (.stack slot) = .ok (some value)) :
    value = number := by
  obtain ⟨index, content, id, -, refers, found, isAtom, named⟩ := denotes
  obtain ⟨other, functor, ⟨root, last, leads, there, isLast⟩, isKnown, read⟩ :=
    integerAt_eq_some.mp spelled
  have ends : store.IsRoot (.heap index) := ⟨content, found, by simp [isAtom]⟩
  have direct : store.Leads (.stack slot) (.heap index) :=
    .there loaded refers nofun (.here ends)
  cases leads.unique direct
  cases found.symm.trans there
  rw [isAtom] at isLast
  cases isLast
  have same := numbered _ _ (FunctorTable.functor_eq_ok.mp isKnown)
  rw [named] at same
  cases same
  have fits : Arithmetic.Fits (number : Int) := by
    constructor
    · exact Int.le_trans (by decide) (Int.natCast_nonneg number)
    · exact Int.le_trans (Int.le_of_lt (Int.ofNat_lt.mpr small)) (by decide)
  exact Option.some.inj (read.symm.trans (Arithmetic.integer?_toString fits))

end Store

namespace MachineM

variable {machine : Machine}

/-- Unifying a reference to an unbound variable with an integer binds the
variable. -/
theorem ends_unifyInteger_fresh (claimed : 0 ≤ machine.store.heapTop)
    {slot index : Int32} {word : Word}
    (loaded : machine.store.load (.stack slot) = .ok word)
    (below : index < machine.store.heapTop)
    (refers : word.cell = .reference (.heap index))
    (unbound : machine.store.load (.heap index) = .ok word) (value : Int)
    (fuel : Nat) :
    Ends (unifyInteger fuel (.stack slot) (some value) machine)
      (fun success after => success = true →
        after.program.functors = (machine.program.functors.intern
          (.constant (toString value))).2 ∧
        ∃ content, after.store.load (.heap index) = .ok content ∧
          content.cell = .constant (machine.program.functors.intern
            (.constant (toString value))).1)
      (fun _ _ => True) := by
  simp only [unifyInteger, integerWord, unifyWord, pushCells, unify, ends_bind,
    ends_onProgram, ends_onStore, ends_pure, ProgramM.intern, ends_modifyGet]
  refine (StoreM.ends_pushCells_heap claimed).imp ?_ fun _ _ _ => trivial
  rintro cell later ⟨rfl, found, same⟩
  have apart : Address.heap index ≠ .heap machine.store.heapTop := by
    rintro ⟨⟩
    exact Int32.lt_irrefl below
  have there := (same _ apart).trans unbound
  have ends : later.IsRoot (.heap index) :=
    ⟨word, there, fun next isNext => by simpa [refers] using isNext.symm⟩
  have leads : later.Leads (.stack slot) (.heap index) :=
    .there ((same (.stack slot) (by simp)).trans loaded) refers (by simp)
      (.here ends)
  cases fuel with
  | zero => trivial
  | succ fuel =>
      refine (StoreM.ends_unify_constant leads there found (Word.cell_constant _)
        apart (Nat.succ_pos fuel)).imp ?_ fun _ _ impossible => impossible.elim
      intro answer final matched holds
      exact ⟨trivial, matched.bound holds⟩

end MachineM

namespace Library

theorem functor_of_callGoal {functor : Functor}
    (known : .native functor .callGoal ∈ natives) :
    functor = ⟨"$call_goal", 1⟩ := by
  simpa [natives] using known

theorem functor_of_cut {functor : Functor}
    (known : .native functor .cut ∈ natives) : functor = ⟨"$cut", 1⟩ := by
  simpa [natives] using known

theorem functor_of_level {functor : Functor}
    (known : .native functor .level ∈ natives) : functor = ⟨"$level", 1⟩ := by
  simpa [natives] using known

theorem level_of_findsLevel {functor : Functor} {builtin : Builtin}
    (known : .native functor builtin ∈ natives)
    (finds : functor.findsLevel = true) : builtin = .level := by
  cases eq_of_beq finds
  simpa [natives] using known

end Library

variable [Atoms]

/-- The slot that cuts read holds the number of choice points that were open at
the call. -/
theorem Call.Sound.level_barrier {call : Call} (sound : call.Sound)
    (small : call.machine.level < 2 ^ 31) :
    call.barrier.address.offset.toNatClampNeg = call.checkpoints.length := by
  have level : call.machine.level = call.checkpoints.length :=
    sound.follows.level_eq
  rw [Call.barrier, sound.cutBase, Address.address_pack, ← level]
  exact Store.toNatClampNeg_ofNat small

/-- Where a native predicate finds its first argument. -/
theorem Runs.load_argument {setting : Setting} {position : Nat}
    {activity : Activity} {machine : Machine} {call : Call} {desk : Desk}
    (runs : Runs setting position activity machine) (sound : call.Sound)
    (sets : call.Sets desk) (neat : desk.Neat activity) {word : Word}
    (given : call.arguments[0]? = some word) {address : Address}
    (found : machine.argument 0 = .ok address) :
    ∃ slot, address = .stack slot ∧
      machine.store.load (.stack slot) = .ok word := by
  have inside : 0 < call.arguments.length :=
    (List.getElem?_eq_some_iff.mp given).1
  have held : activity.below[activity.below.length - 3 -
      (0 : UInt32).toNat]? = some word := by
    rw [neat.below, sets.below]
    exact (Call.below_argument inside).trans given
  have room : (0 : UInt32).toNat + 3 ≤ activity.below.length := by
    have arity := sound.arity
    have room := sets.sound.room
    rw [sets.arity] at room
    rw [neat.below, UInt32.toNat_zero]
    omega
  have known := runs.argument_ends neat.framed room
  rw [MachineM.argument, MachineM.ends_read, found] at known
  refine ⟨_, known.1, runs.stacked.load_eq runs.tidy.addressable
    (Activity.stack_of_frame ?_)⟩
  rw [Activity.frame, List.getElem?_append_left
    (List.getElem?_eq_some_iff.mp held).1]
  exact held

end LogicMachine
