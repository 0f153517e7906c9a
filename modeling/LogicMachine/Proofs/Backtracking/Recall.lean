import LogicMachine.Machine.Choice
import LogicMachine.Proofs.Store.Layout

/-!
# What the trail remembers

Replaying a frame gives every recorded cell the word of its oldest record.  A
checkpoint is the machine at the moment a choice point was opened; it can still
see the cells that existed at that moment.  The open frames recall their
checkpoints if undoing them one after another gives back, at each checkpoint,
every word that it can see.
-/

namespace LogicMachine

/-- The contents of a cell after records were replayed, newest first. -/
def recalled : List Record → Address → Except Fault Word → Except Fault Word
  | [], _, current => current
  | record :: older, address, current =>
      recalled older address
        (if record.address = address then .ok record.saved else current)

theorem recalled_append (newer older : List Record) (address : Address)
    (current : Except Fault Word) :
    recalled (newer ++ older) address current =
      recalled older address (recalled newer address current) := by
  induction newer generalizing current with
  | nil => rfl
  | cons record rest ih => exact ih _

theorem recalled_of_forall_ne {records : List Record} {address : Address}
    (different : ∀ record ∈ records, record.address ≠ address)
    (current : Except Fault Word) :
    recalled records address current = current := by
  induction records generalizing current with
  | nil => rfl
  | cons record rest ih =>
      rw [recalled, if_neg (different record List.mem_cons_self)]
      exact ih (fun other member =>
        different other (List.mem_cons_of_mem _ member)) current

/-- Records of other addresses can be left out. -/
theorem recalled_filter {records : List Record} {address : Address}
    {keep : Record → Bool}
    (kept : ∀ record ∈ records, record.address = address →
      keep record = true)
    (current : Except Fault Word) :
    recalled (records.filter keep) address current =
      recalled records address current := by
  induction records generalizing current with
  | nil => rfl
  | cons record rest ih =>
      have tail := ih fun other member =>
        kept other (List.mem_cons_of_mem _ member)
      by_cases same : record.address = address
      · have keeps := kept record List.mem_cons_self same
        rw [List.filter_cons_of_pos keeps]
        exact tail _
      · by_cases keeps : keep record = true
        · rw [List.filter_cons_of_pos keeps]
          exact tail _
        · rw [List.filter_cons_of_neg keeps, tail]
          simp [recalled, same]

/-- A record of the current word stands in for that word. -/
theorem recalled_cons_self (records : List Record) (address : Address)
    (saved : Word) (current : Except Fault Word) :
    recalled (⟨address, saved⟩ :: records) address current =
      recalled records address (.ok saved) := by
  simp [recalled]

theorem recalled_cons_of_ne (records : List Record) {address queried : Address}
    (different : address ≠ queried) (saved : Word)
    (current : Except Fault Word) :
    recalled (⟨address, saved⟩ :: records) queried current =
      recalled records queried current := by
  simp [recalled, different]

/-- A readable cell stays readable. -/
theorem recalled_ok (records : List Record) (address : Address) (word : Word) :
    ∃ other, recalled records address (.ok word) = .ok other := by
  induction records generalizing word with
  | nil => exact ⟨word, rfl⟩
  | cons record older ih =>
      rw [recalled]
      split
      · exact ih record.saved
      · exact ih word

/-- The machine at the moment a choice point was opened, with the alternative
as the next instruction. -/
structure Checkpoint where
  store : Store
  registers : Registers

namespace Checkpoint

/-- The cells that existed when the choice point was opened. -/
def Sees (checkpoint : Checkpoint) : Address → Prop
  | .heap index => index < checkpoint.store.heapTop
  | .retained index => index < checkpoint.store.retainedTop
  | .stack index => index ≤ checkpoint.store.pointer
  | _ => False

/-- The first records of the choice point, newest first. -/
def registerRecords (checkpoint : Checkpoint) : List Record :=
  [⟨.register .choicePointBase, checkpoint.registers.cutBase.pack⟩,
    ⟨.register .stackPointer, (Address.stack checkpoint.store.pointer).pack⟩,
    ⟨.register .topOfHeap, (Address.heap checkpoint.store.heapTop).pack⟩,
    ⟨.register .environment, checkpoint.registers.environment.pack⟩,
    ⟨.register .continuationPointer,
      checkpoint.registers.continuation.pack⟩,
    ⟨.register .instructionPointer, checkpoint.registers.instruction.pack⟩]

theorem registerRecords_address {checkpoint : Checkpoint} {record : Record}
    (member : record ∈ checkpoint.registerRecords) :
    ∃ register, record.address = .register register := by
  simp only [registerRecords, List.mem_cons, List.not_mem_nil,
    or_false] at member
  rcases member with rfl | rfl | rfl | rfl | rfl | rfl <;> exact ⟨_, rfl⟩

theorem recalled_registerRecords (checkpoint : Checkpoint) {address : Address}
    (isCell : ∀ register, address ≠ .register register)
    (current : Except Fault Word) :
    recalled checkpoint.registerRecords address current = current := by
  apply recalled_of_forall_ne
  intro record member same
  obtain ⟨register, isRegister⟩ := registerRecords_address member
  exact isCell register (same.symm.trans isRegister)

end Checkpoint

/-- Undoing the frames one by one gives back what each checkpoint can see. -/
def Recalls (contents : Address → Except Fault Word) :
    List (Frame × Checkpoint) → Prop
  | [] => True
  | (frame, checkpoint) :: older =>
      (∀ address, checkpoint.Sees address →
        recalled frame.records address (contents address) =
          checkpoint.store.load address) ∧
        Recalls
          (fun address => recalled frame.records address (contents address))
          older

/-- Only the cells that some checkpoint sees matter. -/
theorem Recalls.congr {contents others : Address → Except Fault Word}
    {history : List (Frame × Checkpoint)}
    (same : ∀ entry ∈ history, ∀ address, entry.2.Sees address →
      contents address = others address)
    (recalls : Recalls contents history) : Recalls others history := by
  induction history generalizing contents others with
  | nil => trivial
  | cons entry older ih =>
      obtain ⟨frame, checkpoint⟩ := entry
      refine ⟨?_, ih ?_ recalls.2⟩
      · intro address sees
        rw [← same _ List.mem_cons_self address sees]
        exact recalls.1 address sees
      · intro later member address sees
        rw [same later (List.mem_cons_of_mem _ member) address sees]

end LogicMachine
