import LogicMachine.Machine.Step
import LogicMachine.Proofs.Backtracking.Choice

/-!
# Backtracking restores exactly

A choice point stays open while instructions are executed, terms are built and
unified, and newer choice points are opened, undone and committed.  Whatever
happened in between, going back to it gives the machine that it was opened on.
The one thing that could go wrong is a heap top that was set below the cells of
the choice point, because newly claimed cells are not recorded.
-/

namespace LogicMachine

/-- What can be done to a machine. -/
inductive Operation where
  /-- Executes the next instruction. -/
  | instruction (steps : Nat)
  | push (value : Word)
  | pop
  | store (address : Address) (value : Word)
  | bindVariable (first second : Address)
  | unify (steps : Nat) (left right : Address)
  | copyTerm (root : Word) (region : Region) (mode : CopyMode)
  | pushCells (region : Region) (words : List Word)
  | call (entry : UInt32)
  | choicePoint (next : UInt32)
  | backtrack
  | cut (level : Nat)

namespace Operation

def perform : Operation → MachineM Unit
  | instruction steps => discard (MachineM.step steps)
  | push value => MachineM.push value
  | pop => discard MachineM.pop
  | store address value => MachineM.store address value
  | bindVariable first second => MachineM.bindVariable first second
  | unify steps left right => discard (MachineM.unify steps left right)
  | copyTerm root region mode => discard (MachineM.copyTerm root region mode)
  | pushCells region words => discard (MachineM.pushCells region words)
  | call entry => MachineM.call entry
  | choicePoint next => MachineM.choicePoint next
  | backtrack => discard MachineM.backtrack
  | cut level => MachineM.cut level

/-- The machine after an operation, whether it ended in a fault or not. -/
def after (operation : Operation) (machine : Machine) : Machine :=
  match operation.perform machine with
  | .ok _ final => final
  | .error _ final => final

end Operation

namespace Machine

/-- The heap top was not moved below the cells of the newest open frame. -/
def HeapTopKept (before machine : Machine) : Prop :=
  before.store.heapTop ≤ machine.store.heapTop ∨
    ∃ frame rest, machine.store.trail.frames = frame :: rest ∧
      frame.boundary.heap ≤ machine.store.heapTop

/-- Sequences of operations that never go below a level of the trail. -/
inductive Run (level : Nat) : Machine → Machine → Prop where
  | nil (machine : Machine) : Run level machine machine
  | snoc {first last : Machine} (run : Run level first last)
      (operation : Operation)
      (deep : level ≤ (operation.after last).level)
      (kept : last.HeapTopKept (operation.after last)) :
      Run level first (operation.after last)

/-- The frame of a checkpoint is still open, on top of `base`. -/
def Leads (checkpoint : Checkpoint) (base : List Frame) (machine : Machine) :
    Prop :=
  ∃ newer, machine.store.Follows (newer ++ [checkpoint]) base

end Machine

namespace MachineM

section Keep

variable {checkpoints : List Checkpoint} {base : List Frame}

/-- An action that keeps the store of the machine following. -/
abbrev KeepsFollowing (checkpoints : List Checkpoint) (base : List Frame)
    (action : MachineM α) : Prop :=
  Keeps (fun machine => machine.store.Follows checkpoints base) action

theorem read_keeps {query : Machine → Except Fault α}
    {invariant : Machine → Prop} : Keeps invariant (read query) := by
  intro machine holds
  rw [ends_read]
  split <;> exact holds

theorem onStore_keeps {action : FunctorTable → StoreM α}
    (kept : ∀ table, StoreM.KeepsFollowing checkpoints base (action table)) :
    KeepsFollowing checkpoints base (onStore action) := by
  intro machine follows
  rw [ends_onStore]
  exact kept _ _ follows

theorem onProgram_keeps (action : ProgramM α) :
    KeepsFollowing checkpoints base (onProgram action) := by
  intro machine follows
  rw [ends_onProgram]
  cases action machine.program <;> exact follows

theorem setRegisters_keeps (update : Registers → Registers) :
    KeepsFollowing checkpoints base (setRegisters update) :=
  Keeps.modifying fun _ follows => follows

theorem jump_keeps (target : Address) :
    KeepsFollowing checkpoints base (jump target) :=
  setRegisters_keeps _

theorem push_keeps (value : Word) :
    KeepsFollowing checkpoints base (push value) :=
  onStore_keeps fun _ => StoreM.push_keeps value

theorem pop_keeps : KeepsFollowing checkpoints base pop :=
  onStore_keeps fun _ => StoreM.pop_keeps

theorem peek_keeps : KeepsFollowing checkpoints base peek :=
  onStore_keeps fun _ => StoreM.peek_keeps

theorem store_keeps (address : Address) (value : Word) :
    KeepsFollowing checkpoints base (store address value) :=
  onStore_keeps fun _ => StoreM.store_keeps address value

theorem popAddress_keeps : KeepsFollowing checkpoints base popAddress :=
  Keeps.bind pop_keeps fun _ => Keeps.pure _

theorem applyTag_keeps (tag : Tag) :
    KeepsFollowing checkpoints base (applyTag tag) :=
  Keeps.bind pop_keeps fun _ => push_keeps _

theorem pushCells_keeps (region : Region) (words : List Word) :
    KeepsFollowing checkpoints base (pushCells region words) :=
  onStore_keeps fun _ => StoreM.pushCells_keeps region words

theorem bindVariable_keeps (first second : Address) :
    KeepsFollowing checkpoints base (bindVariable first second) :=
  onStore_keeps fun table => StoreM.bindVariable_keeps table first second

theorem unify_keeps (steps : Nat) (left right : Address) :
    KeepsFollowing checkpoints base (unify steps left right) :=
  onStore_keeps fun table => StoreM.unify_keeps table steps left right

theorem copyTerm_keeps (root : Word) (region : Region) (mode : CopyMode) :
    KeepsFollowing checkpoints base (copyTerm root region mode) :=
  onStore_keeps fun table => StoreM.copyTerm_keeps table root region mode

theorem call_keeps (entry : UInt32) :
    KeepsFollowing checkpoints base (call entry) :=
  Keeps.bind Keeps.get fun _ => setRegisters_keeps _

theorem enterClause_keeps (locals : Nat) :
    KeepsFollowing checkpoints base (enterClause locals) := by
  refine Keeps.bind Keeps.get fun _ => Keeps.bind Keeps.get fun _ => ?_
  refine Keeps.bind (setRegisters_keeps _) fun _ => ?_
  refine Keeps.bind (push_keeps _) fun _ => Keeps.bind Keeps.get fun _ => ?_
  refine Keeps.bind (push_keeps _) fun _ => ?_
  exact onStore_keeps fun _ => StoreM.pushZeros_keeps locals

theorem leaveClause_keeps (arity : Nat) :
    KeepsFollowing checkpoints base (leaveClause arity) := by
  refine Keeps.bind Keeps.get fun _ => ?_
  refine Keeps.bind read_keeps fun _ => Keeps.bind read_keeps fun _ => ?_
  refine Keeps.bind (setRegisters_keeps _) fun _ => ?_
  refine Keeps.bind read_keeps fun _ => Keeps.bind read_keeps fun _ => ?_
  refine Keeps.bind (setRegisters_keeps _) fun _ => ?_
  refine Keeps.bind (onStore_keeps fun _ => StoreM.setPointer_keeps _)
    fun _ => ?_
  exact onStore_keeps fun _ => StoreM.popMany_keeps arity

theorem branchIf_keeps (equal : Bool) (target : Address) :
    KeepsFollowing checkpoints base (branchIf equal target) := by
  refine Keeps.bind pop_keeps fun _ => Keeps.bind pop_keeps fun _ => ?_
  split
  · exact setRegisters_keeps _
  · exact Keeps.pure _

theorem reportTrace_keeps (id : FunctorId) (passage : Passage) :
    KeepsFollowing checkpoints base (reportTrace id passage) := by
  refine Keeps.bind Keeps.get fun _ => ?_
  split
  · exact Keeps.bind read_keeps fun _ => onProgram_keeps _
  · exact Keeps.pure _

/-! ## Native predicates -/

theorem unifyWord_keeps (steps : Nat) (region : Region) (address : Address)
    (value : Word) :
    KeepsFollowing checkpoints base (unifyWord steps region address value) :=
  Keeps.bind (pushCells_keeps region [value]) fun _ => unify_keeps steps _ _

theorem unifyInteger_keeps (steps : Nat) (address : Address)
    (value : Option Int) :
    KeepsFollowing checkpoints base (unifyInteger steps address value) := by
  cases value with
  | none => exact Keeps.pure _
  | some value =>
      refine Keeps.bind ?_ fun _ => unifyWord_keeps steps .heap address _
      exact Keeps.bind (onProgram_keeps _) fun _ => Keeps.pure _

theorem callGoal_keeps : KeepsFollowing checkpoints base callGoal := by
  refine Keeps.bind read_keeps fun _ => Keeps.bind read_keeps fun _ => ?_
  refine Keeps.bind read_keeps fun word => ?_
  split
  · refine Keeps.bind read_keeps fun _ => ?_
    refine Keeps.bind (onProgram_keeps _) fun _ => ?_
    exact Keeps.bind (call_keeps _) fun _ => Keeps.pure _
  · refine Keeps.bind read_keeps fun _ => Keeps.bind read_keeps fun _ => ?_
    refine Keeps.bind ?_ fun _ => ?_
    · exact Keeps.forM fun _ _ => Keeps.bind read_keeps fun _ => push_keeps _
    · refine Keeps.bind (onProgram_keeps _) fun _ => ?_
      exact Keeps.bind (call_keeps _) fun _ => Keeps.pure _
  · exact Keeps.pure _

theorem plus_keeps (steps : Nat) :
    KeepsFollowing checkpoints base (plus steps) := by
  refine Keeps.bind read_keeps fun _ => Keeps.bind read_keeps fun _ => ?_
  refine Keeps.bind read_keeps fun _ => Keeps.bind read_keeps fun _ => ?_
  refine Keeps.bind read_keeps fun _ => Keeps.bind read_keeps fun _ => ?_
  split
  · exact unifyInteger_keeps steps _ _
  · exact unifyInteger_keeps steps _ _
  · exact unifyInteger_keeps steps _ _
  · exact Keeps.pure _

theorem compare_keeps (comparison : Comparison) :
    KeepsFollowing checkpoints base (compare comparison) := by
  refine Keeps.bind read_keeps fun _ => Keeps.bind read_keeps fun _ => ?_
  refine Keeps.bind read_keeps fun _ => Keeps.bind read_keeps fun _ => ?_
  split <;> exact Keeps.pure _

theorem collect_keeps (word : Word) :
    KeepsFollowing checkpoints base (collect word) := by
  intro machine follows
  simp only [collect, ends_modifyGet]
  split <;> exact follows

theorem endCollect_keeps : KeepsFollowing checkpoints base endCollect := by
  intro machine follows
  simp only [endCollect, ends_modifyGet]
  split <;> exact follows

theorem retainedList_keeps (ending : Word) (reversed : List Word) :
    KeepsFollowing checkpoints base (retainedList ending reversed) := by
  induction reversed generalizing ending with
  | nil => exact Keeps.pure _
  | cons item rest ih =>
      exact Keeps.bind (pushCells_keeps _ _) fun pair => ih (.list pair)

theorem finishCollecting_keeps (steps : Nat) :
    KeepsFollowing checkpoints base (finishCollecting steps) := by
  refine Keeps.bind endCollect_keeps fun words => ?_
  split
  · exact Keeps.pure _
  · refine Keeps.bind (onProgram_keeps _) fun _ => ?_
    refine Keeps.bind (retainedList_keeps _ _) fun _ => ?_
    exact Keeps.bind read_keeps fun _ => unifyWord_keeps steps .retained _ _

/-- All built-in predicates but the cut keep every checkpoint. -/
theorem runBuiltin_keeps (steps : Nat) {builtin : Builtin}
    (isNoCut : builtin ≠ .cut) :
    KeepsFollowing checkpoints base (runBuiltin steps builtin) := by
  cases builtin with
  | callGoal => exact callGoal_keeps
  | level =>
      refine Keeps.bind read_keeps fun _ => Keeps.bind Keeps.get fun _ => ?_
      exact unifyInteger_keeps steps _ _
  | cut => exact absurd rfl isNoCut
  | number =>
      refine Keeps.bind read_keeps fun _ => ?_
      exact Keeps.bind read_keeps fun _ => Keeps.pure _
  | evaluate =>
      refine Keeps.bind read_keeps fun _ => Keeps.bind read_keeps fun _ => ?_
      exact Keeps.bind read_keeps fun _ => unifyInteger_keeps steps _ _
  | plus => exact plus_keeps steps
  | copyTerm =>
      refine Keeps.bind read_keeps fun _ => Keeps.bind read_keeps fun _ => ?_
      refine Keeps.bind read_keeps fun _ => ?_
      refine Keeps.bind (copyTerm_keeps _ _ _) fun _ => ?_
      exact unifyWord_keeps steps .heap _ _
  | compare comparison => exact compare_keeps comparison
  | collectBegin =>
      refine Keeps.bind (Keeps.modifying fun _ follows => follows) fun _ => ?_
      exact Keeps.pure _
  | collect =>
      refine Keeps.bind read_keeps fun _ => Keeps.bind read_keeps fun _ => ?_
      exact Keeps.bind (copyTerm_keeps _ _ _) fun _ => collect_keeps _
  | collectEnd => exact finishCollecting_keeps steps

end Keep

end MachineM

namespace Trail

theorem commit_length (count : Nat) (frames : List Frame) :
    (commit count frames).length = frames.length - count := by
  induction count generalizing frames with
  | zero => rfl
  | succ count ih =>
      match frames with
      | [] => simp [commit]
      | [only] => simp [commit]
      | inner :: outer :: rest =>
          rw [commit, ih]
          simp

theorem cut_level (trail : Trail) (level : Nat) :
    (trail.cut level).level = min trail.level level := by
  unfold cut
  split
  case isTrue low => omega
  case isFalse high =>
    have height := trail.level_eq
    simp only [ofFrames, commit_length]
    omega

end Trail

namespace Store.Follows

/-- The newest frame takes in the heap cells of every checkpoint. -/
theorem heapTop_le {checkpoints : List Checkpoint} {base : List Frame}
    {store : Store} (follows : store.Follows checkpoints base)
    {frame : Frame} {rest : List Frame}
    (frames : store.trail.frames = frame :: rest) {checkpoint : Checkpoint}
    (member : checkpoint ∈ checkpoints) :
    checkpoint.store.heapTop ≤ frame.boundary.heap := by
  obtain ⟨⟨history, shape, same, remembers⟩, -, -, -⟩ := follows
  cases history with
  | nil =>
      subst same
      cases member
  | cons newest older =>
      rw [shape] at frames
      obtain ⟨rfl, -⟩ := List.cons.inj frames
      rw [← same] at member
      obtain ⟨entry, inHistory, rfl⟩ := List.mem_map.mp member
      have covered := (remembers.guards entry inHistory).covered.1
      rcases List.mem_cons.mp inHistory with rfl | isOlder
      · exact covered
      · exact Int32.le_trans covered
          ((List.pairwise_cons.mp remembers.nested).1 entry isOlder).1

end Store.Follows

namespace MachineM

section Reach

variable {checkpoint : Checkpoint} {base : List Frame}

/-- If the frame of the checkpoint is still open and the heap top was kept, the
machine still leads to the checkpoint. -/
def Reached (checkpoint : Checkpoint) (base : List Frame)
    (before machine : Machine) : Prop :=
  base.length < machine.level → before.HeapTopKept machine →
    machine.Leads checkpoint base

theorem reached_of_keeps {action : MachineM α} {before machine : Machine}
    (kept : ∀ checkpoints, KeepsFollowing checkpoints base action)
    (leads : machine.Leads checkpoint base) :
    Ends (action machine)
      (fun _ final => final.Leads checkpoint base ∧
        Reached checkpoint base before final)
      (fun _ => Reached checkpoint base before) := by
  obtain ⟨newer, follows⟩ := leads
  refine (kept _ machine follows).imp ?_ ?_
  · intro _ final stillFollows
    exact ⟨⟨newer, stillFollows⟩, fun _ _ => ⟨newer, stillFollows⟩⟩
  · intro _ final stillFollows _ _
    exact ⟨newer, stillFollows⟩

/-- Going back either leaves the frame of the checkpoint open or ends at it. -/
theorem backtrack_reaches {before machine : Machine}
    (leads : machine.Leads checkpoint base) :
    ∃ final, backtrack machine = .ok true final ∧
      Reached checkpoint base before final := by
  obtain ⟨newer, follows⟩ := leads
  cases newer with
  | nil =>
      obtain ⟨final, result, restores, -⟩ := backtrack_restores follows
      refine ⟨final, result, ?_⟩
      intro deep
      have height := follows.level_eq
      have left := restores.trail
      rw [Machine.level, final.store.trail.level_eq, left,
        List.length_tail, ← machine.store.trail.level_eq, height] at deep
      simp at deep
  | cons newest rest =>
      obtain ⟨final, result, -, stillFollows⟩ := backtrack_restores follows
      refine ⟨final, result, fun _ _ => ⟨rest, stillFollows (.inl ?_)⟩⟩
      simp

theorem fail_reaches {before machine : Machine}
    (leads : machine.Leads checkpoint base) :
    Ends (fail machine) (fun _ => Reached checkpoint base before)
      (fun _ => Reached checkpoint base before) := by
  obtain ⟨final, result, reached⟩ := backtrack_reaches leads
  simp only [fail, ends_bind, result, ends_ok]
  exact reached

theorem require_reaches {before machine : Machine} (success : Bool)
    (leads : machine.Leads checkpoint base) :
    Ends (require success machine) (fun _ => Reached checkpoint base before)
      (fun _ => Reached checkpoint base before) := by
  cases success with
  | true => exact fun _ _ => leads
  | false => exact fail_reaches leads

/-- A cut that leaves the frame of the checkpoint open keeps it. -/
theorem cut_reaches (level : Nat) {before machine : Machine}
    (leads : machine.Leads checkpoint base) :
    Ends (cut level machine) (fun _ => Reached checkpoint base before)
      (fun _ => Reached checkpoint base before) := by
  obtain ⟨newer, follows⟩ := leads
  intro deep _
  have height := follows.level_eq
  have after : base.length < min machine.store.trail.level level := by
    rw [← Trail.cut_level]
    exact deep
  have stillFollows := follows.cut level (.inl (by omega))
  refine ⟨newer.drop (machine.store.trail.level - level), ?_⟩
  rw [List.drop_append_of_le_length
    (by simp only [List.length_append, List.length_singleton] at height
        omega)] at stillFollows
  exact stillFollows

theorem choicePoint_reaches (next : UInt32) {before machine : Machine}
    (leads : machine.Leads checkpoint base) :
    Ends (choicePoint next machine) (fun _ => Reached checkpoint base before)
      (fun _ => Reached checkpoint base before) := by
  obtain ⟨newer, follows⟩ := leads
  rw [choicePoint_eq]
  exact fun _ _ => ⟨machine.checkpoint next :: newer, follows.opened next⟩

/-- Setting the heap top is safe if it keeps the cells of the checkpoints. -/
theorem setHeapTop_reaches (target : Address) {before machine : Machine}
    {newer : List Checkpoint}
    (follows : machine.store.Follows (newer ++ [checkpoint]) base)
    (above : before.store.Above (newer ++ [checkpoint])) :
    Ends (setHeapTop target machine)
      (fun _ => Reached checkpoint base before)
      (fun _ => Reached checkpoint base before) := by
  cases target with
  | heap top =>
      intro _ kept
      refine ⟨newer, follows.of_load rfl (fun _ => rfl) ?_ ?_⟩
      · intro other member
        refine ⟨?_, (follows.above other member).2⟩
        rcases kept with grown | ⟨frame, rest, frames, low⟩
        · exact Int32.le_trans (above other member).1 grown
        · exact Int32.le_trans (follows.heapTop_le frames member) low
      · exact ⟨follows.addressable.heap, follows.addressable.retained,
          follows.addressable.stack⟩
  | _ => exact fun _ _ => ⟨newer, follows⟩

/-- The instructions that move the heap top, open a choice point or commit. -/
def movesFrames : Opcode → Bool
  | .storeHeapTop | .choicePoint | .choicePointRelative | .cut => true
  | _ => false

theorem perform_keeps {checkpoints : List Checkpoint} (position : Int32)
    {opcode : Opcode} (operand : UInt32)
    (isPlain : movesFrames opcode = false) :
    KeepsFollowing checkpoints base (perform position opcode operand) := by
  cases opcode with
  | storeHeapTop => cases isPlain
  | choicePoint => cases isPlain
  | choicePointRelative => cases isPlain
  | cut => cases isPlain
  | duplicate => exact Keeps.bind peek_keeps fun _ => push_keeps _
  | pop => exact Keeps.bind pop_keeps fun _ => Keeps.pure _
  | load =>
      refine Keeps.bind popAddress_keeps fun _ => ?_
      exact Keeps.bind read_keeps fun _ => push_keeps _
  | store =>
      refine Keeps.bind pop_keeps fun _ => ?_
      exact Keeps.bind popAddress_keeps fun _ => store_keeps _ _
  | loadConstant => exact push_keeps _
  | loadLocal =>
      refine Keeps.bind read_keeps fun _ => ?_
      exact Keeps.bind read_keeps fun _ => push_keeps _
  | storeLocal =>
      refine Keeps.bind pop_keeps fun _ => ?_
      exact Keeps.bind read_keeps fun _ => store_keeps _ _
  | loadLocalAddress => exact Keeps.bind read_keeps fun _ => push_keeps _
  | loadArgumentAddress => exact Keeps.bind read_keeps fun _ => push_keeps _
  | deref =>
      refine Keeps.bind popAddress_keeps fun _ => ?_
      exact Keeps.bind read_keeps fun _ => push_keeps _
  | getTag => exact Keeps.bind pop_keeps fun _ => push_keeps _
  | getAddress => exact Keeps.bind popAddress_keeps fun _ => push_keeps _
  | tagReference => exact applyTag_keeps _
  | tagCompound => exact applyTag_keeps _
  | tagFunctor => exact applyTag_keeps _
  | tagConstant => exact applyTag_keeps _
  | tagList => exact applyTag_keeps _
  | bind =>
      refine Keeps.bind popAddress_keeps fun _ => ?_
      exact Keeps.bind popAddress_keeps fun _ => bindVariable_keeps _ _
  | loadHeapTop => exact Keeps.bind Keeps.get fun _ => push_keeps _
  | loadCutBase => exact Keeps.bind Keeps.get fun _ => push_keeps _
  | storeCutBase =>
      exact Keeps.bind popAddress_keeps fun _ => setRegisters_keeps _
  | increment => exact Keeps.bind pop_keeps fun _ => push_keeps _
  | add =>
      refine Keeps.bind pop_keeps fun _ => ?_
      exact Keeps.bind pop_keeps fun _ => push_keeps _
  | allocate => exact enterClause_keeps _
  | deallocate => exact leaveClause_keeps _
  | call => exact call_keeps _
  | branchEqual => exact branchIf_keeps _ _
  | branchNotEqual => exact branchIf_keeps _ _
  | branchAlways => exact jump_keeps _
  | branchAbsolute => exact jump_keeps _
  | getLevel => exact Keeps.bind Keeps.get fun _ => push_keeps _
  | trace => exact reportTrace_keeps _ _
  | endTrace => exact reportTrace_keeps _ _
  | nop => exact Keeps.pure _
  | halt => exact Keeps.pure _
  | fail => exact Keeps.pure _
  | unify => exact Keeps.pure _
  | proceed => exact Keeps.pure _
  | native => exact Keeps.pure _

theorem perform_reaches (position : Int32) (opcode : Opcode)
    (operand : UInt32) {before machine : Machine} {newer : List Checkpoint}
    (follows : machine.store.Follows (newer ++ [checkpoint]) base)
    (above : before.store.Above (newer ++ [checkpoint])) :
    Ends (perform position opcode operand machine)
      (fun _ => Reached checkpoint base before)
      (fun _ => Reached checkpoint base before) := by
  have popped := popAddress_keeps machine follows
  have leads : machine.Leads checkpoint base := ⟨newer, follows⟩
  have faulty : ∀ (fault : Fault) (final : Machine),
      final.store.Follows (newer ++ [checkpoint]) base →
        Reached checkpoint base before final :=
    fun _ _ stillFollows _ _ => ⟨newer, stillFollows⟩
  cases plain : movesFrames opcode with
  | false =>
      refine (reached_of_keeps (fun _ => perform_keeps position operand plain)
        leads).imp ?_ (fun _ _ reached => reached)
      exact fun _ _ kept => kept.2
  | true =>
      cases opcode with
      | storeHeapTop =>
          refine ends_bind.mpr (popped.imp ?_ faulty)
          exact fun target _ stillFollows =>
            setHeapTop_reaches target stillFollows above
      | choicePoint => exact choicePoint_reaches operand leads
      | choicePointRelative => exact choicePoint_reaches _ leads
      | cut =>
          refine ends_bind.mpr (popped.imp ?_ faulty)
          exact fun _ _ stillFollows => cut_reaches _ ⟨newer, stillFollows⟩
      | _ => cases plain

theorem cutBuiltin_reaches (steps : Nat) {before machine : Machine}
    (leads : machine.Leads checkpoint base) :
    Ends (runBuiltin steps .cut machine)
      (fun success final => Reached checkpoint base before final ∧
        (success = false → final.Leads checkpoint base))
      (fun _ => Reached checkpoint base before) := by
  have unchanged : ∀ {α : Type} {query : Machine → Except Fault α}
      {next : α → MachineM Bool},
      (∀ value, Ends (next value machine)
        (fun success final => Reached checkpoint base before final ∧
          (success = false → final.Leads checkpoint base))
        (fun _ => Reached checkpoint base before)) →
      Ends ((read query >>= next) machine)
        (fun success final => Reached checkpoint base before final ∧
          (success = false → final.Leads checkpoint base))
        (fun _ => Reached checkpoint base before) := by
    intro _ query next following
    simp only [ends_bind, ends_read]
    split
    · exact following _
    · exact fun _ _ => leads
  refine unchanged fun target => unchanged fun found => ?_
  cases found with
  | none => exact ⟨fun _ _ => leads, fun _ => leads⟩
  | some level =>
      dsimp only
      split
      · refine ends_bind.mpr ((cut_reaches _ leads).imp ?_
          (fun _ _ reached => reached))
        intro _ final reached
        exact ⟨reached, fun isFalse => by cases isFalse⟩
      · exact ⟨fun _ _ => leads, fun _ => leads⟩

theorem callNative_reaches (steps index : Nat) {before machine : Machine}
    (leads : machine.Leads checkpoint base) :
    Ends (callNative steps index machine)
      (fun _ => Reached checkpoint base before)
      (fun _ => Reached checkpoint base before) := by
  simp only [callNative, ends_bind, ends_get]
  cases machine.program.natives[index]? with
  | none => exact fun _ _ => leads
  | some native =>
      cases native with
      | foreign key => exact fun _ _ => leads
      | builtin builtin =>
          dsimp only
          rw [ends_bind]
          by_cases isCut : builtin = .cut
          · subst isCut
            refine (cutBuiltin_reaches steps leads).imp ?_
              (fun _ _ reached => reached)
            rintro success final ⟨reached, stillLeads⟩
            cases success with
            | true => exact reached
            | false => exact fail_reaches (stillLeads rfl)
          · refine (reached_of_keeps (fun _ => runBuiltin_keeps steps isCut)
              leads).imp ?_ (fun _ _ reached => reached)
            exact fun success _ kept => require_reaches success kept.1

theorem execute_reaches (steps : Nat) (position : Int32) (opcode : Opcode)
    (operand : UInt32) {before machine : Machine} {newer : List Checkpoint}
    (follows : machine.store.Follows (newer ++ [checkpoint]) base)
    (above : before.store.Above (newer ++ [checkpoint])) :
    Ends (execute steps position opcode operand machine)
      (fun _ => Reached checkpoint base before)
      (fun _ => Reached checkpoint base before) := by
  have leads : machine.Leads checkpoint base := ⟨newer, follows⟩
  have faulty : ∀ (fault : Fault) (final : Machine),
      final.store.Follows (newer ++ [checkpoint]) base →
        Reached checkpoint base before final :=
    fun _ _ stillFollows _ _ => ⟨newer, stillFollows⟩
  unfold execute
  split
  · exact fun _ _ => leads
  · exact fail_reaches leads
  · refine ends_bind.mpr ((popAddress_keeps machine follows).imp ?_ faulty)
    intro first later followsLater
    refine ends_bind.mpr ((popAddress_keeps later followsLater).imp ?_ faulty)
    intro second ready followsReady
    refine ends_bind.mpr
      ((unify_keeps steps first second ready followsReady).imp ?_ faulty)
    exact fun success _ stillFollows =>
      require_reaches success ⟨newer, stillFollows⟩
  · exact fun _ _ => leads
  · exact callNative_reaches steps operand.toNat leads
  · refine ends_bind.mpr ((perform_reaches position _ operand follows
      above).imp ?_ (fun _ _ reached => reached))
    exact fun _ _ reached => reached

theorem step_reaches (steps : Nat) {machine : Machine}
    (leads : machine.Leads checkpoint base) :
    Ends (step steps machine) (fun _ => Reached checkpoint base machine)
      (fun _ => Reached checkpoint base machine) := by
  obtain ⟨newer, follows⟩ := leads
  have faulty : ∀ (fault : Fault) (final : Machine),
      final.store.Follows (newer ++ [checkpoint]) base →
        Reached checkpoint base machine final :=
    fun _ _ stillFollows _ _ => ⟨newer, stillFollows⟩
  refine ends_bind.mpr (ends_get.mpr ?_)
  refine ends_bind.mpr ((read_keeps machine follows).imp ?_ faulty)
  intro fetched later followsLater
  refine ends_bind.mpr ((setRegisters_keeps _ later followsLater).imp ?_ faulty)
  intro _ jumped followsJumped
  refine ends_bind.mpr ((onProgram_keeps _ jumped followsJumped).imp ?_ faulty)
  intro _ reported followsReported
  exact execute_reaches steps _ fetched.1 fetched.2 followsReported follows.above

end Reach

end MachineM

namespace Operation

/-- An operation after which the frame of a checkpoint is still open. -/
theorem after_leads (operation : Operation) {checkpoint : Checkpoint}
    {base : List Frame} {machine : Machine}
    (leads : machine.Leads checkpoint base)
    (deep : base.length < (operation.after machine).level)
    (kept : machine.HeapTopKept (operation.after machine)) :
    (operation.after machine).Leads checkpoint base := by
  have keeps : ∀ {α : Type} {action : MachineM α},
      (∀ checkpoints, MachineM.KeepsFollowing checkpoints base action) →
        Ends (action machine)
          (fun _ => MachineM.Reached checkpoint base machine)
          (fun _ => MachineM.Reached checkpoint base machine) := by
    intro _ _ each
    exact (MachineM.reached_of_keeps each leads).imp
      (fun _ _ both => both.2) (fun _ _ reached => reached)
  have reached : Ends (operation.perform machine)
      (fun _ => MachineM.Reached checkpoint base machine)
      (fun _ => MachineM.Reached checkpoint base machine) := by
    cases operation with
    | instruction steps => exact ends_discard.mpr (MachineM.step_reaches steps leads)
    | push value => exact keeps fun _ => MachineM.push_keeps value
    | pop => exact ends_discard.mpr (keeps fun _ => MachineM.pop_keeps)
    | store address value =>
        exact keeps fun _ => MachineM.store_keeps address value
    | bindVariable first second =>
        exact keeps fun _ => MachineM.bindVariable_keeps first second
    | unify steps left right =>
        exact ends_discard.mpr
          (keeps fun _ => MachineM.unify_keeps steps left right)
    | copyTerm root region mode =>
        exact ends_discard.mpr
          (keeps fun _ => MachineM.copyTerm_keeps root region mode)
    | pushCells region words =>
        exact ends_discard.mpr
          (keeps fun _ => MachineM.pushCells_keeps region words)
    | call entry => exact keeps fun _ => MachineM.call_keeps entry
    | choicePoint next => exact MachineM.choicePoint_reaches next leads
    | backtrack =>
        obtain ⟨final, result, reached⟩ := MachineM.backtrack_reaches leads
        rw [perform, ends_discard, result]
        exact reached
    | cut level => exact MachineM.cut_reaches level leads
  unfold after at deep kept ⊢
  revert reached deep kept
  cases operation.perform machine <;> exact fun deep kept reached =>
    reached deep kept

end Operation

namespace Machine

/-- A whole run keeps the way back to the checkpoint. -/
theorem Run.leads {checkpoint : Checkpoint} {base : List Frame}
    {first last : Machine} (run : Run (base.length + 1) first last)
    (leads : first.Leads checkpoint base) : last.Leads checkpoint base := by
  induction run with
  | nil => exact leads
  | snoc _ operation deep kept ih =>
      exact operation.after_leads ih deep kept

/-- Going back to a choice point gives back the registers, the heap, the stack
and the retained cells of the moment it was opened, after any run that left it
open.  The older frames and the retained top stay as they are. -/
theorem backtrack_restores_choicePoint {machine later : Machine}
    (next : UInt32) (addressable : machine.store.Addressable)
    (run : Run (machine.level + 1)
      ((Operation.choicePoint next).after machine) later)
    (newest : later.level = machine.level + 1) :
    ∃ final, MachineM.backtrack later = .ok true final ∧
      final.store.heapTop = machine.store.heapTop ∧
      final.store.pointer = machine.store.pointer ∧
      final.registers =
        { machine.registers with instruction := .code next.toInt32 } ∧
      (∀ index < machine.store.heapTop,
        final.store.load (.heap index) = machine.store.load (.heap index)) ∧
      (∀ index ≤ machine.store.pointer,
        final.store.load (.stack index) = machine.store.load (.stack index)) ∧
      (∀ index < machine.store.retainedTop,
        final.store.load (.retained index) =
          machine.store.load (.retained index)) ∧
      final.store.trail.frames = later.store.trail.frames.tail ∧
      final.store.trail = machine.store.trail ∧
      final.store.retainedTop = later.store.retainedTop := by
  have start : ((Operation.choicePoint next).after machine).Leads
      (machine.checkpoint next) machine.store.trail.frames := by
    refine ⟨[], ?_⟩
    simp only [Operation.after, Operation.perform, MachineM.choicePoint_eq]
    exact Store.Follows.of_opened [] rfl ⟨trivial, by simp, .nil, .nil⟩
      (by simp [Store.Above]) addressable next
  have height : machine.store.trail.frames.length = machine.level :=
    machine.store.trail.level_eq.symm
  obtain ⟨newer, follows⟩ := (height ▸ run).leads start
  have noNewer : newer = [] := by
    have levels := follows.level_eq
    rw [← List.length_eq_zero_iff]
    simp only [List.length_append, List.length_singleton] at levels
    have same : later.store.trail.level = later.level := rfl
    omega
  subst noNewer
  obtain ⟨final, result, restores, -⟩ := MachineM.backtrack_restores follows
  have older : later.store.trail.frames.tail = machine.store.trail.frames := by
    obtain ⟨⟨history, frames, same, -⟩, -, -, -⟩ := follows
    cases history with
    | nil => simp at same
    | cons entry rest =>
        have alone : rest = [] := by
          simpa using congrArg List.length same
        rw [frames, alone]
        rfl
  refine ⟨final, result, restores.heapTop, restores.pointer,
    restores.registers, ?_, ?_, ?_, restores.trail, ?_,
    restores.retainedTop⟩
  · exact fun index below => restores.contents (.heap index) below
  · exact fun index below => restores.contents (.stack index) below
  · exact fun index below => restores.contents (.retained index) below
  · exact Trail.eq_of_frames (restores.trail.trans older)

/-- A small machine with one unbound variable on the heap. -/
def oneVariable : Machine :=
  let empty := Machine.empty ⟨4, 4, 4, 8, false⟩ .silent
  { empty with
    store :=
      { empty.store with
        heap := empty.store.heap.setIfInBounds 0 (.reference (.heap 0))
        heapTop := 1 } }

/-- The variable is bound under a choice point, once more under a newer one that
is then committed, and is unbound again after going back. -/
theorem backtrack_restores_oneVariable :
    ∃ later final,
      Run (oneVariable.level + 1)
          ((Operation.choicePoint 5).after oneVariable) later ∧
        later.store.load (.heap 0) = .ok (.constant ⟨8⟩) ∧
        MachineM.backtrack later = .ok true final ∧
        final.store.load (.heap 0) = .ok (.reference (.heap 0)) := by
  let opened := (Operation.choicePoint 5).after oneVariable
  let bound := (Operation.store (.heap 0) (.constant ⟨7⟩)).after opened
  let newer := (Operation.choicePoint 6).after bound
  let rebound := (Operation.store (.heap 0) (.constant ⟨8⟩)).after newer
  let committed := (Operation.cut 1).after rebound
  have sizes : oneVariable.store.Addressable :=
    ⟨by decide, by decide, by decide⟩
  have run : Run (oneVariable.level + 1) opened committed := by
    refine .snoc (.snoc (.snoc (.snoc (.nil _) _ ?_ (.inl ?_)) _ ?_ (.inl ?_))
      _ ?_ (.inl ?_)) _ ?_ (.inl ?_) <;> decide +kernel
  obtain ⟨final, result, -, -, -, heap, -⟩ :=
    backtrack_restores_choicePoint 5 sizes run (by decide +kernel)
  refine ⟨committed, final, run, rfl, result, ?_⟩
  rw [heap 0 (by decide)]
  rfl

end Machine

end LogicMachine
