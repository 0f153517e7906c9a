import LogicMachine.Proofs.Backtracking.Actions

/-!
# Opening, committing and undoing choice points

Opening a choice point adds a checkpoint, committing drops the newest ones, and
going back gives the newest checkpoint back exactly.
-/

namespace LogicMachine

namespace Machine

/-- The checkpoint of a choice point that is opened now. -/
def checkpoint (machine : Machine) (next : UInt32) : Checkpoint where
  store := machine.store
  registers := { machine.registers with instruction := .code next.toInt32 }

end Machine

/-! ## Opening -/

namespace Trail

/-- The boundary of the next frame that is opened. -/
def joined (trail : Trail) (boundary : Boundary) : Boundary :=
  match trail.frames with
  | [] => boundary
  | outer :: _ => outer.boundary.join boundary

theorem openFrame_frames (trail : Trail) (boundary : Boundary) :
    (trail.openFrame boundary).frames =
      ⟨[], trail.joined boundary⟩ :: trail.frames :=
  rfl

theorem within_joined (trail : Trail) (boundary : Boundary) :
    boundary.Within (trail.joined boundary) := by
  unfold joined
  split
  · exact Boundary.Within.refl _
  · exact Boundary.within_join_right _ _

theorem frame_within_joined {trail : Trail} {outer : Frame}
    {rest : List Frame} (frames : trail.frames = outer :: rest)
    (boundary : Boundary) :
    outer.boundary.Within (trail.joined boundary) := by
  simp only [joined, frames]
  exact Boundary.within_join_left _ _

/-- Register records are always taken. -/
theorem foldl_add_registers {trail : Trail} {frame : Frame}
    {rest : List Frame} (frames : trail.frames = frame :: rest)
    (records : List Record)
    (registers : ∀ record ∈ records,
      ∃ register, record.address = .register register) :
    (records.foldl Trail.add trail).frames =
      { frame with records := records.reverse ++ frame.records } :: rest := by
  induction records generalizing trail frame with
  | nil => exact frames
  | cons record later ih =>
      obtain ⟨register, isRegister⟩ := registers record List.mem_cons_self
      have added : frame.add record =
          { frame with records := record :: frame.records } := by
        simp [Frame.add, isRegister, Boundary.covers]
      have first : (trail.add record).frames =
          { frame with records := record :: frame.records } :: rest := by
        rw [add_frames_cons frames, added]
      rw [List.foldl_cons, ih first fun other member =>
        registers other (List.mem_cons_of_mem _ member)]
      simp

end Trail

namespace Remembers

/-- A new frame recalls the store as it is. -/
theorem opened {store : Store} {history : List (Frame × Checkpoint)}
    (remembers : Remembers store history) {checkpoint : Checkpoint}
    (same : checkpoint.store = store) {boundary : Boundary}
    (within : store.boundary.Within boundary)
    (older : ∀ entry ∈ history, entry.1.boundary.Within boundary)
    (above : store.Above (history.map Prod.snd)) :
    Remembers store
      ((⟨checkpoint.registerRecords, boundary⟩, checkpoint) :: history) := by
  have cell : ∀ {seen : Checkpoint} {address : Address}, seen.Sees address →
      recalled checkpoint.registerRecords address (store.load address) =
        store.load address := by
    intro seen address sees
    apply checkpoint.recalled_registerRecords
    rintro register rfl
    exact sees
  constructor
  · refine ⟨?_, ?_⟩
    · intro address sees
      rw [cell sees, same]
    · refine remembers.recalls.congr ?_
      intro entry _ address sees
      exact (cell sees).symm
  · intro entry member
    rcases List.mem_cons.mp member with rfl | isOlder
    · exact ⟨⟨[], rfl, by simp⟩, same ▸ within⟩
    · exact remembers.guards entry isOlder
  · exact List.pairwise_cons.mpr ⟨older, remembers.nested⟩
  · refine List.pairwise_cons.mpr ⟨?_, remembers.grown⟩
    intro entry isOlder
    rw [same]
    exact above entry.2 (List.mem_map_of_mem isOlder)

end Remembers

namespace Trail

/-- A trail is determined by its frames. -/
theorem eq_of_frames {left right : Trail} (same : left.frames = right.frames) :
    left = right := by
  obtain ⟨leftFrames, leftLevel, leftSame⟩ := left
  obtain ⟨rightFrames, rightLevel, rightSame⟩ := right
  cases same
  subst leftSame rightSame
  rfl

end Trail

namespace Machine

/-- The machine after a choice point was opened. -/
def opened (machine : Machine) (next : UInt32) : Machine where
  store :=
    { machine.store with
      trail := .ofFrames
        (⟨(machine.checkpoint next).registerRecords,
          machine.store.trail.joined machine.store.boundary⟩ ::
          machine.store.trail.frames) }
  registers := machine.registers
  program :=
    { machine.program with
      journal := machine.program.journal.add
        (.choicePoint (machine.level + 1) next.toNat) }
  collectors := machine.collectors

end Machine

namespace MachineM

theorem choicePoint_eq (next : UInt32) (machine : Machine) :
    choicePoint next machine = .ok () (machine.opened next) := by
  have trail :
      (machine.checkpoint next).registerRecords.reverse.foldl Trail.add
          (machine.store.trail.openFrame machine.store.boundary) =
        (machine.opened next).store.trail := by
    apply Trail.eq_of_frames
    rw [Trail.foldl_add_registers (Trail.openFrame_frames _ _) _
      (fun record member => Checkpoint.registerRecords_address
        (List.mem_reverse.mp member))]
    simp [Machine.opened, Trail.ofFrames]
  have result : choicePoint next machine = .ok ()
      { machine.opened next with
        store.trail :=
          (machine.checkpoint next).registerRecords.reverse.foldl Trail.add
            (machine.store.trail.openFrame machine.store.boundary) } :=
    rfl
  rw [result, trail]

end MachineM

namespace Store.Follows

variable {checkpoints : List Checkpoint} {base : List Frame}
  {machine : Machine}

/-- Opening a choice point adds its checkpoint to those recalled so far. -/
theorem of_opened (history : List (Frame × Checkpoint))
    (frames : machine.store.trail.frames = history.map Prod.fst ++ base)
    (remembers : Remembers machine.store history)
    (above : machine.store.Above (history.map Prod.snd))
    (addressable : machine.store.Addressable) (next : UInt32) :
    (machine.opened next).store.Follows
      (machine.checkpoint next :: history.map Prod.snd) base := by
  have outer : ∀ entry ∈ history, entry.1.boundary.Within
      (machine.store.trail.joined machine.store.boundary) := by
    intro entry member
    cases history with
    | nil => cases member
    | cons newest older =>
        have first := Trail.frame_within_joined frames machine.store.boundary
        rcases List.mem_cons.mp member with rfl | isOlder
        · exact first
        · exact ((List.pairwise_cons.mp remembers.nested).1 entry
            isOlder).trans first
  have sameStore : (machine.checkpoint next).store = machine.store := rfl
  have added := remembers.opened sameStore (Trail.within_joined _ _) outer
    above
  refine ⟨⟨_, ?_, ?_, added.of_unseen (fun _ word found => ⟨word, found⟩)
    fun _ _ _ _ => rfl⟩, .inl (by simp), ?_, ?_⟩
  · simp [Machine.opened, Trail.ofFrames, frames]
  · simp
  · intro checkpoint member
    rcases List.mem_cons.mp member with rfl | isOlder
    · exact ⟨Int32.le_refl _, Int32.le_refl _⟩
    · exact above checkpoint isOlder
  · exact ⟨addressable.heap, addressable.retained, addressable.stack⟩

theorem opened (follows : machine.store.Follows checkpoints base)
    (next : UInt32) :
    (machine.opened next).store.Follows
      (machine.checkpoint next :: checkpoints) base := by
  obtain ⟨⟨history, frames, rfl, remembers⟩, -, above, addressable⟩ :=
    follows
  exact of_opened history frames remembers above addressable next

end Store.Follows

/-! ## Committing -/

theorem filter_registerRecords (boundary : Boundary)
    (checkpoint : Checkpoint) :
    checkpoint.registerRecords.filter boundary.keeps = [] := by
  apply List.filter_eq_nil_iff.mpr
  intro record member
  obtain ⟨register, isRegister⟩ := Checkpoint.registerRecords_address member
  simp [Boundary.keeps, isRegister]

theorem Boundary.keeps_of_covers {boundary : Boundary} {record : Record}
    (isCell : ∀ register, record.address ≠ .register register)
    (covered : boundary.covers record.address = true) :
    boundary.keeps record = true := by
  unfold keeps
  split
  case h_1 register isRegister => exact absurd isRegister (isCell register)
  case h_2 => exact covered

namespace Remembers

/-- Committing the newest frame hands its records to the one below. -/
theorem absorb {store : Store} {inner outer : Frame}
    {newest next : Checkpoint} {older : List (Frame × Checkpoint)}
    (remembers : Remembers store ((inner, newest) :: (outer, next) :: older)) :
    Remembers store ((outer.absorb inner, next) :: older) := by
  have outerGuards := remembers.guards (outer, next) (by simp)
  obtain ⟨nestedNewest, nested⟩ := List.pairwise_cons.mp remembers.nested
  obtain ⟨nestedNext, nestedOlder⟩ := List.pairwise_cons.mp nested
  -- Whatever a remaining checkpoint sees is covered by the outer frame.
  have covered : ∀ entry ∈ (outer, next) :: older, ∀ address,
      entry.2.Sees address → outer.boundary.covers address = true := by
    intro entry member address sees
    rcases List.mem_cons.mp member with rfl | isOlder
    · exact outerGuards.covers sees
    · refine (nestedNext entry isOlder).covers
        ((remembers.guards entry ?_).covers sees)
      simp [isOlder]
  have undone : ∀ entry ∈ (outer, next) :: older, ∀ address,
      entry.2.Sees address →
        recalled (outer.absorb inner).records address (store.load address) =
          recalled outer.records address
            (recalled inner.records address (store.load address)) := by
    intro entry member address sees
    rw [Frame.absorb, recalled_append, recalled_filter]
    intro record _ same
    refine Boundary.keeps_of_covers ?_ ?_
    · rintro register isRegister
      rw [← same, isRegister] at sees
      exact sees
    · rw [same]
      exact covered entry member address sees
  have recalls := remembers.recalls.2
  constructor
  · refine ⟨?_, recalls.2.congr ?_⟩
    · intro address sees
      rw [undone _ List.mem_cons_self address sees]
      exact recalls.1 address sees
    · intro entry member address sees
      exact (undone entry (List.mem_cons_of_mem _ member) address sees).symm
  · intro entry member
    rcases List.mem_cons.mp member with rfl | isOlder
    · obtain ⟨⟨innerChanges, innerShape, innerPresent⟩, -⟩ :=
        remembers.guards (inner, newest) (by simp)
      obtain ⟨⟨changes, shape, present⟩, within⟩ := outerGuards
      refine ⟨⟨innerChanges.filter outer.boundary.keeps ++ changes, ?_, ?_⟩,
        within⟩
      · simp only [Frame.absorb] at innerShape shape ⊢
        rw [innerShape, shape, List.filter_append, filter_registerRecords,
          List.append_nil, List.append_assoc]
      · intro record inChanges
        rcases List.mem_append.mp inChanges with fromInner | fromOuter
        · exact innerPresent record (List.mem_filter.mp fromInner).1
        · exact present record fromOuter
    · exact remembers.guards entry (by simp [isOlder])
  · exact List.pairwise_cons.mpr ⟨nestedNext, nestedOlder⟩
  · have grown := (List.pairwise_cons.mp remembers.grown).2
    exact List.pairwise_cons.mpr (List.pairwise_cons.mp grown)

/-- Committing several frames keeps the older checkpoints. -/
theorem commit {store : Store} {base : List Frame} (count : Nat)
    {history : List (Frame × Checkpoint)}
    (enough : count < history.length ∨ base = [])
    (remembers : Remembers store history) :
    ∃ remaining : List (Frame × Checkpoint),
      Trail.commit count (history.map Prod.fst ++ base) =
          remaining.map Prod.fst ++ base ∧
        remaining.map Prod.snd = (history.map Prod.snd).drop count ∧
        Remembers store remaining := by
  induction count generalizing history with
  | zero => exact ⟨history, rfl, rfl, remembers⟩
  | succ count ih =>
      match history with
      | [] =>
          have noBase : base = [] := by simpa using enough
          subst noBase
          exact ⟨[], rfl, rfl, remembers⟩
      | [only] =>
          have noBase : base = [] := by simpa using enough
          subst noBase
          exact ⟨[], rfl, by simp, ⟨trivial, by simp, .nil, .nil⟩⟩
      | (inner, newest) :: (outer, next) :: older =>
          exact ih (by simpa using enough) remembers.absorb

end Remembers

namespace Store.Follows

variable {checkpoints : List Checkpoint} {base : List Frame} {store : Store}

theorem level_eq (follows : store.Follows checkpoints base) :
    store.trail.level = checkpoints.length + base.length := by
  obtain ⟨⟨history, frames, same, -⟩, -, -, -⟩ := follows
  rw [store.trail.level_eq, frames, ← same]
  simp

/-- Committing down to a level that keeps the oldest checkpoint. -/
theorem cut (follows : store.Follows checkpoints base) (level : Nat)
    (keeps : base.length < level ∨ base = []) :
    ({ store with trail := store.trail.cut level } : Store).Follows
      (checkpoints.drop (store.trail.level - level)) base := by
  have height := follows.level_eq
  unfold Trail.cut
  split
  case isTrue low =>
    rw [Nat.sub_eq_zero_of_le low]
    exact follows
  case isFalse high =>
    obtain ⟨⟨history, frames, same, remembers⟩, anchored, above,
      addressable⟩ := follows
    have counted : history.length = checkpoints.length := by
      simp [← same]
    have enough : store.trail.level - level < history.length ∨ base = [] := by
      rcases keeps with deep | noBase
      · left
        omega
      · exact .inr noBase
    obtain ⟨remaining, committed, dropped, remembered⟩ :=
      remembers.commit (store.trail.level - level) enough
    refine ⟨⟨remaining, ?_, by rw [dropped, same], ?_⟩, ?_, ?_, ?_⟩
    · rw [frames, committed]
      rfl
    · exact remembered.of_unseen (fun _ word found => ⟨word, found⟩)
        fun _ _ _ _ => rfl
    · rcases keeps with deep | noBase
      · left
        intro nothing
        have short := List.drop_eq_nil_iff.mp nothing
        omega
      · exact .inr noBase
    · intro checkpoint member
      exact above checkpoint (List.mem_of_mem_drop member)
    · exact ⟨addressable.heap, addressable.retained, addressable.stack⟩

end Store.Follows

/-! ## Undoing -/

theorem Trail.pop?_of_frames {trail : Trail} {frame : Frame}
    {rest : List Frame} (frames : trail.frames = frame :: rest) :
    trail.pop? = some (frame, .ofFrames rest) := by
  obtain ⟨_, level, same⟩ := trail
  cases frames
  subst same
  rfl

namespace Store

/-- Two stores that differ in the words of their cells only. -/
structure SameLayout (store other : Store) : Prop where
  heapTop : other.heapTop = store.heapTop
  retainedTop : other.retainedTop = store.retainedTop
  pointer : other.pointer = store.pointer
  trail : other.trail = store.trail
  heapSize : other.heap.size = store.heap.size
  retainedSize : other.retained.size = store.retained.size
  stackSize : other.stack.size = store.stack.size

namespace SameLayout

theorem refl (store : Store) : SameLayout store store :=
  ⟨rfl, rfl, rfl, rfl, rfl, rfl, rfl⟩

theorem trans {first second third : Store} (left : SameLayout first second)
    (right : SameLayout second third) : SameLayout first third where
  heapTop := right.heapTop.trans left.heapTop
  retainedTop := right.retainedTop.trans left.retainedTop
  pointer := right.pointer.trans left.pointer
  trail := right.trail.trans left.trail
  heapSize := right.heapSize.trans left.heapSize
  retainedSize := right.retainedSize.trans left.retainedSize
  stackSize := right.stackSize.trans left.stackSize

theorem put (store : Store) (address : Address) (value : Word) :
    SameLayout store (store.put address value) := by
  constructor <;> simp

theorem addressable {store other : Store} (same : SameLayout store other)
    (addressable : store.Addressable) : other.Addressable where
  heap := same.heapSize ▸ addressable.heap
  retained := same.retainedSize ▸ addressable.retained
  stack := same.stackSize ▸ addressable.stack

end SameLayout

end Store

namespace MachineM

theorem restore_cell {machine : Machine} {record : Record} {old : Word}
    (present : machine.store.load record.address = .ok old) :
    restore record machine =
      .ok () { machine with
        store := machine.store.put record.address record.saved } := by
  have found := Store.slot_eq_ok_iff.mpr present
  have restored : StoreM.restore record machine.store =
      .ok () (machine.store.put record.address record.saved) := by
    simp [StoreM.restore, bind, EStateM.bind, StoreM.read, found, modify,
      modifyGet_apply]
  obtain ⟨address, saved⟩ := record
  cases address with
  | register which => simp [Store.load] at present
  | _ => simp only [restore, onStore, restored]

theorem restore_register {machine : Machine} {record : Record}
    {register : Register} (isRegister : record.address = .register register) :
    restore record machine =
      .ok () (machine.setRegister register record.saved.address) := by
  unfold restore
  rw [isRegister]
  rfl

theorem forM_cons_ok {action : Record → MachineM Unit} {record : Record}
    {rest : List Record} {machine later : Machine}
    (first : action record machine = .ok () later) :
    (record :: rest).forM action machine = rest.forM action later := by
  simp [List.forM_cons, bind, EStateM.bind, first]

/-- Replaying the records of cells. -/
theorem forM_restore_cells {records : List Record} {machine : Machine}
    (readable : ∀ record ∈ records,
      ∃ word, machine.store.load record.address = .ok word) :
    ∃ store, records.forM restore machine = .ok () { machine with store } ∧
      machine.store.SameLayout store ∧
      ∀ address, store.load address =
        recalled records address (machine.store.load address) := by
  induction records generalizing machine with
  | nil => exact ⟨machine.store, rfl, .refl _, fun _ => rfl⟩
  | cons record rest ih =>
      obtain ⟨old, present⟩ := readable record List.mem_cons_self
      let next : Machine :=
        { machine with store := machine.store.put record.address record.saved }
      have written := Store.load_put present record.saved
      have later : ∀ other ∈ rest,
          ∃ word, next.store.load other.address = .ok word := by
        intro other member
        obtain ⟨word, found⟩ := readable other (List.mem_cons_of_mem _ member)
        simp only [next, written]
        split
        · exact ⟨_, rfl⟩
        · exact ⟨word, found⟩
      obtain ⟨store, replayed, layout, contents⟩ := ih later
      refine ⟨store, ?_, (Store.SameLayout.put _ _ _).trans layout, ?_⟩
      · rw [forM_cons_ok (restore_cell present)]
        exact replayed
      · intro address
        rw [contents, recalled]
        simp only [next, written, eq_comm]

end MachineM

namespace Machine

/-- The machine stands where a checkpoint was made: its registers are back and
so is every cell that the checkpoint sees.  The retained cells stay claimed. -/
structure Restores (checkpoint : Checkpoint) (before machine : Machine) :
    Prop where
  registers : machine.registers = checkpoint.registers
  heapTop : machine.store.heapTop = checkpoint.store.heapTop
  pointer : machine.store.pointer = checkpoint.store.pointer
  contents : ∀ address, checkpoint.Sees address →
    machine.store.load address = checkpoint.store.load address
  retainedTop : machine.store.retainedTop = before.store.retainedTop
  trail : machine.store.trail.frames = before.store.trail.frames.tail
  collectors : machine.collectors = before.collectors
  program : ∃ journal, machine.program = { before.program with journal }

end Machine

namespace MachineM

/-- Replaying the first records of a choice point. -/
theorem forM_restore_registers (checkpoint : Checkpoint) (machine : Machine) :
    checkpoint.registerRecords.forM restore machine =
      .ok ()
        { machine with
          store :=
            { machine.store with
              heapTop := checkpoint.store.heapTop
              pointer := checkpoint.store.pointer }
          registers := checkpoint.registers } := by
  unfold Checkpoint.registerRecords
  rw [forM_cons_ok (restore_register rfl), forM_cons_ok (restore_register rfl),
    forM_cons_ok (restore_register rfl), forM_cons_ok (restore_register rfl),
    forM_cons_ok (restore_register rfl), forM_cons_ok (restore_register rfl)]
  simp only [Machine.setRegister, Address.address_pack, Address.offset]
  rfl

theorem forM_append_ok {action : Record → MachineM Unit}
    {first second : List Record} {machine later : Machine}
    (done : first.forM action machine = .ok () later) :
    (first ++ second).forM action machine = second.forM action later := by
  have started : forM first action machine = .ok () later := done
  simp [List.forM_append, bind, EStateM.bind, started]

theorem backtrack_of_pop {machine final : Machine} {frame : Frame}
    {trail : Trail} (popped : machine.store.trail.pop? = some (frame, trail))
    (replayed : frame.records.forM restore
      { machine with
        store.trail := trail
        program.journal := machine.program.journal.add
          (.backtracked trail.level frame.records.length) } = .ok () final) :
    backtrack machine = .ok true final := by
  have undone : backtrack machine =
      (do
        frame.records.forM restore
        return true : MachineM Bool)
      { machine with
        store.trail := trail
        program.journal := machine.program.journal.add
          (.backtracked trail.level frame.records.length) } := by
    simp only [backtrack, bind, EStateM.bind, get_apply, popped]
    rfl
  simp [undone, bind, EStateM.bind, replayed, pure, EStateM.pure]

/-- Going back to the newest checkpoint. -/
theorem backtrack_restores {checkpoint : Checkpoint}
    {checkpoints : List Checkpoint} {base : List Frame} {machine : Machine}
    (follows : machine.store.Follows (checkpoint :: checkpoints) base) :
    ∃ final, backtrack machine = .ok true final ∧
      machine.Restores checkpoint final ∧
      (checkpoints ≠ [] ∨ base = [] →
        final.store.Follows checkpoints base) := by
  obtain ⟨⟨history, frames, same, remembers⟩, -, above, addressable⟩ := follows
  cases history with
  | nil => cases same
  | cons entry older =>
      obtain ⟨frame, recorded⟩ := entry
      obtain ⟨rfl, sameOlder⟩ : recorded = checkpoint ∧
          older.map Prod.snd = checkpoints := by
        simpa using same
      obtain ⟨⟨changes, shape, readable⟩, -⟩ :=
        remembers.guards _ List.mem_cons_self
      obtain ⟨grownNewest, grown⟩ := List.pairwise_cons.mp remembers.grown
      have popped := Trail.pop?_of_frames frames
      let started : Machine :=
        { machine with
          store.trail := .ofFrames (older.map Prod.fst ++ base)
          program.journal := machine.program.journal.add
            (.backtracked (older.map Prod.fst ++ base).length
              frame.records.length) }
      have present : ∀ record ∈ changes,
          ∃ word, started.store.load record.address = .ok word := readable
      obtain ⟨store, replayed, layout, contents⟩ := forM_restore_cells present
      let final : Machine :=
        { started with
          store :=
            { store with
              heapTop := recorded.store.heapTop
              pointer := recorded.store.pointer }
          registers := recorded.registers }
      have done : frame.records.forM restore started = .ok () final := by
        rw [shape, forM_append_ok replayed, forM_restore_registers]
      -- The register records say nothing about cells.
      have undone : ∀ {seen : Checkpoint} {address : Address},
          seen.Sees address → final.store.load address =
            recalled frame.records address (machine.store.load address) := by
        intro seen address sees
        rw [shape, recalled_append, recorded.recalled_registerRecords]
        · exact contents address
        · rintro register rfl
          exact sees
      refine ⟨final, backtrack_of_pop popped done, ?_, ?_⟩
      · refine ⟨rfl, rfl, rfl, ?_, layout.retainedTop, ?_, rfl, ⟨_, rfl⟩⟩
        · intro address sees
          rw [undone sees]
          exact remembers.recalls.1 address sees
        · rw [frames]
          exact congrArg Trail.frames layout.trail
      · intro anchored
        refine ⟨⟨older, congrArg Trail.frames layout.trail, sameOlder, ?_⟩,
          anchored, ?_, ?_⟩
        · refine ⟨remembers.recalls.2.congr ?_, ?_,
            (List.pairwise_cons.mp remembers.nested).2, grown⟩
          · intro entry _ address sees
            exact (undone sees).symm
          · intro entry member
            refine (remembers.guards entry
              (List.mem_cons_of_mem _ member)).of_load ?_
            intro address word found
            have read : started.store.load address = .ok word := found
            obtain ⟨other, replaced⟩ := recalled_ok changes address word
            exact ⟨other, (contents address).trans (read ▸ replaced)⟩
        · intro checkpoint member
          rw [← sameOlder] at member
          obtain ⟨entry, isOlder, rfl⟩ := List.mem_map.mp member
          refine ⟨(grownNewest entry isOlder).1, ?_⟩
          have before := (above entry.2 (List.mem_cons_of_mem _
            (sameOlder ▸ member))).2
          exact layout.retainedTop ▸ before
        · have sizes : store.Addressable := layout.addressable
            ⟨addressable.heap, addressable.retained, addressable.stack⟩
          exact ⟨sizes.heap, sizes.retained, sizes.stack⟩

end MachineM

end LogicMachine
