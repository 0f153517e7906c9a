import LogicMachine.Proofs.Backtracking.Choice

/-!
# Committing and undoing

A trail comes about by opening frames, recording, going back, committing and
starting afresh.  Whatever its history, the boundary of a frame takes in those
of all frames below it.  So a record that still matters to some frame is handed
down when the newer frames are committed, and the frame then undoes at once what
it and the newer frames would have undone one after another.
-/

namespace LogicMachine

namespace Frame

/-- The frame with the records of newer frames on top of its own. -/
def grown (frame : Frame) (newer : List Record) : Frame :=
  { frame with records := newer ++ frame.records }

theorem add_boundary (frame : Frame) (record : Record) :
    (frame.add record).boundary = frame.boundary := by
  unfold add
  split <;> rfl

end Frame

namespace Trail

/-- The trails that the operations on trails lead to.  Clearing a trail leads to
the empty one. -/
inductive Arises : Trail → Prop where
  | empty : Arises .empty
  | opened {trail : Trail} (boundary : Boundary) :
      Arises trail → Arises (trail.openFrame boundary)
  | added {trail : Trail} (record : Record) :
      Arises trail → Arises (trail.add record)
  | popped {trail rest : Trail} {frame : Frame} :
      Arises trail → trail.pop? = some (frame, rest) → Arises rest
  | committed {trail : Trail} (level : Nat) :
      Arises trail → Arises (trail.cut level)

/-! ## Boundaries -/

/-- The boundary of a frame takes in those of the frames below it. -/
def Nested (frames : List Frame) : Prop :=
  frames.Pairwise fun newer older => older.boundary.Within newer.boundary

theorem nested_cons {frame : Frame} {frames : List Frame} :
    Nested (frame :: frames) ↔
      (∀ older ∈ frames, older.boundary.Within frame.boundary) ∧
        Nested frames :=
  List.pairwise_cons

/-- Only the boundary of the newest frame matters. -/
theorem Nested.replace {frame other : Frame} {rest : List Frame}
    (nested : Nested (frame :: rest))
    (same : other.boundary = frame.boundary) : Nested (other :: rest) := by
  obtain ⟨inside, older⟩ := nested_cons.mp nested
  refine nested_cons.mpr ⟨?_, older⟩
  rw [same]
  exact inside

theorem Nested.openFrame {trail : Trail} (nested : Nested trail.frames)
    (boundary : Boundary) : Nested (trail.openFrame boundary).frames := by
  rw [openFrame_frames]
  refine nested_cons.mpr ⟨fun older member => ?_, nested⟩
  cases frames : trail.frames with
  | nil => simp [frames] at member
  | cons newest rest =>
      have first := frame_within_joined frames boundary
      rw [frames] at member nested
      rcases List.mem_cons.mp member with rfl | isOlder
      · exact first
      · exact ((nested_cons.mp nested).1 older isOlder).trans first

theorem Nested.add {trail : Trail} (nested : Nested trail.frames)
    (record : Record) : Nested (trail.add record).frames := by
  cases frames : trail.frames with
  | nil =>
      rw [add_frames_nil frames]
      exact List.Pairwise.nil
  | cons newest rest =>
      rw [add_frames_cons frames]
      rw [frames] at nested
      exact nested.replace (newest.add_boundary record)

theorem Nested.commit {frames : List Frame} (count : Nat)
    (nested : Nested frames) : Nested (Trail.commit count frames) := by
  induction count generalizing frames with
  | zero => exact nested
  | succ count ih =>
      match frames with
      | [] => exact nested
      | [only] => exact List.Pairwise.nil
      | inner :: outer :: rest =>
          have older : Nested (outer :: rest) := (nested_cons.mp nested).2
          exact ih (older.replace rfl)

/-- Boundaries never shrink from a frame to the newer ones. -/
theorem Arises.nested {trail : Trail} (arises : trail.Arises) :
    Nested trail.frames := by
  induction arises with
  | empty => exact List.Pairwise.nil
  | opened boundary _ ih => exact ih.openFrame boundary
  | added record _ ih => exact ih.add record
  | @popped trail rest frame _ found ih =>
      cases frames : trail.frames with
      | nil =>
          obtain ⟨_, level, same⟩ := trail
          cases frames
          cases found
      | cons newest older =>
          rw [pop?_of_frames frames] at found
          cases found
          rw [frames] at ih
          exact (nested_cons.mp ih).2
  | @committed trail level _ ih =>
      unfold cut
      split
      · exact ih
      · exact ih.commit _

/-! ## Records that are handed down -/

/-- The contents of the cells after frames were undone, newest first. -/
def undone (frames : List Frame) (contents : Address → Except Fault Word) :
    Address → Except Fault Word :=
  match frames with
  | [] => contents
  | frame :: older =>
      undone older fun address =>
        recalled frame.records address (contents address)

theorem undone_append (newer older : List Frame)
    (contents : Address → Except Fault Word) :
    undone (newer ++ older) contents =
      undone older (undone newer contents) := by
  induction newer generalizing contents with
  | nil => rfl
  | cons frame rest ih => exact ih _

/-- What a cell holds after frames were undone depends on that cell alone. -/
theorem undone_congr (frames : List Frame) {address : Address}
    {contents others : Address → Except Fault Word}
    (same : contents address = others address) :
    undone frames contents address = undone frames others address := by
  induction frames generalizing contents others with
  | nil => exact same
  | cons frame rest ih =>
      apply ih
      rw [same]

/-- The records `kept` stand in for frames, as far as a boundary reaches. -/
structure StandsFor (kept : List Record) (boundary : Boundary)
    (newer : List Frame) : Prop where
  recalls : ∀ (contents : Address → Except Fault Word) (address : Address),
    (∀ register, address ≠ .register register) →
      boundary.covers address = true →
        recalled kept address (contents address) =
          undone newer contents address
  taken : ∀ record ∈ kept, ∃ frame ∈ newer, record ∈ frame.records

theorem StandsFor.nil (boundary : Boundary) : StandsFor [] boundary [] :=
  ⟨fun _ _ _ _ => rfl, nofun⟩

/-- The records that a boundary keeps are all that it can see of. -/
theorem recalled_keeps (records : List Record) {boundary : Boundary}
    {address : Address} (isCell : ∀ register, address ≠ .register register)
    (covered : boundary.covers address = true) (current : Except Fault Word) :
    recalled (records.filter boundary.keeps) address current =
      recalled records address current := by
  apply recalled_filter
  intro record _ same
  apply Boundary.keeps_of_covers
  · intro register isRegister
    exact isCell register (same.symm.trans isRegister)
  · rw [same]
    exact covered

/-- Committing frames down to `outer` puts records on top of those of `outer`
that stand for the frames, and changes nothing below. -/
theorem commit_eq_grown {newer below : List Frame} {outer : Frame}
    (nested : Nested (newer ++ outer :: below)) :
    ∃ kept, commit newer.length (newer ++ outer :: below) =
        outer.grown kept :: below ∧
      StandsFor kept outer.boundary newer := by
  generalize size : newer.length = count
  -- The newest frame is merged into the next one, which is one of `newer`
  -- again, unless it is the last of them.
  induction count generalizing newer with
  | zero =>
      cases List.length_eq_zero_iff.mp size
      exact ⟨[], rfl, .nil _⟩
  | succ count ih =>
      match newer with
      | [] => cases size
      | [inner] =>
          cases size
          refine ⟨inner.records.filter outer.boundary.keeps, rfl, ?_, ?_⟩
          · intro contents address isCell covered
            exact recalled_keeps inner.records isCell covered _
          · intro record member
            exact ⟨inner, by simp, (List.mem_filter.mp member).1⟩
      | inner :: next :: newer =>
          have older : Nested (next :: (newer ++ outer :: below)) :=
            (nested_cons.mp nested).2
          have within : outer.boundary.Within next.boundary :=
            (nested_cons.mp older).1 outer (by simp)
          obtain ⟨kept, committed, stands⟩ :=
            @ih (next.absorb inner :: newer) (older.replace rfl)
              (by simpa using size)
          refine ⟨kept, committed, ?_, ?_⟩
          · intro contents address isCell covered
            rw [stands.recalls contents address isCell covered]
            apply undone_congr newer
            rw [Frame.absorb, recalled_append,
              recalled_keeps inner.records isCell (within.covers covered)]
          · intro record member
            obtain ⟨frame, inside, recorded⟩ := stands.taken record member
            rcases List.mem_cons.mp inside with rfl | isNewer
            · rcases List.mem_append.mp recorded with fromInner | fromNext
              · exact ⟨inner, by simp, (List.mem_filter.mp fromInner).1⟩
              · exact ⟨next, by simp, fromNext⟩
            · exact ⟨frame, by simp [isNewer], recorded⟩

/-- The frame that a level names, with the newer and the older ones. -/
theorem exists_level {trail : Trail} {level : Nat} (positive : 1 ≤ level)
    (deep : level ≤ trail.level) :
    ∃ newer outer below, trail.frames = newer ++ outer :: below ∧
      newer.length = trail.level - level ∧ below.length + 1 = level := by
  have height := trail.level_eq
  have inside : trail.level - level < trail.frames.length := by omega
  refine ⟨trail.frames.take (trail.level - level),
    trail.frames[trail.level - level],
    trail.frames.drop (trail.level - level + 1), ?_, ?_, ?_⟩
  · rw [← List.drop_eq_getElem_cons inside, List.take_append_drop]
  · rw [List.length_take]
    omega
  · rw [List.length_drop]
    omega

theorem cut_frames (trail : Trail) (level : Nat) :
    (trail.cut level).frames = commit (trail.level - level) trail.frames := by
  unfold cut
  split
  case isTrue low =>
    rw [Nat.sub_eq_zero_of_le low]
    rfl
  case isFalse => rfl

end Trail

/-! ## Undoing on a machine -/

namespace Machine

/-- A record of the address can be replayed: it names a register or a cell that
exists. -/
def Restorable (machine : Machine) (address : Address) : Prop :=
  (∃ register, address = .register register) ∨
    ∃ word, machine.store.load address = .ok word

theorem setRegister_load (machine : Machine) (register : Register)
    (value address : Address) :
    (machine.setRegister register value).store.load address =
      machine.store.load address := by
  cases register <;> rfl

theorem setRegister_trail (machine : Machine) (register : Register)
    (value : Address) :
    (machine.setRegister register value).store.trail =
      machine.store.trail := by
  cases register <;> rfl

/-- Registers are no cells. -/
theorem load_register (store : Store) (register : Register) :
    store.load (.register register) =
      .error (.invalidAddress (.register register)) :=
  rfl

end Machine

namespace MachineM

/-- Goes back so many choice points. -/
def retreat : Nat → MachineM Unit
  | 0 => return
  | count + 1 => do
      discard backtrack
      retreat count

/-- Replaying records of registers and of cells that exist. -/
theorem forM_restore {records : List Record} {machine : Machine}
    (restorable : ∀ record ∈ records, machine.Restorable record.address) :
    ∃ final, records.forM restore machine = .ok () final ∧
      final.store.trail = machine.store.trail ∧
      ∀ address, (∀ register, address ≠ .register register) →
        final.store.load address =
          recalled records address (machine.store.load address) := by
  induction records generalizing machine with
  | nil => exact ⟨machine, rfl, rfl, fun _ _ => rfl⟩
  | cons record rest ih =>
      have others := fun other member =>
        restorable other (List.mem_cons_of_mem _ member)
      rcases restorable record List.mem_cons_self with
        ⟨register, isRegister⟩ | ⟨old, present⟩
      · obtain ⟨final, replayed, trail, contents⟩ :=
          @ih (machine.setRegister register record.saved.address)
            (fun other member => (others other member).imp_right
              fun ⟨word, found⟩ => ⟨word, by
                rw [Machine.setRegister_load, found]⟩)
        refine ⟨final, ?_, ?_, ?_⟩
        · rw [forM_cons_ok (restore_register isRegister), replayed]
        · rw [trail, Machine.setRegister_trail]
        · intro address isCell
          have different : record.address ≠ address := fun same =>
            isCell register (same.symm.trans isRegister)
          rw [contents address isCell, Machine.setRegister_load, recalled,
            if_neg different]
      · have written := Store.load_put present record.saved
        obtain ⟨final, replayed, trail, contents⟩ :=
          @ih { machine with
              store := machine.store.put record.address record.saved }
            (fun other member => (others other member).imp_right
              fun ⟨word, found⟩ => by
                rw [written]
                split
                · exact ⟨_, rfl⟩
                · exact ⟨word, found⟩)
        refine ⟨final, ?_, ?_, ?_⟩
        · rw [forM_cons_ok (restore_cell present), replayed]
        · rw [trail, Store.put_trail]
        · intro address isCell
          rw [contents address isCell, written, recalled]
          simp only [eq_comm]

/-- Going back to the newest choice point undoes its frame. -/
theorem backtrack_undoes {machine : Machine} {frame : Frame}
    {rest : List Frame} (frames : machine.store.trail.frames = frame :: rest)
    (restorable : ∀ record ∈ frame.records,
      machine.Restorable record.address) :
    ∃ final, backtrack machine = .ok true final ∧
      final.store.trail = .ofFrames rest ∧
      ∀ address, (∀ register, address ≠ .register register) →
        final.store.load address =
          recalled frame.records address (machine.store.load address) := by
  have popped := Trail.pop?_of_frames frames
  obtain ⟨final, replayed, trail, contents⟩ :=
    @forM_restore frame.records
      { machine with
        store.trail := .ofFrames rest
        program.journal := machine.program.journal.add
          (.backtracked (Trail.ofFrames rest).level frame.records.length) }
      restorable
  exact ⟨final, backtrack_of_pop popped replayed, trail, contents⟩

/-- Going back several choice points undoes their frames, newest first. -/
theorem retreat_undoes {newer below : List Frame} {machine : Machine}
    (frames : machine.store.trail.frames = newer ++ below)
    (restorable : ∀ frame ∈ newer, ∀ record ∈ frame.records,
      machine.Restorable record.address) :
    ∃ final, retreat newer.length machine = .ok () final ∧
      final.store.trail.frames = below ∧
      ∀ address, (∀ register, address ≠ .register register) →
        final.store.load address =
          Trail.undone newer machine.store.load address := by
  induction newer generalizing machine with
  | nil => exact ⟨machine, rfl, frames, fun _ _ => rfl⟩
  | cons frame rest ih =>
      obtain ⟨middle, undone, trail, contents⟩ :=
        backtrack_undoes frames (restorable frame List.mem_cons_self)
      -- A cell that was readable is readable after the first frame, too.
      have others : ∀ other ∈ rest, ∀ record ∈ other.records,
          middle.Restorable record.address := by
        intro other member record recorded
        refine (restorable other (List.mem_cons_of_mem _ member) record
          recorded).imp_right ?_
        rintro ⟨word, found⟩
        have isCell : ∀ register, record.address ≠ .register register := by
          intro register isRegister
          rw [isRegister, Machine.load_register] at found
          cases found
        obtain ⟨later, readable⟩ :=
          recalled_ok frame.records record.address word
        exact ⟨later, by rw [contents _ isCell, found, readable]⟩
      obtain ⟨final, gone, bottom, reached⟩ := ih (by rw [trail]; rfl) others
      refine ⟨final, ?_, bottom, ?_⟩
      · simp only [List.length_cons, retreat, discard, Functor.discard,
          Functor.mapConst, Function.comp, bind, EStateM.bind, EStateM.map,
          undone, Function.const]
        exact gone
      · intro address isCell
        rw [reached address isCell]
        exact Trail.undone_congr rest (contents address isCell)

end MachineM

namespace Trail

/-- Committing down to a level and undoing the frame of that level is undoing
the frame and all newer ones, one after another.  What committing changes is
that this frame gets more records, on top of its own. -/
theorem cut_undo {trail : Trail} (arises : trail.Arises) {level : Nat}
    (positive : 1 ≤ level) (deep : level ≤ trail.level) :
    ∃ newer outer below kept,
      trail.frames = newer ++ outer :: below ∧
      below.length + 1 = level ∧
      (trail.cut level).frames = outer.grown kept :: below ∧
      (∀ contents address, (∀ register, address ≠ .register register) →
        outer.boundary.covers address = true →
          undone [outer.grown kept] contents address =
            undone (newer ++ [outer]) contents address) ∧
      ∀ machine : Machine, machine.store.trail = trail →
        (∀ frame ∈ newer ++ [outer], ∀ record ∈ frame.records,
          machine.Restorable record.address) →
        ∃ committed plain,
          (do
            MachineM.cut level
            MachineM.backtrack) machine = .ok true committed ∧
          MachineM.retreat (trail.level - level + 1) machine =
            .ok () plain ∧
          committed.store.trail = plain.store.trail ∧
          plain.store.trail.frames = below ∧
          ∀ address, outer.boundary.covers address = true →
            committed.store.load address = plain.store.load address := by
  obtain ⟨newer, outer, below, frames, height, depth⟩ :=
    exists_level positive deep
  have nested := arises.nested
  rw [frames] at nested
  obtain ⟨kept, merged, stands⟩ := commit_eq_grown nested
  have cutFrames : (trail.cut level).frames = outer.grown kept :: below := by
    rw [cut_frames, ← height, frames, merged]
  have undo : ∀ contents address,
      (∀ register, address ≠ .register register) →
        outer.boundary.covers address = true →
          undone [outer.grown kept] contents address =
            undone (newer ++ [outer]) contents address := by
    intro contents address isCell covered
    simp only [undone_append, undone, Frame.grown, recalled_append,
      stands.recalls contents address isCell covered]
  refine ⟨newer, outer, below, kept, frames, depth, cutFrames, undo, ?_⟩
  rintro machine rfl restorable
  obtain ⟨plain, gone, bottom, reached⟩ :=
    @MachineM.retreat_undoes (newer ++ [outer]) below machine
      (by simp [frames]) restorable
  let ready : Machine :=
    { machine with
      store.trail := machine.store.trail.cut level
      program.journal := machine.program.journal.add
        (.cut machine.level level) }
  obtain ⟨committed, undone, trail, contents⟩ :=
    @MachineM.backtrack_undoes ready (outer.grown kept) below cutFrames (by
      intro record member
      rcases List.mem_append.mp member with fromNewer | own
      · obtain ⟨frame, isNewer, recorded⟩ := stands.taken record fromNewer
        exact restorable frame (by simp [isNewer]) record recorded
      · exact restorable outer (by simp) record own)
  refine ⟨committed, plain, undone, ?_, ?_, bottom, ?_⟩
  · rw [← height]
    simpa using gone
  · rw [trail]
    exact eq_of_frames bottom.symm
  · intro address covered
    by_cases isCell : ∀ register, address ≠ .register register
    · rw [contents address isCell, reached address isCell]
      exact undo machine.store.load address isCell covered
    · simp only [not_forall, not_not] at isCell
      obtain ⟨register, rfl⟩ := isCell
      rw [Machine.load_register, Machine.load_register]

/-- Three choice points under each of which heap cell 1 was overwritten.  The
middle one also covers heap cell 4 and a stack slot, the oldest one does not. -/
def threeChoices : Trail :=
  [⟨.heap 1, .constant ⟨13⟩⟩, ⟨.stack 2, .constant ⟨23⟩⟩].foldl add
    (openFrame
      ([⟨.heap 1, .constant ⟨12⟩⟩, ⟨.heap 4, .constant ⟨42⟩⟩].foldl add
        (openFrame
          ([⟨.register .topOfHeap, (Address.heap 2).pack⟩,
            ⟨.heap 1, .constant ⟨11⟩⟩].foldl add
            (empty.openFrame ⟨2, 0⟩))
          ⟨6, 3⟩))
      ⟨1, 1⟩)

theorem arises_threeChoices : threeChoices.Arises :=
  .added _ (.added _ (.opened _ (.added _ (.added _ (.opened _ (.added _
    (.added _ (.opened _ .empty))))))))

/-- A machine on which these choice points are open. -/
def threeChoicesOpen : Machine :=
  let empty := Machine.empty ⟨8, 4, 4, 8, false⟩ .silent
  { empty with store.trail := threeChoices }

/-- The oldest of the words that cell 1 held is back, whether the newer choice
points were committed or undone one by one. -/
theorem cut_undo_threeChoices :
    threeChoices.Arises ∧ 1 ≤ threeChoices.level ∧
      ∃ committed plain,
        (do
          MachineM.cut 1
          MachineM.backtrack) threeChoicesOpen = .ok true committed ∧
        MachineM.retreat 3 threeChoicesOpen = .ok () plain ∧
        committed.store.trail = plain.store.trail ∧
        committed.store.load (.heap 1) = .ok (.constant ⟨11⟩) ∧
        plain.store.load (.heap 1) = .ok (.constant ⟨11⟩) := by
  have height : 1 ≤ threeChoices.level := by decide
  obtain ⟨newer, outer, below, kept, frames, depth, -, -, undo⟩ :=
    cut_undo arises_threeChoices (Nat.le_refl 1) height
  obtain rfl : below = [] := by simpa using depth
  have known : ∀ frame ∈ threeChoices.frames, ∀ record ∈ frame.records,
      record.address = .register .topOfHeap ∨
        threeChoicesOpen.store.load record.address = .ok .zero := by
    decide
  have restorable : ∀ frame ∈ newer ++ [outer], ∀ record ∈ frame.records,
      threeChoicesOpen.Restorable record.address := by
    rw [← frames]
    intro frame inside record recorded
    exact (known frame inside record recorded).imp
      (fun isRegister => ⟨_, isRegister⟩) (fun present => ⟨_, present⟩)
  obtain ⟨committed, plain, cutFirst, oneByOne, trails, -, words⟩ :=
    undo threeChoicesOpen rfl restorable
  have evaluated : ∃ final, MachineM.retreat 3 threeChoicesOpen =
      .ok () final ∧ final.store.load (.heap 1) = .ok (.constant ⟨11⟩) :=
    ⟨_, rfl, rfl⟩
  obtain ⟨final, reached, word⟩ := evaluated
  cases oneByOne.symm.trans reached
  have covered : outer.boundary.covers (.heap 1) = true := by
    have last : threeChoices.frames.getLast? = some outer := by
      rw [frames]
      simp
    cases last
    rfl
  exact ⟨arises_threeChoices, height, committed, _, cutFirst, oneByOne, trails,
    (words _ covered).trans word, word⟩

end Trail

end LogicMachine
