import LogicMachine.Proofs.Backtracking.Recall

/-!
# Stores that follow their checkpoints

A store follows a list of checkpoints if its newest frames recall them.  Every
way in which the store is changed keeps that: a write to a cell that a
checkpoint sees is recorded, and the writes that are not recorded go to cells
that were claimed after the newest checkpoint.
-/

namespace LogicMachine

namespace Boundary

/-- Every address inside the one boundary is inside the other. -/
def Within (inner outer : Boundary) : Prop :=
  inner.heap ≤ outer.heap ∧ inner.stack ≤ outer.stack

theorem Within.refl (boundary : Boundary) : boundary.Within boundary :=
  ⟨Int32.le_refl _, Int32.le_refl _⟩

theorem Within.trans {first second third : Boundary}
    (left : first.Within second) (right : second.Within third) :
    first.Within third :=
  ⟨Int32.le_trans left.1 right.1, Int32.le_trans left.2 right.2⟩

theorem Within.covers {inner outer : Boundary} (within : inner.Within outer)
    {address : Address} (covered : inner.covers address = true) :
    outer.covers address = true := by
  cases address with
  | heap index =>
      simp only [Boundary.covers, decide_eq_true_eq] at covered ⊢
      exact Int32.lt_of_lt_of_le covered within.1
  | stack index =>
      simp only [Boundary.covers, decide_eq_true_eq] at covered ⊢
      exact Int32.le_trans covered within.2
  | _ => rfl

theorem within_join_left (left right : Boundary) :
    left.Within (left.join right) := by
  constructor
  · simp only [join]
    split
    case isTrue less => exact Int32.le_of_lt less
    case isFalse => exact Int32.le_refl _
  · simp only [join]
    split
    case isTrue less => exact Int32.le_of_lt less
    case isFalse => exact Int32.le_refl _

theorem within_join_right (left right : Boundary) :
    right.Within (left.join right) := by
  constructor
  · simp only [join]
    split
    case isTrue => exact Int32.le_refl _
    case isFalse notLess => exact Int32.not_lt.mp notLess
  · simp only [join]
    split
    case isTrue => exact Int32.le_refl _
    case isFalse notLess => exact Int32.not_lt.mp notLess

end Boundary

namespace Trail

theorem add_frames_nil {trail : Trail} (empty : trail.frames = [])
    (record : Record) : (trail.add record).frames = [] := by
  obtain ⟨frames, level, same⟩ := trail
  subst empty
  rfl

theorem add_frames_cons {trail : Trail} {frame : Frame} {rest : List Frame}
    (frames : trail.frames = frame :: rest) (record : Record) :
    (trail.add record).frames = frame.add record :: rest := by
  obtain ⟨_, level, same⟩ := trail
  cases frames
  rfl

@[simp]
theorem add_level (trail : Trail) (record : Record) :
    (trail.add record).level = trail.level := by
  obtain ⟨frames, level, same⟩ := trail
  cases frames <;> rfl

end Trail

/-- A frame together with the checkpoint that it leads back to. -/
structure Guards (store : Store) (frame : Frame) (checkpoint : Checkpoint) :
    Prop where
  records : ∃ changes, frame.records = changes ++ checkpoint.registerRecords ∧
    ∀ record ∈ changes, ∃ word, store.load record.address = .ok word
  covered : checkpoint.store.boundary.Within frame.boundary

namespace Guards

/-- The frame covers whatever its checkpoint sees. -/
theorem covers {store : Store} {frame : Frame} {checkpoint : Checkpoint}
    (guards : Guards store frame checkpoint) {address : Address}
    (sees : checkpoint.Sees address) : frame.boundary.covers address = true := by
  apply guards.covered.covers
  cases address with
  | heap index => exact decide_eq_true sees
  | stack index => exact decide_eq_true sees
  | _ => rfl

theorem of_load {store later : Store} {frame : Frame} {checkpoint : Checkpoint}
    (guards : Guards store frame checkpoint)
    (readable : ∀ address word, store.load address = .ok word →
      ∃ other, later.load address = .ok other) :
    Guards later frame checkpoint := by
  obtain ⟨⟨changes, shape, present⟩, covered⟩ := guards
  refine ⟨⟨changes, shape, ?_⟩, covered⟩
  intro record member
  obtain ⟨word, found⟩ := present record member
  exact readable _ word found

end Guards

/-- The newest frames with their checkpoints. -/
structure Remembers (store : Store) (history : List (Frame × Checkpoint)) :
    Prop where
  recalls : Recalls store.load history
  guards : ∀ entry ∈ history, Guards store entry.1 entry.2
  nested : history.Pairwise fun newer older =>
    older.1.boundary.Within newer.1.boundary
  grown : history.Pairwise fun newer older =>
    older.2.store.heapTop ≤ newer.2.store.heapTop ∧
      older.2.store.retainedTop ≤ newer.2.store.retainedTop

namespace Store

/-- The cells claimed at the checkpoints are still claimed. -/
def Above (store : Store) (checkpoints : List Checkpoint) : Prop :=
  ∀ checkpoint ∈ checkpoints,
    checkpoint.store.heapTop ≤ store.heapTop ∧
      checkpoint.store.retainedTop ≤ store.retainedTop

/-- The frames above `base` recall the checkpoints, newest first.  New records
go to the newest of them, so there has to be one, or no frame at all. -/
structure Follows (checkpoints : List Checkpoint) (base : List Frame)
    (store : Store) : Prop where
  remembers : ∃ history : List (Frame × Checkpoint),
    store.trail.frames = history.map Prod.fst ++ base ∧
      history.map Prod.snd = checkpoints ∧ Remembers store history
  anchored : checkpoints ≠ [] ∨ base = []
  above : store.Above checkpoints
  addressable : store.Addressable

end Store

/-- No checkpoint sees the address. -/
def Unseen (checkpoints : List Checkpoint) (address : Address) : Prop :=
  ∀ checkpoint ∈ checkpoints, ¬ checkpoint.Sees address

namespace Remembers

/-- Changes that no checkpoint sees are not noticed. -/
theorem of_unseen {store later : Store}
    {history : List (Frame × Checkpoint)}
    (remembers : Remembers store history)
    (readable : ∀ address word, store.load address = .ok word →
      ∃ other, later.load address = .ok other)
    (same : ∀ entry ∈ history, ∀ address, entry.2.Sees address →
      store.load address = later.load address) :
    Remembers later history where
  recalls := remembers.recalls.congr same
  guards := fun entry member => (remembers.guards entry member).of_load readable
  nested := remembers.nested
  grown := remembers.grown

/-- Overwriting a cell after its word was added to the newest frame. -/
theorem put_recorded {store later : Store} {frame : Frame}
    {checkpoint : Checkpoint} {older : List (Frame × Checkpoint)}
    {address : Address} {old value : Word}
    (present : store.load address = .ok old)
    (written : ∀ queried, later.load queried =
      if queried = address then .ok value else store.load queried)
    (remembers : Remembers store ((frame, checkpoint) :: older)) :
    Remembers later ((frame.add ⟨address, old⟩, checkpoint) :: older) := by
  have readable : ∀ queried word, store.load queried = .ok word →
      ∃ other, later.load queried = .ok other := by
    intro queried word found
    rw [written]
    split
    · exact ⟨value, rfl⟩
    · exact ⟨word, found⟩
  have boundary : (frame.add ⟨address, old⟩).boundary = frame.boundary := by
    unfold Frame.add
    split <;> rfl
  by_cases covered : frame.boundary.covers address = true
  case neg =>
    -- Older boundaries lie within the newest one, so nobody sees the cell.
    have unchanged : frame.add ⟨address, old⟩ = frame := by
      simp [Frame.add, covered]
    rw [unchanged]
    refine remembers.of_unseen readable ?_
    intro entry member queried sees
    have within : entry.1.boundary.Within frame.boundary := by
      rcases List.mem_cons.mp member with rfl | isOlder
      · exact Boundary.Within.refl _
      · exact (List.pairwise_cons.mp remembers.nested).1 entry isOlder
    have inside := within.covers ((remembers.guards entry member).covers sees)
    rw [written, if_neg]
    rintro rfl
    exact covered inside
  case pos =>
    have added : (frame.add ⟨address, old⟩).records =
        ⟨address, old⟩ :: frame.records := by
      simp [Frame.add, covered]
    have undone : ∀ queried,
        recalled (frame.add ⟨address, old⟩).records queried
            (later.load queried) =
          recalled frame.records queried (store.load queried) := by
      intro queried
      rw [added, written]
      by_cases same : queried = address
      · subst same
        rw [recalled_cons_self, present]
      · rw [recalled_cons_of_ne _ (Ne.symm same), if_neg same]
    constructor
    · refine ⟨?_, ?_⟩
      · intro queried sees
        rw [undone]
        exact remembers.recalls.1 queried sees
      · simp only [undone]
        exact remembers.recalls.2
    · intro entry member
      rcases List.mem_cons.mp member with rfl | isOlder
      · have guards := remembers.guards _ List.mem_cons_self
        obtain ⟨⟨changes, shape, present'⟩, within⟩ := guards.of_load readable
        refine ⟨⟨⟨address, old⟩ :: changes, ?_, ?_⟩, ?_⟩
        · rw [added, List.cons_append, ← shape]
        · intro record inChanges
          rcases List.mem_cons.mp inChanges with rfl | isChange
          · exact readable _ _ present
          · exact present' record isChange
        · rw [boundary]
          exact within
      · exact (remembers.guards entry
          (List.mem_cons_of_mem _ isOlder)).of_load readable
    · obtain ⟨inner, rest⟩ := List.pairwise_cons.mp remembers.nested
      refine List.pairwise_cons.mpr ⟨?_, rest⟩
      intro entry isOlder
      rw [boundary]
      exact inner entry isOlder
    · exact List.pairwise_cons.mpr (List.pairwise_cons.mp remembers.grown)

end Remembers

namespace Store.Follows

variable {checkpoints : List Checkpoint} {base : List Frame} {store : Store}

/-- Changes of the registers of the store that keep all claimed cells. -/
theorem of_load (follows : store.Follows checkpoints base) {later : Store}
    (trail : later.trail = store.trail)
    (load : ∀ address, later.load address = store.load address)
    (above : later.Above checkpoints) (addressable : later.Addressable) :
    later.Follows checkpoints base := by
  obtain ⟨⟨history, frames, same, remembers⟩, anchored, -, -⟩ := follows
  refine ⟨⟨history, by rw [trail, frames], same, ?_⟩, anchored, above,
    addressable⟩
  refine remembers.of_unseen ?_ ?_
  · intro address word found
    exact ⟨word, by rw [load, found]⟩
  · intro _ _ address _
    rw [load]

/-- A recorded write. -/
theorem put_recorded (follows : store.Follows checkpoints base)
    {address : Address} {old : Word} (present : store.load address = .ok old)
    (value : Word) :
    ((store.record address old).put address value).Follows checkpoints
      base := by
  have recorded : (store.record address old).load address = .ok old :=
    present
  have written := load_put recorded value
  obtain ⟨⟨history, frames, same, remembers⟩, anchored, above, addressable⟩ :=
    follows
  refine ⟨?_, anchored, ?_, ?_⟩
  · cases history with
    | nil =>
        have noBase : base = [] := by
          rcases anchored with nonempty | noBase
          · exact absurd same.symm nonempty
          · exact noBase
        refine ⟨[], ?_, same, ⟨trivial, by simp, .nil, .nil⟩⟩
        rw [put_trail, record_trail, noBase]
        exact Trail.add_frames_nil (by simpa [noBase] using frames) _
    | cons entry older =>
        obtain ⟨frame, checkpoint⟩ := entry
        refine ⟨(frame.add ⟨address, old⟩, checkpoint) :: older, ?_, same,
          remembers.put_recorded present written⟩
        rw [put_trail]
        exact Trail.add_frames_cons frames _
  · intro checkpoint member
    simpa using above checkpoint member
  · exact ⟨by simpa using addressable.heap, by simpa using addressable.retained,
      by simpa using addressable.stack⟩

/-- A write to a cell that no checkpoint sees need not be recorded. -/
theorem put_unseen (follows : store.Follows checkpoints base)
    {address : Address} {old : Word} (present : store.load address = .ok old)
    (unseen : Unseen checkpoints address) (value : Word) :
    (store.put address value).Follows checkpoints base := by
  have written := load_put present value
  obtain ⟨⟨history, frames, same, remembers⟩, anchored, above, addressable⟩ :=
    follows
  refine ⟨⟨history, by rw [put_trail, frames], same, ?_⟩, anchored, ?_, ?_⟩
  · refine remembers.of_unseen ?_ ?_
    · intro queried word found
      rw [written]
      split
      · exact ⟨value, rfl⟩
      · exact ⟨word, found⟩
    · intro entry member queried sees
      rw [written, if_neg]
      rintro rfl
      exact unseen entry.2 (same ▸ List.mem_map_of_mem member) sees
  · intro checkpoint member
    simpa using above checkpoint member
  · exact ⟨by simpa using addressable.heap, by simpa using addressable.retained,
      by simpa using addressable.stack⟩

end Store.Follows

end LogicMachine
