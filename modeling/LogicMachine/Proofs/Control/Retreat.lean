import LogicMachine.Proofs.Control.Activity

/-!
# Going back to a tidy store

A choice point that was opened on a tidy store gives a tidy store back, with the
stack that it was opened on.
-/

namespace LogicMachine

variable [Atoms]

/-- The store has the segments of another one, plain words in its cells, and no
frame that the other one does not have. -/
structure Store.Replays (before store : Store) : Prop where
  cells : ∀ {address : Address} {word : Word}, address.OffStack →
    store.load address = .ok word → word.Plain
  heap : store.heap.size = before.heap.size
  retained : store.retained.size = before.retained.size
  stack : store.stack.size = before.stack.size
  frames : store.trail.frames ⊆ before.trail.frames

omit [Atoms] in
/-- Committing frames adds no record. -/
theorem Trail.mem_commit {count : Nat} {frames : List Frame} {frame : Frame}
    {record : Record} (member : frame ∈ Trail.commit count frames)
    (inside : record ∈ frame.records) :
    ∃ old ∈ frames, record ∈ old.records := by
  induction count generalizing frames with
  | zero => exact ⟨frame, member, inside⟩
  | succ count ih =>
      match frames with
      | [] => cases member
      | [only] => cases member
      | inner :: outer :: rest =>
          obtain ⟨old, among, recorded⟩ := ih member
          rcases List.mem_cons.mp among with rfl | older
          · rcases List.mem_append.mp recorded with new | kept
            · exact ⟨inner, List.mem_cons_self, List.mem_of_mem_filter new⟩
            · exact ⟨outer, by simp, kept⟩
          · exact ⟨old, by simp [older], recorded⟩

namespace Store

theorem Tidy.withTrail {store : Store} (tidy : store.Tidy) {trail : Trail}
    (saved : ∀ frame ∈ trail.frames, ∀ record ∈ frame.records,
      record.address.OffStack → record.saved.Plain) :
    ({ store with trail } : Store).Tidy where
  cells := by
    intro address word offStack found
    exact tidy.cells offStack (by cases address <;> exact found)
  saved := saved
  addressable := ⟨tidy.addressable.heap, tidy.addressable.retained,
    tidy.addressable.stack⟩
  room := fun region => by
    have room := tidy.room region
    cases region <;> exact room

theorem Tidy.cut {store : Store} (tidy : store.Tidy) (level : Nat) :
    ({ store with trail := store.trail.cut level } : Store).Tidy := by
  refine tidy.withTrail fun frame member record inside offStack => ?_
  unfold Trail.cut at member
  split at member
  · exact tidy.saved frame member record inside offStack
  · obtain ⟨old, among, recorded⟩ := Trail.mem_commit member inside
    exact tidy.saved old among record recorded offStack

theorem Replays.put {before store : Store} (replays : before.Replays store)
    {address : Address} {old value : Word}
    (present : store.load address = .ok old)
    (plain : address.OffStack → value.Plain) :
    before.Replays (store.put address value) where
  cells := by
    intro queried word offStack found
    rw [load_put present] at found
    split at found
    case isTrue same =>
      cases found
      exact plain (same ▸ offStack)
    case isFalse => exact replays.cells offStack found
  heap := by simpa using replays.heap
  retained := by simpa using replays.retained
  stack := by simpa using replays.stack
  frames := by
    rw [put_trail]
    exact replays.frames

end Store

omit [Atoms] in
theorem Trail.frames_of_pop? {trail rest : Trail} {frame : Frame}
    (popped : trail.pop? = some (frame, rest)) :
    trail.frames = frame :: rest.frames := by
  obtain ⟨frames, level, same⟩ := trail
  cases frames with
  | nil => cases popped
  | cons first others =>
      cases popped
      rfl

namespace MachineM

theorem restore_replays {before : Store} {record : Record}
    (plain : record.address.OffStack → record.saved.Plain) :
    Keeps (fun machine => before.Replays machine.store) (restore record) := by
  unfold restore
  split
  case h_1 register _ =>
    apply Keeps.modifying
    intro machine replays
    cases register <;> exact ⟨replays.cells, replays.heap, replays.retained,
      replays.stack, replays.frames⟩
  case h_2 =>
    intro machine replays
    simp only [ends_onStore, StoreM.restore, ends_bind, StoreM.ends_read,
      ends_modify]
    split
    case h_1 old found =>
      exact replays.put (Store.slot_eq_ok_iff.mp found) plain
    case h_2 => exact replays

theorem backtrack_replays {machine : Machine} (tidy : machine.store.Tidy) :
    Ends (backtrack machine)
      (fun _ after => machine.store.Replays after.store)
      (fun _ _ => True) := by
  have itself : machine.store.Replays machine.store :=
    ⟨tidy.cells, rfl, rfl, rfl, fun _ => id⟩
  simp only [backtrack, ends_bind, ends_get]
  cases popped : machine.store.trail.pop? with
  | none => exact itself
  | some pair =>
      obtain ⟨frame, trail⟩ := pair
      have frames := Trail.frames_of_pop? popped
      simp only [ends_bind, ends_modify, report, ends_onProgram,
        ProgramM.report, ends_pure]
      refine Ends.imp (Keeps.forM (fun record member => restore_replays ?_) _
        ?_) (fun _ _ replays => replays) (fun _ _ _ => trivial)
      · exact tidy.saved frame (frames ▸ List.mem_cons_self) record member
      · exact ⟨tidy.cells, rfl, rfl, rfl,
          frames ▸ List.subset_cons_self _ _⟩

end MachineM

/-- A choice point records registers only when it is opened. -/
theorem Store.Tidy.opened {machine : Machine} (tidy : machine.store.Tidy)
    (next : UInt32) : (machine.opened next).store.Tidy := by
  refine tidy.withTrail fun frame member record inside offStack => ?_
  rcases List.mem_cons.mp member with rfl | older
  · simp only [Checkpoint.registerRecords, List.mem_cons, List.not_mem_nil,
      or_false] at inside
    rcases inside with rfl | rfl | rfl | rfl | rfl | rfl <;> cases offStack
  · exact tidy.saved frame older record inside offStack

namespace Machine.Restores

variable {checkpoint : Checkpoint} {before machine : Machine}

/-- The store is tidy again. -/
theorem tidy (restores : before.Restores checkpoint machine)
    (replays : before.store.Replays machine.store) (tidy : before.store.Tidy)
    (opened : checkpoint.store.Tidy)
    (above : checkpoint.store.heapTop ≤ before.store.heapTop) :
    machine.store.Tidy where
  cells := replays.cells
  saved := fun frame member => tidy.saved frame (replays.frames member)
  addressable := ⟨replays.heap ▸ tidy.addressable.heap,
    replays.retained ▸ tidy.addressable.retained,
    replays.stack ▸ tidy.addressable.stack⟩
  room := by
    intro region
    cases region with
    | heap =>
        have room := (tidy.room .heap).2
        have lower : machine.store.heapTop.toNatClampNeg ≤
            before.store.heapTop.toNatClampNeg := by
          rw [restores.heapTop]
          exact Int.toNat_le_toNat (Int32.le_iff_toInt_le.mp above)
        refine ⟨?_, Nat.le_trans lower ?_⟩
        · show 0 ≤ machine.store.heapTop
          rw [restores.heapTop]
          exact (opened.room .heap).1
        · show _ ≤ machine.store.heap.size
          rw [replays.heap]
          exact room
    | retained =>
        have room := tidy.room .retained
        simpa [Store.Room, Store.top, Store.capacity, restores.retainedTop,
          replays.retained] using room

omit [Atoms] in
/-- So is the stack. -/
theorem stacked (restores : before.Restores checkpoint machine)
    {words : List Word} (opened : checkpoint.store.Stacked words)
    (addressable : checkpoint.store.Addressable) :
    machine.store.Stacked words := by
  have small := opened.small addressable
  have holds (index : Nat) (word : Word)
      (found : words[index]? = some word) :
      machine.store.stack[index]? = some word := by
    have inside := (List.getElem?_eq_some_iff.mp found).1
    apply (Store.load_stack (by omega)).mp
    rw [restores.contents]
    · exact opened.load_eq addressable found
    · show Int32.ofNat index ≤ checkpoint.store.pointer
      rw [opened.pointer, Int32.le_iff_toInt_le,
        Store.toInt_ofNat (by omega), Store.toInt_ofInt_pred small]
      omega
  refine ⟨restores.pointer.trans opened.pointer, ?_, holds⟩
  by_contra short
  have last : machine.store.stack.size < words.length := Nat.not_le.mp short
  have found := holds _ _ (List.getElem?_eq_getElem last)
  simp at found

omit [Atoms] in
/-- The cells that were bound before the choice point are as they were. -/
theorem persists (restores : before.Restores checkpoint machine)
    {origin : Store} (persists : origin.Persists checkpoint.store) :
    origin.Persists machine.store where
  heapTop := by
    rw [restores.heapTop]
    exact persists.heapTop
  bound := by
    intro index word below found isBound
    have seen : checkpoint.Sees (.heap index) :=
      Int32.lt_of_lt_of_le below persists.heapTop
    rw [restores.contents _ seen]
    exact persists.bound below found isBound

end Machine.Restores

end LogicMachine
