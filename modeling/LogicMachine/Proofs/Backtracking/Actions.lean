import LogicMachine.Proofs.Backtracking.Follow
import LogicMachine.Proofs.Store.Survival

/-!
# Actions on the store keep it following

Pushing, binding, copying and unifying only write in the two ways that keep a
store following its checkpoints: recorded writes anywhere, and writes to newly
claimed cells.
-/

namespace LogicMachine

namespace Region

theorem sees_address {checkpoint : Checkpoint} {region : Region}
    {index : Int32} :
    checkpoint.Sees (region.address index) ↔
      index < checkpoint.store.top region := by
  cases region <;> exact Iff.rfl

end Region

namespace Store

theorem Above.top {checkpoints : List Checkpoint} {store : Store}
    (above : store.Above checkpoints) (region : Region)
    {checkpoint : Checkpoint} (member : checkpoint ∈ checkpoints) :
    checkpoint.store.top region ≤ store.top region := by
  cases region with
  | heap => exact (above checkpoint member).1
  | retained => exact (above checkpoint member).2

end Store

/-- Cells above the claimed ones are seen by no checkpoint. -/
theorem Store.Above.unseen {checkpoints : List Checkpoint} {store : Store}
    (above : store.Above checkpoints) (region : Region) {count : Nat}
    (nonnegative : 0 ≤ store.top region)
    (inside : (store.top region).toNatClampNeg + count < 2 ^ 31) :
    Unseen checkpoints
      (region.address (store.top region + Int32.ofNat count)) := by
  intro checkpoint member sees
  have later := toInt_add_ofNat nonnegative inside
  have floor := Int32.le_iff_toInt_le.mp (above.top region member)
  have below := Int32.lt_iff_toInt_lt.mp (Region.sees_address.mp sees)
  omega

/-- A cell that no checkpoint sees. -/
def UnseenCell (checkpoints : List Checkpoint) (address : Address) : Prop :=
  (∃ (region : Region) (index : Int32), address = region.address index) ∧
    Unseen checkpoints address

namespace Store.Follows

variable {checkpoints : List Checkpoint} {base : List Frame}

/-- Claimed cells are seen by no checkpoint. -/
theorem claim {store : Store} (follows : store.Follows checkpoints base)
    {region : Region} {count : Nat} (nonnegative : 0 ≤ store.top region)
    (fits : (store.top region).toNatClampNeg + count ≤
      store.capacity region) :
    (store.setTop region (store.top region + Int32.ofNat count)).Follows
        checkpoints base ∧
      ∀ index < count, UnseenCell checkpoints
        (region.address (store.top region + Int32.ofNat index)) := by
  have limit := follows.addressable.capacity region
  refine ⟨?_, ?_⟩
  · have above : (store.setTop region
        (store.top region + Int32.ofNat count)).Above checkpoints := by
      intro checkpoint member
      have grown : store.top region ≤
          store.top region + Int32.ofNat count := by
        rw [Int32.le_iff_toInt_le, toInt_add_ofNat nonnegative (by omega)]
        omega
      have before := follows.above checkpoint member
      cases region with
      | heap => exact ⟨Int32.le_trans before.1 grown, before.2⟩
      | retained => exact ⟨before.1, Int32.le_trans before.2 grown⟩
    have sizes := follows.addressable
    cases region <;>
      exact follows.of_load rfl (fun _ => rfl) above
        ⟨sizes.heap, sizes.retained, sizes.stack⟩
  · intro index below
    exact ⟨⟨region, _, rfl⟩,
      follows.above.unseen region nonnegative (by omega)⟩

/-- Recorded writes anywhere and writes to unseen cells keep a store following
its checkpoints. -/
theorem survives (checkpoints : List Checkpoint) (base : List Frame) :
    Survives (Store.Follows checkpoints base) (fun _ => True)
      (UnseenCell checkpoints) where
  cells := And.left
  overwrite := fun follows _ present => follows.put_recorded present
  refresh := fun follows new present => follows.put_unseen present new.2
  claim := fun follows => follows.claim

end Store.Follows

namespace StoreM

section

variable {checkpoints : List Checkpoint} {base : List Frame}

/-- An action that keeps the store following its checkpoints. -/
abbrev KeepsFollowing (checkpoints : List Checkpoint) (base : List Frame)
    (action : StoreM α) : Prop :=
  Keeps (Store.Follows checkpoints base) action

theorem store_keeps (address : Address) (value : Word) :
    KeepsFollowing checkpoints base (store address value) :=
  (Store.Follows.survives checkpoints base).store trivial value

theorem pushCells_keeps (region : Region) (words : List Word) :
    KeepsFollowing checkpoints base (pushCells region words) :=
  (Store.Follows.survives checkpoints base).pushCells region words

/-! ## The operand stack -/

theorem withPointer_follows {state : Store}
    (follows : state.Follows checkpoints base) (pointer : Int32) :
    ({ state with pointer } : Store).Follows checkpoints base :=
  follows.of_load rfl (fun _ => rfl) follows.above
    ⟨follows.addressable.heap, follows.addressable.retained,
      follows.addressable.stack⟩

theorem push_keeps (value : Word) :
    KeepsFollowing checkpoints base (push value) := by
  intro state follows
  simp only [push, ends_bind, ends_get]
  split
  case isTrue => exact follows
  case isFalse =>
    simp only [ends_bind, ends_modify]
    exact store_keeps _ value _ (withPointer_follows follows _)

theorem peek_keeps : KeepsFollowing checkpoints base peek :=
  read_keeps

theorem pop_keeps : KeepsFollowing checkpoints base pop := by
  refine Keeps.bind peek_keeps fun value => ?_
  exact Keeps.bind (Keeps.modifying fun _ follows =>
    withPointer_follows follows _) fun _ => Keeps.pure value

theorem pushZeros_keeps (count : Nat) :
    KeepsFollowing checkpoints base (pushZeros count) := by
  induction count with
  | zero => exact Keeps.pure _
  | succ count ih => exact Keeps.bind (push_keeps _) fun _ => ih

theorem popMany_keeps (count : Nat) :
    KeepsFollowing checkpoints base (popMany count) := by
  induction count with
  | zero => exact Keeps.pure _
  | succ count ih => exact Keeps.bind pop_keeps fun _ => ih

theorem setPointer_keeps (target : Int32) :
    KeepsFollowing checkpoints base (setPointer target) := by
  intro state follows
  simp only [setPointer, ends_bind, ends_get]
  split
  · exact pushZeros_keeps _ state follows
  · split
    · exact withPointer_follows follows _
    · exact follows

/-! ## Copying and unifying -/

theorem copyTerm_keeps (table : FunctorTable) (root : Word) (region : Region)
    (mode : CopyMode) :
    KeepsFollowing checkpoints base (copyTerm table root region mode) :=
  (Store.Follows.survives checkpoints base).copyTerm
    (fun _ _ _ => trivial) table root

theorem bindVariable_keeps (table : FunctorTable) (first second : Address) :
    KeepsFollowing checkpoints base (bindVariable table first second) :=
  (Store.Follows.survives checkpoints base).bindVariable (fun _ => trivial)
    first second

theorem unify_keeps (table : FunctorTable) (steps : Nat)
    (left right : Address) :
    KeepsFollowing checkpoints base (unify table steps left right) :=
  (Store.Follows.survives checkpoints base).unify (fun _ => trivial) steps left
    right

end

end StoreM

end LogicMachine
