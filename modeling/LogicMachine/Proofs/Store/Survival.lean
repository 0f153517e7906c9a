import LogicMachine.Store.Unify
import LogicMachine.Proofs.Store.Layout

/-!
# Conditions that outlive copying and unifying

Copying writes in two ways: it overwrites variables of the source, after it has
recorded them, and it fills cells that it has just claimed.  A condition on
stores that outlives such writes and claims is kept by copying a term, also when
a fault interrupts it.  Unifying writes where it binds variables.
-/

namespace LogicMachine

/-- A condition outlives recorded writes to cells of one kind, writes to new
cells, and claims. -/
structure Store.Survives (holds : Store → Prop) (may isNew : Address → Prop) :
    Prop where
  cells : ∀ {address : Address}, isNew address →
    ∃ (region : Region) (index : Int32), address = region.address index
  overwrite : ∀ {store : Store} {address : Address} {old : Word},
    holds store → may address → store.load address = .ok old →
      ∀ value, holds ((store.record address old).put address value)
  refresh : ∀ {store : Store} {address : Address} {old : Word},
    holds store → isNew address → store.load address = .ok old →
      ∀ value, holds (store.put address value)
  claim : ∀ {store : Store} {region : Region} {count : Nat}, holds store →
    0 ≤ store.top region →
    (store.top region).toNatClampNeg + count ≤ store.capacity region →
      holds (store.setTop region (store.top region + Int32.ofNat count)) ∧
        ∀ index < count,
          isNew (region.address (store.top region + Int32.ofNat index))

namespace StoreM

theorem read_keeps {query : Store → Except Fault α}
    {invariant : Store → Prop} : Keeps invariant (read query) := by
  intro store holds
  rw [ends_read]
  split <;> exact holds

theorem ofExcept_keeps {invariant : Store → Prop} (value : Except Fault α) :
    Keeps invariant (ofExcept value) :=
  read_keeps

/-- The arguments after a header are the cells that were claimed with it. -/
theorem arguments_address {region : Region} {top : Int32} {arity : Nat}
    {targets : List Address}
    (found : Store.arguments (region.address top) arity = .ok targets) :
    ∀ target ∈ targets, ∃ index < arity,
      target = region.address (top + Int32.ofNat (index + 1)) := by
  have values : Store.arguments (region.address top) arity =
      .ok ((List.range (Store.reachable arity)).map fun index =>
        region.address (top + Int32.ofNat (index + 1))) := by
    unfold Store.arguments
    simp only [Region.shift_address]
    exact List.mapM_pure
  rw [values] at found
  cases found
  intro target member
  obtain ⟨index, below, rfl⟩ := List.mem_map.mp member
  exact ⟨index, Nat.lt_of_lt_of_le (List.mem_range.mp below)
    (reachable_le arity), rfl⟩

end StoreM

namespace Store.Survives

open StoreM

variable {holds : Store → Prop} {may isNew : Address → Prop}
  (survives : Store.Survives holds may isNew)

include survives

theorem store {address : Address} (allowed : may address) (value : Word) :
    Keeps holds (StoreM.store address value) := by
  intro state held
  simp only [StoreM.store, ends_bind, ends_read, ends_modify]
  split
  case h_1 old present =>
    exact survives.overwrite held allowed (Store.slot_eq_ok_iff.mp present)
      value
  case h_2 => exact held

theorem storeFresh {address : Address} (new : isNew address) (value : Word) :
    Keeps holds (StoreM.storeFresh address value) := by
  have untracked : Keeps holds
      (do
        let _ ← read fun store => store.slot address
        modify fun store => store.put address value) := by
    intro state held
    simp only [ends_bind, ends_read, ends_modify]
    split
    case h_1 old present =>
      exact survives.refresh held new (Store.slot_eq_ok_iff.mp present) value
    case h_2 => exact held
  obtain ⟨region, index, rfl⟩ := survives.cells new
  cases region <;> exact untracked

/-- Claimed cells are new. -/
theorem allocate (region : Region) (count : Nat) {state : Store}
    (held : holds state) :
    Ends (StoreM.allocate region count state)
      (fun start final => holds final ∧ ∃ top, start = region.address top ∧
        ∀ index < count, isNew (region.address (top + Int32.ofNat index)))
      (fun _ => holds) := by
  simp only [StoreM.allocate, ends_bind, ends_get]
  split
  case isTrue => exact held
  case isFalse room =>
    simp only [ends_bind, ends_modify, ends_pure]
    rw [not_or, Int32.not_lt] at room
    obtain ⟨nonnegative, fits⟩ := room
    obtain ⟨later, new⟩ :=
      survives.claim held nonnegative (Nat.le_of_not_lt fits)
    exact ⟨later, _, rfl, new⟩

theorem fill (region : Region) (start : Int32) (words : List Word)
    (new : ∀ index < words.length,
      isNew (region.address (start + Int32.ofNat index))) :
    Keeps holds (StoreM.fill region start words) := by
  induction words generalizing start with
  | nil => exact Keeps.pure _
  | cons word rest ih =>
      refine Keeps.bind (survives.storeFresh ?_ word) fun _ =>
        ih (start + 1) ?_
      · simpa using new 0 (by simp)
      · intro index below
        have next := new (index + 1) (by simpa using below)
        rwa [Int32.ofNat_add, Int32.add_comm (Int32.ofNat index),
          ← Int32.add_assoc] at next

theorem pushCells (region : Region) (words : List Word) :
    Keeps holds (StoreM.pushCells region words) := by
  intro state held
  simp only [StoreM.pushCells, ends_bind]
  refine (survives.allocate region words.length held).imp ?_
    (fun _ _ kept => kept)
  rintro start later ⟨kept, top, rfl, new⟩
  rw [Region.offset_address]
  exact survives.fill region top words new later kept

/-! ## Copying -/

omit survives in
/-- What copying one cell leaves behind: new targets. -/
def CopiesNew (holds : Store → Prop) (isNew : Address → Prop)
    (copied : CellCopy) (final : Store) : Prop :=
  holds final ∧ ∀ task ∈ copied.tasks, isNew task.target

section Modes

variable {region : Region} {mode : CopyMode}
  (sharing : ∀ address, mode = .share → shares region mode address = false →
    may address)

include sharing

theorem copyVariable (copies : Copies) (unbound : Address)
    (slot : Option Address) (new : ∀ target ∈ slot, isNew target)
    {state : Store} (held : holds state) :
    Ends (StoreM.copyVariable region mode copies unbound slot state)
      (CopiesNew holds isNew) (fun _ => holds) := by
  -- Everything after the target is known.
  have finish (owned : shares region mode unbound = false) :
      ∀ target, isNew target → ∀ later : Store, holds later →
        Ends
          ((do
            let copy := Word.reference target
            StoreM.storeFresh target copy
            if mode = .share then
              StoreM.store unbound copy
            return ⟨copy, copies.insert (.reference, unbound) copy, []⟩ :
              StoreM CellCopy) later)
          (CopiesNew holds isNew) (fun _ => holds) := by
    intro target isNew later kept
    simp only [ends_bind]
    refine (survives.storeFresh isNew _ later kept).imp ?_
      (fun _ _ kept => kept)
    intro _ stored keptStored
    split
    case isTrue isShare =>
      simp only [ends_bind, ends_pure]
      refine (survives.store (sharing unbound isShare owned) _ stored
        keptStored).imp ?_ (fun _ _ kept => kept)
      intro _ final keptFinal
      exact ⟨keptFinal, by simp⟩
    case isFalse => exact ⟨keptStored, by simp⟩
  unfold StoreM.copyVariable
  by_cases shared : shares region mode unbound = true
  · rw [if_pos shared]
    exact ⟨held, by simp⟩
  · rw [if_neg shared]
    have owned := Bool.eq_false_iff.mpr shared
    cases copies[(Tag.reference, unbound)]? with
    | some copy => exact ⟨held, by simp⟩
    | none =>
        cases slot with
        | some target => exact finish owned target (new target rfl) state held
        | none =>
            refine ends_bind.mpr ((survives.allocate region 1 held).imp ?_
              (fun _ _ kept => kept))
            rintro start later ⟨kept, top, rfl, fresh⟩
            have isNew := fresh 0 Nat.one_pos
            rw [show Int32.ofNat 0 = 0 from rfl, Int32.add_zero] at isNew
            exact finish owned _ isNew later kept

omit sharing in
theorem copyStructure (table : FunctorTable) (copies : Copies) (word : Word)
    (header : Address) {state : Store} (held : holds state) :
    Ends (StoreM.copyStructure table region mode copies word header state)
      (CopiesNew holds isNew) (fun _ => holds) := by
  unfold StoreM.copyStructure
  by_cases shared : shares region mode header = true
  · rw [if_pos shared]
    exact ⟨held, by simp⟩
  · rw [if_neg shared]
    cases copies[(Tag.compound, header)]? with
    | some copy => exact ⟨held, by simp⟩
    | none =>
        refine ends_bind.mpr ((read_keeps state held).imp ?_
          (fun _ _ kept => kept))
        intro functor known keptKnown
        refine ends_bind.mpr
          ((survives.allocate region (functor.arity + 1) keptKnown).imp ?_
            (fun _ _ kept => kept))
        rintro start claimed ⟨keptClaimed, top, rfl, fresh⟩
        refine ends_bind.mpr ((read_keeps claimed keptClaimed).imp ?_
          (fun _ _ kept => kept))
        intro headerWord loaded keptLoaded
        have newBase : isNew (region.address top) := by
          simpa using fresh 0 (by omega)
        refine ends_bind.mpr ((survives.storeFresh newBase headerWord loaded
          keptLoaded).imp ?_ (fun _ _ kept => kept))
        intro _ stored keptStored
        refine ends_bind.mpr ((ofExcept_keeps _ stored keptStored).imp ?_
          (fun _ _ kept => kept))
        intro sources ready keptReady
        simp only [ends_bind, StoreM.ofExcept, ends_read]
        split
        case h_2 => exact keptReady
        case h_1 targets found =>
          refine ⟨keptReady, ?_⟩
          intro task member
          simp only [← List.map_uncurry_zip_eq_zipWith] at member
          obtain ⟨⟨source, target⟩, paired, rfl⟩ := List.mem_map.mp member
          obtain ⟨index, below, isTarget⟩ :=
            arguments_address found target (List.of_mem_zip paired).2
          simp only [Function.uncurry_apply_pair, isTarget]
          exact fresh (index + 1) (by omega)

omit sharing in
theorem copyPair (copies : Copies) (word : Word) (pair : Address)
    {state : Store} (held : holds state) :
    Ends (StoreM.copyPair region mode copies word pair state)
      (CopiesNew holds isNew) (fun _ => holds) := by
  unfold StoreM.copyPair
  by_cases shared : shares region mode pair = true
  · rw [if_pos shared]
    exact ⟨held, by simp⟩
  · rw [if_neg shared]
    cases copies[(Tag.list, pair)]? with
    | some copy => exact ⟨held, by simp⟩
    | none =>
        refine ends_bind.mpr ((survives.allocate region 2 held).imp ?_
          (fun _ _ kept => kept))
        rintro start claimed ⟨keptClaimed, top, rfl, fresh⟩
        refine ends_bind.mpr ((ofExcept_keeps _ claimed keptClaimed).imp ?_
          (fun _ _ kept => kept))
        intro sourceTail ready keptReady
        simp only [ends_bind, StoreM.ofExcept, ends_read, Region.shift_address]
        refine ⟨keptReady, ?_⟩
        intro task member
        simp only [List.mem_cons, List.not_mem_nil, or_false] at member
        rcases member with rfl | rfl
        · simpa using fresh 0 (by omega)
        · exact fresh 1 (by omega)

omit sharing in
theorem copyValue (table : FunctorTable) (copies : Copies) (word : Word)
    {state : Store} (held : holds state) :
    Ends (StoreM.copyValue table region mode copies word state)
      (CopiesNew holds isNew) (fun _ => holds) := by
  unfold StoreM.copyValue
  cases word.cell with
  | compound header => exact survives.copyStructure table copies word header held
  | list pair => exact survives.copyPair copies word pair held
  | _ => exact ⟨held, by simp⟩

theorem copyCell (table : FunctorTable) (copies : Copies) (word : Word)
    (slot : Option Address) (new : ∀ target ∈ slot, isNew target)
    {state : Store} (held : holds state) :
    Ends (StoreM.copyCell table region mode copies word slot state)
      (CopiesNew holds isNew) (fun _ => holds) := by
  unfold StoreM.copyCell
  cases word.cell with
  | reference address =>
      refine ends_bind.mpr ((read_keeps state held).imp ?_
        (fun _ _ kept => kept))
      intro ending found keptFound
      refine ends_bind.mpr ((read_keeps found keptFound).imp ?_
        (fun _ _ kept => kept))
      intro value loaded keptLoaded
      cases value.cell with
      | reference _ =>
          exact survives.copyVariable sharing copies ending slot new keptLoaded
      | _ => exact survives.copyValue table copies value keptLoaded
  | _ => exact survives.copyValue table copies word held

theorem copyTasks (table : FunctorTable) (steps : Nat) (copies : Copies)
    (tasks : List CopyTask) (new : ∀ task ∈ tasks, isNew task.target) :
    Keeps holds (StoreM.copyTasks table region mode steps copies tasks) := by
  induction steps generalizing copies tasks with
  | zero =>
      cases tasks with
      | nil => exact Keeps.pure _
      | cons task rest => exact Keeps.throw _
  | succ steps ih =>
      cases tasks with
      | nil => exact Keeps.pure _
      | cons task rest =>
          have target := new task List.mem_cons_self
          refine Keeps.bind read_keeps fun word => ?_
          intro state held
          refine ends_bind.mpr ((survives.copyCell sharing table copies word
            (some task.target) (by simpa using target) held).imp ?_
            (fun _ _ kept => kept))
          rintro copied later ⟨kept, queued⟩
          refine ends_bind.mpr ((survives.storeFresh target _ later kept).imp ?_
            (fun _ _ kept => kept))
          intro _ stored keptStored
          refine ih copied.copies (copied.tasks ++ rest) ?_ stored keptStored
          intro other member
          rcases List.mem_append.mp member with isNew | isOld
          · exact queued other isNew
          · exact new other (List.mem_cons_of_mem _ isOld)

theorem copyTerm (table : FunctorTable) (root : Word) :
    Keeps holds (StoreM.copyTerm table root region mode) := by
  intro state held
  refine ends_bind.mpr ((survives.copyCell sharing table {} root none
    (by simp) held).imp ?_ (fun _ _ kept => kept))
  rintro copied later ⟨kept, queued⟩
  simp only [ends_bind, ends_get]
  exact survives.copyTasks sharing table _ copied.copies copied.tasks queued
    later kept

end Modes

/-! ## Unification -/

section Unification

variable {table : FunctorTable} (anywhere : ∀ address, may address)

include anywhere

theorem bindTo (target source : Address) (value : Word) :
    Keeps holds (StoreM.bindTo table target source value) := by
  unfold StoreM.bindTo
  split
  · exact Keeps.bind
      (survives.copyTerm (fun address _ _ => anywhere address) table value)
      fun copy => survives.store (anywhere target) copy
  · exact survives.store (anywhere target) value

theorem bindVariable (first second : Address) :
    Keeps holds (StoreM.bindVariable table first second) := by
  refine Keeps.bind read_keeps fun firstWord => ?_
  refine Keeps.bind read_keeps fun secondWord => ?_
  split
  · exact survives.bindTo anywhere first second secondWord
  · exact survives.bindTo anywhere second first firstWord

theorem unifyPair (equation : Equation) :
    Keeps holds (StoreM.unifyPair table equation) := by
  refine Keeps.bind read_keeps fun left => ?_
  refine Keeps.bind read_keeps fun right => ?_
  split
  · exact Keeps.pure _
  · refine Keeps.bind read_keeps fun leftWord => ?_
    refine Keeps.bind read_keeps fun rightWord => ?_
    split
    · exact Keeps.bind (survives.bindVariable anywhere left right)
        fun _ => Keeps.pure _
    · exact Keeps.bind (survives.bindVariable anywhere left right)
        fun _ => Keeps.pure _
    · exact Keeps.pure _
    · split
      · exact Keeps.pure _
      · exact Keeps.bind (ofExcept_keeps _) fun _ =>
          Keeps.bind (ofExcept_keeps _) fun _ => Keeps.pure _
    · split
      · exact Keeps.pure _
      · refine Keeps.bind read_keeps fun functor => ?_
        refine Keeps.bind read_keeps fun otherFunctor => ?_
        split
        · exact Keeps.bind (ofExcept_keeps _) fun _ =>
            Keeps.bind (ofExcept_keeps _) fun _ => Keeps.pure _
        · exact Keeps.pure _
    · exact Keeps.pure _
    · exact Keeps.pure _

theorem unifyAll (steps : Nat) (equations : List Equation) :
    Keeps holds (StoreM.unifyAll table steps equations) := by
  induction steps generalizing equations with
  | zero =>
      cases equations with
      | nil => exact Keeps.pure _
      | cons equation rest => exact Keeps.throw _
  | succ steps ih =>
      cases equations with
      | nil => exact Keeps.pure _
      | cons equation rest =>
          refine Keeps.bind (survives.unifyPair anywhere equation)
            fun outcome => ?_
          cases outcome with
          | none => exact Keeps.pure _
          | some arguments => exact ih (arguments ++ rest)

theorem unify (steps : Nat) (left right : Address) :
    Keeps holds (StoreM.unify table steps left right) :=
  survives.unifyAll anywhere steps _

end Unification

end Store.Survives

end LogicMachine
