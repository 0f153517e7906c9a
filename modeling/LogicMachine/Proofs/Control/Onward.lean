import LogicMachine.Proofs.Backtracking.Actions
import LogicMachine.Proofs.Control.Plain

/-!
# Working on terms

Binding, copying and unifying go onward from a tidy store: they leave the stack
alone, keep the memory plain and overwrite nothing but unbound variables.  A
fault may interrupt them anywhere, and the same holds then.
-/

namespace LogicMachine

variable [Atoms]

/-! ## Where references lead -/

namespace Store

/-- An address that terms are found at: a cell, or a stack slot that holds a
plain word. -/
def Spot (store : Store) (address : Address) : Prop :=
  address.OffStack ∨ ∃ index word, address = .stack index ∧
    store.load address = .ok word ∧ word.Plain

omit [Atoms] in
theorem load_stack_eq {store later : Store} (same : later.stack = store.stack)
    (index : Int32) : later.load (.stack index) = store.load (.stack index) := by
  simp only [load, same]

theorem Spot.of_stack {store later : Store} {address : Address}
    (spot : store.Spot address) (same : later.stack = store.stack) :
    later.Spot address := by
  rcases spot with offStack | ⟨index, word, rfl, found, plain⟩
  · exact .inl offStack
  · exact .inr ⟨index, word, rfl, (load_stack_eq same index).trans found, plain⟩

/-- The word at a spot is plain. -/
theorem Spot.plain {store : Store} {address : Address} (spot : store.Spot address)
    (tidy : store.Tidy) {word : Word} (found : store.load address = .ok word) :
    word.Plain := by
  rcases spot with offStack | ⟨index, other, rfl, present, plain⟩
  · exact tidy.cells offStack found
  · rw [present] at found
    cases found
    exact plain

theorem Plain.of_cell {word : Word} {target : Address} (plain : word.Plain)
    (refers : word.cell = .reference target ∨ word.cell = .compound target ∨
      word.cell = .list target) : target.OffStack := by
  have offStack := plain.offStack
  unfold Word.cell at refers
  split at refers <;> rcases refers with same | same | same <;> cases same <;>
    exact offStack

/-- References lead from a spot to a spot, and off the stack if they lead
anywhere. -/
theorem Leads.spot {store : Store} {address root : Address} (tidy : store.Tidy)
    (leads : store.Leads address root) (spot : store.Spot address) :
    store.Spot root := by
  induction leads with
  | here => exact spot
  | there found refers _ _ ih =>
      exact ih (.inl (Plain.of_cell (spot.plain tidy found) (.inl refers)))

/-- An unbound variable is a cell. -/
theorem Spot.offStack_of_unbound {store : Store} {address : Address}
    (spot : store.Spot address) (tidy : store.Tidy) {word : Word}
    (found : store.load address = .ok word)
    (refers : word.cell = .reference address) : address.OffStack :=
  Plain.of_cell (spot.plain tidy found) (.inl refers)

omit [Atoms] in
theorem arguments_offStack {header : Address} {arity : Nat}
    {addresses : List Address} (offStack : header.OffStack)
    (found : Store.arguments header arity = .ok addresses) :
    ∀ address ∈ addresses, address.OffStack := by
  unfold Store.arguments at found
  generalize List.range (reachable arity) = indices at found
  induction indices generalizing addresses with
  | nil =>
      cases found
      exact fun _ member => nomatch member
  | cons index rest ih =>
      rw [List.mapM_cons] at found
      cases shifted : header.shift (Int32.ofNat (index + 1)) with
      | error fault =>
          rw [shifted] at found
          cases found
      | ok first =>
          rw [shifted] at found
          cases others : rest.mapM (fun index =>
              header.shift (Int32.ofNat (index + 1))) with
          | error fault =>
              simp only [bind, Except.bind, others] at found
              cases found
          | ok later =>
              simp only [bind, Except.bind, others] at found
              cases found
              intro address member
              rcases List.mem_cons.mp member with rfl | inLater
              · exact offStack.shift shifted
              · exact ih others address inLater

end Store

namespace StoreM

variable {before store : Store}

/-! ## Single cells -/

theorem store_onward (onward : before.Onward store) {address : Address}
    {value : Word} (offStack : address.OffStack)
    (isOpen : before.Open store address)
    (plain : (∃ old, store.load address = .ok old) → value.Plain) :
    Ends (StoreM.store address value store)
      (fun _ after => before.Onward after ∧
        ∃ old, store.load address = .ok old)
      (fun _ => before.Onward) := by
  simp only [StoreM.store, ends_bind, ends_read, ends_modify]
  split
  case h_1 old found =>
    have present := Store.slot_eq_ok_iff.mp found
    exact ⟨onward.overwrite present offStack isOpen (plain ⟨old, present⟩),
      old, present⟩
  case h_2 => exact onward

theorem storeFresh_onward (onward : before.Onward store) {region : Region}
    {index : Int32} {value : Word}
    (isOpen : before.Open store (region.address index))
    (plain : (∃ old, store.load (region.address index) = .ok old) →
      value.Plain) :
    Ends (storeFresh (region.address index) value store)
      (fun _ after => before.Onward after ∧
        ∃ old, store.load (region.address index) = .ok old)
      (fun _ => before.Onward) := by
  have written : Ends ((do
        let _ ← StoreM.read fun store => store.slot (region.address index)
        modify fun store => store.put (region.address index) value :
          StoreM Unit) store)
      (fun _ after => before.Onward after ∧
        ∃ old, store.load (region.address index) = .ok old)
      (fun _ => before.Onward) := by
    simp only [ends_bind, ends_read, ends_modify]
    split
    case h_1 old found =>
      have present := Store.slot_eq_ok_iff.mp found
      exact ⟨onward.put present (region.offStack index) isOpen
        (plain ⟨old, present⟩), old, present⟩
    case h_2 => exact onward
  cases region <;> exact written

/-- A cell of a region that has been claimed since. -/
def Claimed (before : Store) (region : Region) (address : Address) : Prop :=
  ∃ index, address = region.address index ∧
    (region = .heap → before.heapTop ≤ index)

omit [Atoms] in
theorem Claimed.isOpen {region : Region} {address : Address}
    (claimed : Claimed before region address) (store : Store) :
    before.Open store address := by
  obtain ⟨index, rfl, above⟩ := claimed
  intro other same below
  cases region with
  | heap =>
      cases same
      exact absurd below (Int32.not_lt.mpr (above rfl))
  | retained => cases same

theorem allocate_onward (onward : before.Onward store) (region : Region)
    (count : Nat) :
    Ends (allocate region count store)
      (fun start after => before.Onward after ∧
        ∃ top, start = region.address top ∧ 0 ≤ top ∧
          ∀ index < count,
            Claimed before region (region.address (top + Int32.ofNat index)))
      (fun _ => before.Onward) := by
  simp only [allocate, ends_bind, ends_get]
  split
  case isTrue => exact onward
  case isFalse room =>
    simp only [ends_bind, ends_modify, ends_pure]
    rw [not_or, Int32.not_lt] at room
    obtain ⟨nonnegative, fits⟩ := room
    have limit := onward.tidy.addressable.capacity region
    have start := Int32.cast_toNatClampNeg (store.top region) nonnegative
    have later (extra : Nat) (small : extra ≤ count) :=
      toInt_add_ofNat nonnegative (show (store.top region).toNatClampNeg +
        extra < 2 ^ 31 by omega)
    have higher (extra : Nat) (small : extra ≤ count) :
        store.top region ≤ store.top region + Int32.ofNat extra := by
      rw [Int32.le_iff_toInt_le, later extra small]
      omega
    refine ⟨?_, store.top region, rfl, nonnegative, ?_⟩
    · refine onward.setTop (higher count (Nat.le_refl _)) ?_
      have grown : 0 ≤ store.top region + Int32.ofNat count :=
        Int32.le_trans nonnegative (higher count (Nat.le_refl _))
      have value := Int32.cast_toNatClampNeg _ grown
      rw [later count (Nat.le_refl _)] at value
      omega
    · intro index below
      refine ⟨_, rfl, ?_⟩
      rintro rfl
      exact Int32.le_trans onward.persists.heapTop
        (higher index (Nat.le_of_lt below))

theorem fill_onward (onward : before.Onward store) {region : Region}
    {start : Int32} {words : List Word}
    (claimed : ∀ index < words.length, Claimed before region
      (region.address (start + Int32.ofNat index)))
    (plain : ∀ word ∈ words, word.Plain) :
    Ends (fill region start words store) (fun _ => before.Onward)
      (fun _ => before.Onward) := by
  induction words generalizing store start with
  | nil => exact onward
  | cons word rest ih =>
      have first := claimed 0 (by simp)
      have here : start + Int32.ofNat 0 = start := by simp
      rw [here] at first
      simp only [fill, ends_bind]
      refine (storeFresh_onward onward (first.isOpen store)
        (fun _ => plain word List.mem_cons_self)).imp ?_ (fun _ _ kept => kept)
      rintro _ later ⟨onwardLater, -⟩
      refine ih onwardLater ?_ fun other member =>
        plain other (List.mem_cons_of_mem _ member)
      intro index below
      have next := claimed (index + 1) (by simpa using below)
      rwa [Int32.ofNat_add, Int32.add_comm (Int32.ofNat index),
        ← Int32.add_assoc] at next

/-- New cells with plain words. -/
theorem pushCells_onward (onward : before.Onward store) (region : Region)
    {words : List Word} (plain : ∀ word ∈ words, word.Plain) :
    Ends (pushCells region words store)
      (fun start after => before.Onward after ∧ start.pack.Plain)
      (fun _ => before.Onward) := by
  simp only [pushCells, ends_bind]
  refine (allocate_onward onward region words.length).imp ?_
    (fun _ _ kept => kept)
  rintro start later ⟨onwardLater, top, rfl, nonnegative, claimed⟩
  rw [Region.offset_address]
  exact (fill_onward onwardLater claimed plain).imp
    (fun _ _ kept => ⟨kept, Word.plain_cell nonnegative⟩) (fun _ _ kept => kept)

/-! ## Copies -/

/-- Every copy made so far is plain. -/
def PlainCopies (copies : Copies) : Prop :=
  ∀ (key : Tag × Address) copy, copies[key]? = some copy → copy.Plain

theorem PlainCopies.insert {copies : Copies} (plain : PlainCopies copies)
    (key : Tag × Address) {copy : Word} (plainCopy : copy.Plain) :
    PlainCopies (copies.insert key copy) := by
  intro other word found
  rw [Std.HashMap.getElem?_insert] at found
  split at found
  · cases found
    exact plainCopy
  · exact plain other word found

/-- A queued cell whose target has been claimed since. -/
structure TaskFits (before : Store) (region : Region) (task : CopyTask) :
    Prop where
  source : task.source.OffStack
  target : Claimed before region task.target

/-- What copying one cell yields. -/
structure CopyFits (before : Store) (region : Region) (copied : CellCopy) :
    Prop where
  word : copied.word.Plain
  copies : PlainCopies copied.copies
  tasks : ∀ task ∈ copied.tasks, TaskFits before region task

/-- A copy that needs no further work. -/
theorem CopyFits.done {region : Region} {word : Word} {copies : Copies}
    (plain : word.Plain) (plainCopies : PlainCopies copies) :
    CopyFits before region ⟨word, copies, []⟩ :=
  ⟨plain, plainCopies, fun _ member => nomatch member⟩

theorem storeClaimed_onward (onward : before.Onward store) {region : Region}
    {address : Address} {value : Word}
    (claimed : Claimed before region address)
    (plain : (∃ old, store.load address = .ok old) → value.Plain) :
    Ends (storeFresh address value store)
      (fun _ after => before.Onward after ∧
        ∃ old, store.load address = .ok old)
      (fun _ => before.Onward) := by
  have isOpen := claimed.isOpen store
  obtain ⟨index, rfl, -⟩ := claimed
  exact storeFresh_onward onward isOpen plain

omit [Atoms] in
theorem Claimed.offStack {region : Region} {address : Address}
    (claimed : Claimed before region address) : address.OffStack := by
  obtain ⟨index, rfl, -⟩ := claimed
  exact region.offStack index

omit [Atoms] in
/-- A claimed cell becomes an unbound variable.  Every other cell stays as it
is. -/
theorem storeReference_open {region : Region} {target unbound : Address}
    (claimed : Claimed before region target)
    (isOpen : before.Open store unbound) :
    Ends (storeFresh target (Word.reference target) store)
      (fun _ after => before.Open after unbound) (fun _ _ => True) := by
  obtain ⟨index, rfl, -⟩ := claimed
  have written : Ends ((do
        let _ ← StoreM.read fun store => store.slot (region.address index)
        modify fun store => store.put (region.address index)
          (Word.reference (region.address index)) : StoreM Unit) store)
      (fun _ after => before.Open after unbound) (fun _ _ => True) := by
    simp only [ends_bind, ends_read, ends_modify]
    split
    case h_2 => trivial
    case h_1 old found =>
      have present := Store.slot_eq_ok_iff.mp found
      intro place same below word present'
      rw [Store.load_put present] at present'
      split at present'
      case isTrue isTarget =>
        cases present'
        rw [Word.cell_reference, isTarget]
      case isFalse => exact isOpen place same below word present'
  cases region <;> exact written

theorem copyVariable_onward (onward : before.Onward store) {region : Region}
    (mode : CopyMode) {copies : Copies} (plain : PlainCopies copies)
    {unbound : Address} {word : Word} (offStack : unbound.OffStack)
    (found : store.load unbound = .ok word)
    (refers : word.cell = .reference unbound) {slot : Option Address}
    (claimed : ∀ target ∈ slot, Claimed before region target) :
    Ends (copyVariable region mode copies unbound slot store)
      (fun copied after => before.Onward after ∧
        CopyFits before region copied)
      (fun _ => before.Onward) := by
  -- Everything after the target is known.
  have finish : ∀ target, Claimed before region target → ∀ later : Store,
      before.Onward later → before.Open later unbound →
        Ends
          ((do
            let copy := Word.reference target
            storeFresh target copy
            if mode = .share then
              StoreM.store unbound copy
            return ⟨copy, copies.insert (.reference, unbound) copy, []⟩ :
              StoreM CellCopy) later)
          (fun copied after => before.Onward after ∧
            CopyFits before region copied)
          (fun _ => before.Onward) := by
    intro target isClaimed later onwardLater isOpen
    simp only [ends_bind]
    have plainTarget : (∃ old, later.load target = .ok old) →
        (Word.reference target).Plain := by
      rintro ⟨old, present⟩
      exact Cell.plain_tagged (by decide)
        (Store.plain_of_load isClaimed.offStack present)
    have stored := storeClaimed_onward onwardLater isClaimed plainTarget
    refine (stored.and (storeReference_open isClaimed isOpen)).imp ?_
      (fun _ _ kept => kept.1)
    rintro _ middle ⟨⟨onwardMiddle, present⟩, stillOpen⟩
    have plainCopy := plainTarget present
    have result : CopyFits before region ⟨Word.reference target,
        copies.insert (.reference, unbound) (Word.reference target), []⟩ :=
      .done plainCopy (plain.insert _ plainCopy)
    split
    · simp only [ends_bind, ends_pure]
      refine (store_onward onwardMiddle offStack stillOpen
        (fun _ => plainCopy)).imp ?_ (fun _ _ kept => kept)
      exact fun _ _ kept => ⟨kept.1, result⟩
    · exact ⟨onwardMiddle, result⟩
  have isOpen : before.Open store unbound := by
    intro index same _ other present
    rw [found] at present
    cases present
    exact refers
  unfold copyVariable
  by_cases shared : shares region mode unbound = true
  · rw [if_pos shared]
    exact ⟨onward, .done (Cell.plain_tagged (by decide)
      (Store.plain_of_load offStack found)) plain⟩
  · rw [if_neg shared]
    cases known : copies[(Tag.reference, unbound)]? with
    | some copy => exact ⟨onward, .done (plain _ _ known) plain⟩
    | none =>
        cases slot with
        | some target => exact finish target (claimed target rfl) store onward isOpen
        | none =>
            refine ends_bind.mpr ?_
            have untouched : Ends (allocate region 1 store)
                (fun _ after => before.Open after unbound) (fun _ _ => True) := by
              simp only [allocate, ends_bind, ends_get]
              split
              · trivial
              · intro index same below other present
                rw [Store.load_setTop] at present
                exact isOpen index same below other present
            refine ((allocate_onward onward region 1).and untouched).imp ?_
              (fun _ _ kept => kept.1)
            rintro start later ⟨⟨onwardLater, top, rfl, -, fresh⟩, stillOpen⟩
            have isClaimed := fresh 0 Nat.one_pos
            rw [show Int32.ofNat 0 = 0 from rfl, Int32.add_zero] at isClaimed
            exact finish _ isClaimed later onwardLater stillOpen

theorem copyStructure_onward (onward : before.Onward store)
    (table : FunctorTable) (region : Region) (mode : CopyMode)
    {copies : Copies} (plain : PlainCopies copies) {word : Word}
    (plainWord : word.Plain) {header : Address} (offStack : header.OffStack) :
    Ends (copyStructure table region mode copies word header store)
      (fun copied after => before.Onward after ∧
        CopyFits before region copied)
      (fun _ => before.Onward) := by
  unfold copyStructure
  by_cases shared : shares region mode header = true
  · rw [if_pos shared]
    exact ⟨onward, .done plainWord plain⟩
  · rw [if_neg shared]
    cases known : copies[(Tag.compound, header)]? with
    | some copy => exact ⟨onward, .done (plain _ _ known) plain⟩
    | none =>
        simp only [ends_bind, ends_read]
        split
        case h_2 => exact onward
        case h_1 functor _ =>
        refine (allocate_onward onward region (functor.arity + 1)).imp ?_
          (fun _ _ kept => kept)
        rintro start later ⟨onwardLater, top, rfl, nonnegative, claimed⟩
        simp only [StoreM.load, ends_read]
        split
        case h_2 => exact onwardLater
        case h_1 headerWord found =>
        have isClaimed : Claimed before region (region.address top) := by
          simpa using claimed 0 (by omega)
        refine (storeClaimed_onward onwardLater isClaimed (fun _ =>
          onwardLater.tidy.cells offStack found)).imp ?_ (fun _ _ kept => kept)
        rintro _ stored ⟨onwardStored, -⟩
        simp only [ofExcept, ends_read]
        split
        case h_2 => exact onwardStored
        case h_1 sources areSources =>
        split
        case h_2 => exact onwardStored
        case h_1 targets areTargets =>
        have plainCopy : (Word.compound (region.address top)).Plain :=
          Cell.plain_tagged (by decide) (Word.plain_cell nonnegative)
        refine ⟨onwardStored, plainCopy, plain.insert _ plainCopy, ?_⟩
        intro task member
        simp only [← List.map_uncurry_zip_eq_zipWith] at member
        obtain ⟨⟨source, target⟩, paired, rfl⟩ := List.mem_map.mp member
        obtain ⟨index, below, rfl⟩ :=
          arguments_address areTargets target (List.of_mem_zip paired).2
        exact ⟨Store.arguments_offStack offStack areSources source
          (List.of_mem_zip paired).1, claimed (index + 1) (by omega)⟩

theorem copyPair_onward (onward : before.Onward store) (region : Region)
    (mode : CopyMode) {copies : Copies} (plain : PlainCopies copies)
    {word : Word} (plainWord : word.Plain) {pair : Address}
    (offStack : pair.OffStack) :
    Ends (copyPair region mode copies word pair store)
      (fun copied after => before.Onward after ∧
        CopyFits before region copied)
      (fun _ => before.Onward) := by
  unfold copyPair
  by_cases shared : shares region mode pair = true
  · rw [if_pos shared]
    exact ⟨onward, .done plainWord plain⟩
  · rw [if_neg shared]
    cases known : copies[(Tag.list, pair)]? with
    | some copy => exact ⟨onward, .done (plain _ _ known) plain⟩
    | none =>
        refine ends_bind.mpr ((allocate_onward onward region 2).imp ?_
          (fun _ _ kept => kept))
        rintro start later ⟨onwardLater, top, rfl, nonnegative, claimed⟩
        simp only [ends_bind, ofExcept, ends_read]
        split
        case h_2 => exact onwardLater
        case h_1 sourceTail isTail =>
        simp only [Region.shift_address]
        have plainCopy : (Word.list (region.address top)).Plain :=
          Cell.plain_tagged (by decide) (Word.plain_cell nonnegative)
        refine ⟨onwardLater, plainCopy, plain.insert _ plainCopy, ?_⟩
        intro task member
        simp only [List.mem_cons, List.not_mem_nil, or_false] at member
        rcases member with rfl | rfl
        · exact ⟨offStack, by simpa using claimed 0 (by omega)⟩
        · exact ⟨offStack.shift isTail, claimed 1 (by omega)⟩

theorem copyValue_onward (onward : before.Onward store) (table : FunctorTable)
    (region : Region) (mode : CopyMode) {copies : Copies}
    (plain : PlainCopies copies) {word : Word} (plainWord : word.Plain) :
    Ends (copyValue table region mode copies word store)
      (fun copied after => before.Onward after ∧
        CopyFits before region copied)
      (fun _ => before.Onward) := by
  unfold copyValue
  cases decoded : word.cell with
  | compound header =>
      exact copyStructure_onward onward table region mode plain plainWord
        (Store.Plain.of_cell plainWord (.inr (.inl decoded)))
  | list pair =>
      exact copyPair_onward onward region mode plain plainWord
        (Store.Plain.of_cell plainWord (.inr (.inr decoded)))
  | _ => exact ⟨onward, .done plainWord plain⟩

theorem copyCell_onward (onward : before.Onward store) (table : FunctorTable)
    (region : Region) (mode : CopyMode) {copies : Copies}
    (plain : PlainCopies copies) {word : Word} (plainWord : word.Plain)
    {slot : Option Address}
    (claimed : ∀ target ∈ slot, Claimed before region target) :
    Ends (copyCell table region mode copies word slot store)
      (fun copied after => before.Onward after ∧
        CopyFits before region copied)
      (fun _ => before.Onward) := by
  unfold copyCell
  cases decoded : word.cell with
  | reference address =>
      simp only [StoreM.deref, StoreM.load, ends_bind, ends_read]
      split
      case h_2 => exact onward
      case h_1 ending followed =>
      split
      case h_2 => exact onward
      case h_1 value found =>
      have leads := Store.deref_eq_ok_iff.mp followed
      have spot : store.Spot address :=
        .inl (Store.Plain.of_cell plainWord (.inl decoded))
      have spotEnding := leads.spot onward.tidy spot
      have plainValue := spotEnding.plain onward.tidy found
      cases decodedValue : value.cell with
      | reference next =>
          have refers : value.cell = .reference ending := by
            obtain ⟨other, present, ends⟩ := leads.root
            rw [found] at present
            cases present
            rw [decodedValue, ends next decodedValue]
          exact copyVariable_onward onward mode plain
            (spotEnding.offStack_of_unbound onward.tidy found refers) found
            refers claimed
      | _ => exact copyValue_onward onward table region mode plain plainValue
  | _ => exact copyValue_onward onward table region mode plain plainWord

theorem copyTasks_onward (onward : before.Onward store) (table : FunctorTable)
    (region : Region) (mode : CopyMode) (steps : Nat) {copies : Copies}
    (plain : PlainCopies copies) {tasks : List CopyTask}
    (fits : ∀ task ∈ tasks, TaskFits before region task) :
    Ends (copyTasks table region mode steps copies tasks store)
      (fun _ => before.Onward) (fun _ => before.Onward) := by
  induction steps generalizing store copies tasks with
  | zero =>
      cases tasks with
      | nil => exact onward
      | cons task rest => exact onward
  | succ steps ih =>
      cases tasks with
      | nil => exact onward
      | cons task rest =>
          have here := fits task List.mem_cons_self
          simp only [copyTasks, StoreM.load, ends_bind, ends_read]
          split
          case h_2 => exact onward
          case h_1 word found =>
          have slotClaimed : ∀ target ∈ some task.target,
              Claimed before region target := by
            simpa using here.target
          refine (copyCell_onward onward table region mode plain
            (onward.tidy.cells here.source found) slotClaimed).imp ?_
            (fun _ _ kept => kept)
          rintro copied later ⟨onwardLater, copyFits⟩
          refine (storeClaimed_onward onwardLater here.target
            (fun _ => copyFits.word)).imp ?_ (fun _ _ kept => kept)
          rintro _ stored ⟨onwardStored, -⟩
          refine ih onwardStored copyFits.copies ?_
          intro other member
          rcases List.mem_append.mp member with isNew | isOld
          · exact copyFits.tasks other isNew
          · exact fits other (List.mem_cons_of_mem _ isOld)

theorem copyTerm_onward (onward : before.Onward store) (table : FunctorTable)
    {root : Word} (plain : root.Plain) (region : Region) (mode : CopyMode) :
    Ends (copyTerm table root region mode store)
      (fun copy after => before.Onward after ∧ copy.Plain)
      (fun _ => before.Onward) := by
  have none : PlainCopies {} := by
    intro key copy found
    simp at found
  have noSlot : ∀ target ∈ (Option.none : Option Address),
      Claimed before region target := by
    simp
  refine ends_bind.mpr ((copyCell_onward onward table region mode none plain
    noSlot).imp ?_ (fun _ _ kept => kept))
  rintro copied later ⟨onwardLater, fits⟩
  simp only [ends_bind, ends_get]
  exact (copyTasks_onward onwardLater table region mode _ fits.copies
    fits.tasks).imp (fun _ _ kept => ⟨kept, fits.word⟩) (fun _ _ kept => kept)

/-! ## Binding and unifying -/

theorem bindTo_onward (onward : before.Onward store) (table : FunctorTable)
    {target : Address} (source : Address) {value : Word}
    (offStack : target.OffStack) (isOpen : before.Open store target)
    (plain : value.Plain) :
    Ends (bindTo table target source value store) (fun _ => before.Onward)
      (fun _ => before.Onward) := by
  unfold bindTo
  split
  case isTrue retained =>
    refine ends_bind.mpr ((copyTerm_onward onward table plain .retained
      .share).imp ?_ (fun _ _ kept => kept))
    rintro copy later ⟨onwardLater, plainCopy⟩
    refine (store_onward onwardLater offStack ?_ (fun _ => plainCopy)).imp
      (fun _ _ kept => kept.1) (fun _ _ kept => kept)
    rintro index rfl
    cases retained
  case isFalse =>
    exact (store_onward onward offStack isOpen (fun _ => plain)).imp
      (fun _ _ kept => kept.1) (fun _ _ kept => kept)

/-- Binding one of two cells either of which may be overwritten. -/
theorem bindVariable_onward (onward : before.Onward store)
    (table : FunctorTable) {first second : Address}
    (firstSpot : store.Spot first) (secondSpot : store.Spot second)
    (firstOpen : ∀ word, store.load first = .ok word →
      (word.tag == .reference) = true →
      first.OffStack ∧ before.Open store first)
    (secondOpen : ∀ word other, store.load first = .ok word →
      store.load second = .ok other →
      (word.tag == .reference && (other.tag != .reference ||
        second.before first)) = false →
      second.OffStack ∧ before.Open store second) :
    Ends (bindVariable table first second store) (fun _ => before.Onward)
      (fun _ => before.Onward) := by
  simp only [bindVariable, StoreM.load, ends_bind, ends_read]
  split
  case h_2 => exact onward
  case h_1 firstWord foundFirst =>
  split
  case h_2 => exact onward
  case h_1 secondWord foundSecond =>
  have firstPlain := firstSpot.plain onward.tidy foundFirst
  have secondPlain := secondSpot.plain onward.tidy foundSecond
  split
  case isTrue chosen =>
    rw [Bool.and_eq_true] at chosen
    obtain ⟨offStack, isOpen⟩ := firstOpen firstWord foundFirst chosen.1
    exact bindTo_onward onward table second offStack isOpen secondPlain
  case isFalse chosen =>
    obtain ⟨offStack, isOpen⟩ := secondOpen firstWord secondWord foundFirst
      foundSecond (by simpa using chosen)
    exact bindTo_onward onward table first offStack isOpen firstPlain

/-- A root with the tag of a reference is an unbound variable. -/
theorem open_of_root (onward : before.Onward store) {address : Address}
    {word : Word} (spot : store.Spot address) (root : store.IsRoot address)
    (found : store.load address = .ok word) (isReference : word.tag = .reference) :
    address.OffStack ∧ before.Open store address := by
  have refers : word.cell = .reference address := by
    obtain ⟨other, present, ends⟩ := root
    rw [found] at present
    cases present
    have decoded := Word.tag_eq_reference_iff.mp isReference
    rw [decoded, ends _ decoded]
  refine ⟨spot.offStack_of_unbound onward.tidy found refers, ?_⟩
  intro index same _ other present
  rw [found] at present
  cases present
  exact refers

/-- The work on a pair goes onward, and leaves pairs of cells. -/
def Splits (before store : Store) (action : StoreM (Option (List Equation))) :
    Prop :=
  Ends (action store)
    (fun outcome after => before.Onward after ∧
      ∀ equations, outcome = some equations → ∀ other ∈ equations,
        other.left.OffStack ∧ other.right.OffStack)
    (fun _ => before.Onward)

/-- No more pairs are left. -/
theorem splits_done {after : Store} (onward : before.Onward after)
    (outcome : Option (List Equation))
    (done : outcome = some [] ∨ outcome = none) :
    before.Onward after ∧
      ∀ equations, outcome = some equations → ∀ other ∈ equations,
        other.left.OffStack ∧ other.right.OffStack := by
  rcases done with rfl | rfl
  · refine ⟨onward, ?_⟩
    rintro _ ⟨⟩ _ member
    cases member
  · refine ⟨onward, ?_⟩
    rintro _ ⟨⟩

/-- At least one of the two roots is an unbound variable, and that one is bound. -/
theorem bindRoots_onward (onward : before.Onward store) (table : FunctorTable)
    {left right : Address} {leftWord rightWord : Word}
    (leftSpot : store.Spot left) (rightSpot : store.Spot right)
    (leftRoot : store.IsRoot left) (rightRoot : store.IsRoot right)
    (leftFound : store.load left = .ok leftWord)
    (rightFound : store.load right = .ok rightWord)
    (oneRefers : leftWord.tag = .reference ∨ rightWord.tag = .reference) :
    Splits before store (do
      bindVariable table left right
      return some []) := by
  refine ends_bind.mpr ((bindVariable_onward onward table leftSpot rightSpot
    ?_ ?_).imp (fun _ _ kept => splits_done kept _ (.inl rfl))
    (fun _ _ kept => kept))
  · intro word found isReference
    exact open_of_root onward leftSpot leftRoot found
      (by simpa using isReference)
  · intro word other found present chosen
    rw [leftFound] at found
    rw [rightFound] at present
    cases found
    cases present
    refine open_of_root onward rightSpot rightRoot rightFound ?_
    rcases oneRefers with leftRefers | rightRefers
    · apply Classical.byContradiction
      intro other
      simp [leftRefers, other] at chosen
    · exact rightRefers

theorem unifyPair_onward (onward : before.Onward store) (table : FunctorTable)
    {equation : Equation} (left : store.Spot equation.left)
    (right : store.Spot equation.right) :
    Splits before store (unifyPair table equation) := by
  unfold Splits unifyPair
  simp only [StoreM.deref, StoreM.load, ends_bind, ends_read]
  split
  case h_2 => exact onward
  case h_1 leftRoot leftFollowed =>
  split
  case h_2 => exact onward
  case h_1 rightRoot rightFollowed =>
  have leftLeads := Store.deref_eq_ok_iff.mp leftFollowed
  have rightLeads := Store.deref_eq_ok_iff.mp rightFollowed
  have leftSpot := leftLeads.spot onward.tidy left
  have rightSpot := rightLeads.spot onward.tidy right
  split
  case isTrue => exact splits_done onward _ (.inl rfl)
  case isFalse =>
  simp only [ends_bind, ends_read]
  split
  case h_2 => exact onward
  case h_1 leftWord leftFound =>
  split
  case h_2 => exact onward
  case h_1 rightWord rightFound =>
  have leftPlain := leftSpot.plain onward.tidy leftFound
  have rightPlain := rightSpot.plain onward.tidy rightFound
  have binding := bindRoots_onward onward table leftSpot rightSpot
    leftLeads.root rightLeads.root leftFound rightFound
  change Splits before store _
  split
  case h_1 leftCell => exact binding (.inl (Word.tag_of_cell leftCell))
  case h_2 rightCell _ => exact binding (.inr (Word.tag_of_cell rightCell))
  case h_3 =>
    refine splits_done onward _ ?_
    split
    · exact .inl rfl
    · exact .inr rfl
  case h_4 pair other leftCell rightCell =>
    have pairOff := Store.Plain.of_cell leftPlain (.inr (.inr leftCell))
    have otherOff := Store.Plain.of_cell rightPlain (.inr (.inr rightCell))
    split
    case isTrue => exact splits_done onward _ (.inl rfl)
    case isFalse =>
    simp only [Splits, ofExcept, ends_bind, ends_read]
    split
    case h_2 => exact onward
    case h_1 tail isTail =>
    split
    case h_2 => exact onward
    case h_1 otherTail isOtherTail =>
    refine ⟨onward, ?_⟩
    rintro _ ⟨⟩ equation member
    simp only [List.mem_cons, List.not_mem_nil, or_false] at member
    rcases member with rfl | rfl
    · exact ⟨pairOff, otherOff⟩
    · exact ⟨pairOff.shift isTail, otherOff.shift isOtherTail⟩
  case h_5 header other leftCell rightCell =>
    have headerOff := Store.Plain.of_cell leftPlain (.inr (.inl leftCell))
    have otherOff := Store.Plain.of_cell rightPlain (.inr (.inl rightCell))
    split
    case isTrue => exact splits_done onward _ (.inl rfl)
    case isFalse =>
    simp only [Splits, ofExcept, ends_bind, ends_read]
    split
    case h_2 => exact onward
    case h_1 functor _ =>
    split
    case h_2 => exact onward
    case h_1 otherFunctor _ =>
    split
    case isFalse => exact splits_done onward _ (.inr rfl)
    case isTrue =>
    simp only [ends_bind, ends_read]
    split
    case h_2 => exact onward
    case h_1 arguments areArguments =>
    split
    case h_2 => exact onward
    case h_1 others areOthers =>
    refine ⟨onward, ?_⟩
    rintro _ ⟨⟩ equation member
    simp only [← List.map_uncurry_zip_eq_zipWith] at member
    obtain ⟨⟨first, second⟩, paired, rfl⟩ := List.mem_map.mp member
    exact ⟨Store.arguments_offStack headerOff areArguments first
        (List.of_mem_zip paired).1,
      Store.arguments_offStack otherOff areOthers second
        (List.of_mem_zip paired).2⟩
  case h_6 =>
    refine splits_done onward _ ?_
    split
    · exact .inl rfl
    · exact .inr rfl
  case h_7 => exact splits_done onward _ (.inr rfl)

theorem unifyAll_onward (onward : before.Onward store) (table : FunctorTable)
    (steps : Nat) {equations : List Equation}
    (spots : ∀ equation ∈ equations,
      before.Spot equation.left ∧ before.Spot equation.right) :
    Ends (unifyAll table steps equations store) (fun _ => before.Onward)
      (fun _ => before.Onward) := by
  induction steps generalizing store equations with
  | zero =>
      cases equations with
      | nil => exact onward
      | cons equation rest => exact onward
  | succ steps ih =>
      cases equations with
      | nil => exact onward
      | cons equation rest =>
          have here := spots equation List.mem_cons_self
          refine ends_bind.mpr ((unifyPair_onward onward table
            (here.1.of_stack onward.stack) (here.2.of_stack onward.stack)).imp
            ?_ (fun _ _ kept => kept))
          rintro outcome later ⟨onwardLater, added⟩
          cases outcome with
          | none => exact onwardLater
          | some arguments =>
              refine ih onwardLater ?_
              intro other member
              rcases List.mem_append.mp member with isNew | isOld
              · have offStack := added arguments rfl other isNew
                exact ⟨.inl offStack.1, .inl offStack.2⟩
              · exact spots other (List.mem_cons_of_mem _ isOld)

theorem unify_onward (tidy : store.Tidy) (table : FunctorTable) (steps : Nat)
    {left right : Address} (leftSpot : store.Spot left)
    (rightSpot : store.Spot right) :
    Ends (unify table steps left right store) (fun _ => store.Onward)
      (fun _ => store.Onward) := by
  refine unifyAll_onward (.refl tidy) table steps ?_
  intro equation member
  cases List.mem_singleton.mp member
  exact ⟨leftSpot, rightSpot⟩

end StoreM

end LogicMachine
