import LogicMachine.Proofs.Execution.Logic
import LogicMachine.Proofs.Execution.Terms
import LogicMachine.Proofs.Unification.Divergence

/-!
# Running code that unifies

The instructions that bind variables work on the whole store, stack included.
Seen from the memory they make the trees of two words equal and leave all other
words as they are.
-/

namespace LogicMachine

/-- A unification that had an answer has it as well if it may take more
steps. -/
theorem MachineM.unifyTop_more {steps more : Nat} (enough : steps ≤ more)
    {machine after : Machine} {success : Bool}
    (answers : unifyTop steps machine = .ok success after) :
    unifyTop more machine = .ok success after := by
  have same (first second : Address) {before last : Machine} {answer : Bool}
      (answered : unify steps first second before = .ok answer last) :
      unify more first second before = .ok answer last := by
    simp only [unify, onStore, StoreM.unify] at answered ⊢
    rw [unifyAll_more enough ?_]
    · exact answered
    · intro stopped diverged
      rw [diverged] at answered
      cases answered
  simp only [unifyTop, bind, EStateM.bind] at answers ⊢
  split at answers
  case h_2 => cases answers
  case h_1 first middle popped =>
    split at answers
    case h_2 => cases answers
    case h_1 second last also => exact same first second answers

namespace Store

/-- A later memory has the valuations that give two words the same tree. -/
structure Equates (table : FunctorTable) (cells : Set Address) (before : Store)
    (left right : Word) (larger : Set Address) (after : Store) : Prop where
  evolves : Evolves table cells before larger after
  covered : ∀ address ∈ after.allocated, address ∈ before.allocated ∨
    address ∈ larger ∨ after.IsHeader address
  sound : ∀ (T : Type) [TreeAlgebra T] (value : Address → T),
    after.Respects table larger value → before.Respects table cells value ∧
      ∃ tree, left.Denotes table before value tree ∧
        right.Denotes table before value tree
  complete : ∀ (T : Type) [TreeAlgebra T] (known : Address → T),
    before.Respects table cells known →
    (∃ tree, left.Denotes table before known tree ∧
      right.Denotes table before known tree) →
    ∃ value : Address → T, after.Respects table larger value ∧
      ∀ address ∈ cells, value address = known address

/-- No valuation gives two words the same tree. -/
def Clash (table : FunctorTable) (cells : Set Address) (store : Store)
    (left right : Word) : Prop :=
  ∀ (T : Type) [TreeAlgebra T] (known : Address → T),
    store.Respects table cells known → ∀ tree,
      left.Denotes table store known tree →
        ¬ right.Denotes table store known tree

theorem Respects.congr {T : Type} [TreeAlgebra T] {table : FunctorTable}
    {cells : Set Address} {store : Store} {value other : Address → T}
    (respects : store.Respects table cells value)
    (closed : store.Closed table cells)
    (same : ∀ address ∈ cells, other address = value address) :
    store.Respects table cells other := by
  intro address inside word found
  obtain ⟨loaded, here, formed⟩ := closed.formed address inside
  rw [found] at here
  cases here
  rw [same address inside]
  exact (respects address inside word found).congr formed (fun _ _ _ => id)
    same same

section Slots

variable {table : FunctorTable} {store after : Store}
  {cells slots : Set Address}

/-- A cell or a slot, with a word for its term. -/
inductive Site (store : Store) (cells slots : Set Address) :
    Address → Word → Prop where
  | cell {address : Address} : address ∈ cells →
      Site store cells slots address (.reference address)
  | slot {address : Address} {word : Word} : address ∈ slots →
      store.load address = .ok word → Site store cells slots address word

theorem Site.inside {address : Address} {word : Word}
    (isTerm : store.Site cells slots address word) :
    address ∈ cells ∪ slots := by
  cases isTerm with
  | cell inside => exact .inl inside
  | slot inside => exact .inr inside

theorem Site.denotes {T : Type} [TreeAlgebra T] {address : Address}
    {word : Word} (isTerm : store.Site cells slots address word)
    {value : Address → T} (respects : store.SlotsRespect table slots value) :
    word.Denotes table store.memory value (value address) := by
  cases isTerm with
  | cell inside => simp [Word.Denotes]
  | slot inside found => exact respects address inside word found

/-- A valuation of the memory gives every slot the tree of its word. -/
theorem exists_lifted {T : Type} [TreeAlgebra T]
    (terms : store.memory.Terms table cells)
    (holding : store.Holding table cells slots) {known : Address → T}
    (respects : store.memory.Respects table cells known) :
    ∃ lifted : Address → T,
      (∀ address ∈ cells, lifted address = known address) ∧
      store.Respects table (cells ∪ slots) lifted ∧
      ∀ address word tree, store.Site cells slots address word →
        word.IsTerm table store.memory cells →
        word.Denotes table store.memory known tree →
        lifted address = tree := by
  obtain ⟨lifted, same, slotsRespect⟩ :=
    exists_slotsRespect terms holding known
  refine ⟨lifted, same, (respects_with terms holding).mpr
    ⟨respects.congr terms.toClosed same, slotsRespect⟩, ?_⟩
  intro address word tree site isTerm denotes
  exact (site.denotes slotsRespect).unique
    (denotes.congr isTerm.formed (fun _ _ _ => id) same same)

/-- Solving an equation in the store solves it in the memory. -/
theorem Equates.of_reduced (terms : store.memory.Terms table cells)
    (bottom : -1 ≤ store.pointer) (holding : store.Holding table cells slots)
    {first second : Address} {left right : Word}
    (firstSite : store.Site cells slots first left)
    (secondSite : store.Site cells slots second right)
    (leftTerm : left.IsTerm table store.memory cells)
    (rightTerm : right.IsTerm table store.memory cells)
    (reduced : ∀ (T : Type) [TreeAlgebra T], Reduced T table (cells ∪ slots)
      store [⟨first, second⟩] [] after) :
    store.memory.Equates table cells left right
      (inMemory (cells ∪ slots ∪ store.addedTo after)) after.memory := by
  have parts (T : Type) [TreeAlgebra T] :
      Extends table .retained (cells ∪ slots) store
        (cells ∪ slots ∪ store.addedTo after) after ∧
      Reduces T table (cells ∪ slots) store
        (cells ∪ slots ∪ store.addedTo after) after [⟨first, second⟩] [] := by
    obtain ⟨larger, extended, reduces, -⟩ := reduced T
    rw [← extended.larger_eq]
    exact ⟨extended, reduces⟩
  have extended := (parts Tree).1
  have evolves := extended.evolves terms bottom holding
  have holdingLater := extended.holding terms bottom holding
  have split := extended.inMemory_union terms
  constructor
  case evolves => exact evolves
  case covered => exact fun _ => extended.covered_memory
  case sound =>
    intro T _ value respects
    obtain ⟨lifted, same, slotsRespect⟩ :=
      exists_slotsRespect evolves.terms holdingLater value
    have liftedRespects := respects.congr evolves.terms.toClosed same
    have whole := (respects_with evolves.terms holdingLater).mpr
      ⟨liftedRespects, slotsRespect⟩
    rw [split] at whole
    obtain ⟨earlier, holds⟩ := (parts T).2.sound lifted whole (by simp)
    obtain ⟨inCells, inSlots⟩ := (respects_with terms holding).mp earlier
    have agree : ∀ address ∈ cells, value address = lifted address :=
      fun address inside => (same address (evolves.more inside)).symm
    have equal : lifted first = lifted second := holds _ List.mem_cons_self
    refine ⟨inCells.congr terms.toClosed agree, lifted first, ?_, ?_⟩
    · exact (firstSite.denotes inSlots).congr leftTerm.formed
        (fun _ _ _ => id) agree agree
    · rw [equal]
      exact (secondSite.denotes inSlots).congr rightTerm.formed
        (fun _ _ _ => id) agree agree
  case complete =>
    rintro T _ known respects ⟨tree, leftTree, rightTree⟩
    obtain ⟨lifted, same, whole, denoted⟩ :=
      exists_lifted terms holding respects
    have holds : ∀ equation ∈ [Equation.mk first second],
        equation.Holds lifted := by
      intro equation member
      cases List.mem_singleton.mp member
      unfold Equation.Holds
      rw [denoted _ _ _ firstSite leftTerm leftTree,
        denoted _ _ _ secondSite rightTerm rightTree]
    obtain ⟨value, later, -, agree⟩ :=
      (parts T).2.complete lifted whole holds
    rw [← split] at later
    refine ⟨value, ((respects_with evolves.terms holdingLater).mp later).1, ?_⟩
    intro address inside
    rw [agree address (.inl inside), same address inside]

/-- An equation that no valuation of the store solves is solved by none of the
memory. -/
theorem Clash.of_unsolved (terms : store.memory.Terms table cells)
    (holding : store.Holding table cells slots)
    {first second : Address} {left right : Word}
    (firstSite : store.Site cells slots first left)
    (secondSite : store.Site cells slots second right)
    (leftTerm : left.IsTerm table store.memory cells)
    (rightTerm : right.IsTerm table store.memory cells)
    (unsolved : ∀ (T : Type) [TreeAlgebra T] (value : Address → T),
      store.Respects table (cells ∪ slots) value →
        ¬ ∀ equation ∈ [Equation.mk first second], equation.Holds value) :
    store.memory.Clash table cells left right := by
  intro T _ known respects tree leftTree rightTree
  obtain ⟨lifted, -, whole, denoted⟩ := exists_lifted terms holding respects
  apply unsolved T lifted whole
  intro equation member
  cases List.mem_singleton.mp member
  unfold Equation.Holds
  rw [denoted _ _ _ firstSite leftTerm leftTree,
    denoted _ _ _ secondSite rightTerm rightTree]

end Slots

end Store

/-! ## The machine -/

namespace View

/-- The slots of the frame that hold words for terms. -/
def termSlots (table : FunctorTable) (view : View) (cells : Set Address) :
    Set Address :=
  { address | ∃ (index : Nat) (word : Word),
    address = .stack (Int32.ofNat index) ∧ view.frame[index]? = some word ∧
      word.IsTerm table view.memory cells }

/-- An address that stands for a term: a cell, or a slot of the frame. -/
inductive Subject (table : FunctorTable) (view : View) (cells : Set Address) :
    Address → Word → Prop where
  | cell {address : Address} : address ∈ cells →
      Subject table view cells address (.reference address)
  | slot {index : Nat} {word : Word} : view.frame[index]? = some word →
      word.IsTerm table view.memory cells →
      Subject table view cells (.stack (Int32.ofNat index)) word

theorem Subject.isTerm {table : FunctorTable} {view : View}
    {cells : Set Address} {address : Address} {word : Word}
    (subject : view.Subject table cells address word) :
    word.IsTerm table view.memory cells := by
  cases subject with
  | cell inside =>
      refine ⟨?_, Word.Sound.of_cell (List.mem_cons_self) rfl⟩
      simpa [Word.Formed] using inside
  | slot _ isTerm => exact isTerm

theorem Subject.withOperands {table : FunctorTable} {view : View}
    {cells : Set Address} {address : Address} {word : Word}
    (subject : view.Subject table cells address word)
    (operands : List Operand) :
    View.Subject table { view with operands } cells address word := by
  cases subject with
  | cell inside => exact .cell inside
  | slot found isTerm => exact .slot found isTerm

end View

namespace Shows

variable {context : Context} {position : Nat} {view : View}
  {machine : Machine} {cells larger : Set Address}

theorem holding (shown : Shows context position view machine)
    (table : FunctorTable) (cells : Set Address) :
    machine.store.Holding table cells (view.termSlots table cells) := by
  rintro address ⟨index, word, rfl, found, isTerm⟩
  have inside := (List.getElem?_eq_some_iff.mp found).1
  have present : view.stack[index]? = some word := by
    rw [View.stack, List.getElem?_append_left inside]
    exact found
  have below := (List.getElem?_eq_some_iff.mp present).1
  have small := shown.stacked.small shown.addressable
  rw [← shown.memory] at isTerm
  refine ⟨⟨_, rfl, ?_⟩, word, shown.stacked.load_eq shown.addressable present,
    isTerm⟩
  rw [shown.stacked.pointer, Int32.le_iff_toInt_le,
    Store.toInt_ofNat (by omega), Store.toInt_ofInt_pred small]
  omega

theorem site (shown : Shows context position view machine)
    {table : FunctorTable} {address : Address} {word : Word}
    (subject : view.Subject table cells address word) :
    machine.store.Site cells (view.termSlots table cells) address word := by
  cases subject with
  | cell inside => exact .cell inside
  | slot found isTerm =>
      exact .slot ⟨_, _, rfl, found, isTerm⟩
        (shown.load_eq (.inr ⟨_, rfl, found⟩))

/-- The machine when terms in its store were bound. -/
theorem extended (shown : Shows context position view machine)
    {table : FunctorTable} {after : Store}
    (terms : view.memory.Terms table cells)
    (extended : Store.Extends table .retained
      (cells ∪ view.termSlots table cells) machine.store larger after)
    (guarded : context.guard.Holds after) :
    Shows context position { view with memory := after.memory }
      { machine with store := after } := by
  rw [← shown.memory] at terms
  have grows := extended.grows
  have addressable : after.Addressable := by
    have addressable := shown.addressable
    refine ⟨?_, ?_, ?_⟩
    · exact (grows.capacity .heap).trans_lt addressable.heap
    · exact (grows.capacity .retained).trans_lt addressable.retained
    · exact grows.stackSize.trans_lt addressable.stack
  have room : ∀ region, after.memory.Room region := by
    intro region
    unfold Store.Room
    rw [Store.top_memory, Store.capacity_memory]
    cases region with
    | heap =>
        rw [grows.top_eq .heap (by simp), grows.capacity]
        exact shown.room .heap
    | retained => exact grows.room (shown.room .retained)
  have stacked : after.Stacked view.stack := by
    refine ⟨grows.pointer.trans shown.stacked.pointer, ?_, ?_⟩
    · rw [grows.stackSize]
      exact shown.stacked.fits
    · intro index word found
      have inside := (List.getElem?_eq_some_iff.mp found).1
      have small := shown.stacked.small shown.addressable
      rw [← Store.load_stack (by omega),
        extended.stack_eq terms (shown.holding table cells)]
      exact shown.stacked.load_eq shown.addressable found
  exact shown.withStore guarded addressable rfl room stacked rfl rfl rfl

/-- The machine when two words have been given the same tree. -/
def Equated (context : Context) (position : Nat) (view : View)
    (cells : Set Address) (left right : Word) (machine : Machine) : Prop :=
  ∃ larger memory,
    view.memory.Equates context.program.functors cells left right larger
      memory ∧
    Shows context position { view with memory } machine

/-- The cells and the slots of the frame, as the guard wants to have them. -/
theorem bears (shown : Shows context position view machine)
    (terms : view.memory.Terms context.program.functors cells)
    (apart : ∀ address ∈ cells, address ∉ context.guard.lost) :
    machine.store.Bears context.program.functors cells
      (view.termSlots context.program.functors cells) context.guard.lost where
  terms := by rwa [shown.memory]
  bottom := shown.stack_bounds.1
  holding := shown.holding context.program.functors cells
  apart := apart

theorem unify_ends (shown : Shows context position view machine)
    (terms : view.memory.Terms context.program.functors cells)
    (apart : ∀ address ∈ cells, address ∉ context.guard.lost)
    {first second : Address} {left right : Word}
    (firstSubject :
      view.Subject context.program.functors cells first left)
    (secondSubject :
      view.Subject context.program.functors cells second right)
    (fuel : Nat) :
    Ends (MachineM.unify fuel first second machine)
      (fun success after =>
        if success then Equated context position view cells left right after
        else view.memory.Clash context.program.functors cells left right ∧
          context.Keeps after ∧ context.guard.Holds after.store)
      (fun fault after => (Exhausts fault after ∨ fault = .diverged ∧
        after.store.Endless context.program.functors fuel) ∧
          context.Halts view.memory after) := by
  rw [MachineM.unify, MachineM.ends_onStore, shown.functors]
  have bears := shown.bears terms apart
  have leftTerm := firstSubject.isTerm
  have rightTerm := secondSubject.isTerm
  have held := shown.holding context.program.functors cells
  have firstSite := shown.site firstSubject
  have secondSite := shown.site secondSubject
  have known := terms
  rw [← shown.memory] at terms leftTerm rightTerm
  have bottom := shown.stack_bounds.1
  have wellFormed := terms.wellFormed_with bottom held
  have small := shown.addressable.retained
  have sides : ∀ equation ∈ [Equation.mk first second],
      equation.left ∈ cells ∪ view.termSlots context.program.functors cells ∧
        equation.right ∈ cells ∪ view.termSlots context.program.functors cells := by
    intro equation member
    cases List.mem_singleton.mp member
    exact ⟨firstSite.inside, secondSite.inside⟩
  have ended (T : Type) [TreeAlgebra T] :=
    unifyAll_ends T fuel wellFormed small sides
  have stopped := unifyAll_stopped fuel wellFormed small sides
  have kept := context.guard.unify shown.guarded bears shown.addressable
    firstSite.inside secondSite.inside fuel
  cases ran : StoreM.unify context.program.functors fuel first second
      machine.store with
  | ok success after =>
      have guarded : context.guard.Holds after := by rwa [ran] at kept
      unfold StoreM.unify at ran
      rw [ran] at ended
      cases success with
      | true =>
          have reduced (T : Type) [TreeAlgebra T] := ended T
          have equates := Store.Equates.of_reduced terms bottom held firstSite
            secondSite leftTerm rightTerm reduced
          obtain ⟨larger, extended, -⟩ := reduced Tree
          rw [shown.memory] at equates
          exact ⟨_, after.memory, equates,
            shown.extended known extended guarded⟩
      | false =>
          have clash := Store.Clash.of_unsolved terms held firstSite secondSite
            leftTerm rightTerm fun T _ => ended T
          rw [shown.memory] at clash
          exact ⟨clash, ⟨shown.program, shown.collectors⟩, guarded⟩
  | error fault after =>
      have rests : context.guard.Rests machine.store.retainedTop after := by
        rwa [ran] at kept
      rw [← Store.retainedTop_memory, shown.memory] at rests
      unfold StoreM.unify at ran
      have faulty := ended Tree
      rw [ran] at faulty stopped
      refine ⟨?_, shown.halts rests⟩
      rcases faulty with ⟨full, -⟩ | ⟨diverged, -⟩
      · exact .inl ⟨_, _, full⟩
      · obtain ⟨larger, extended, sizes⟩ := stopped diverged
        refine .inr ⟨diverged, larger, first, extended.closed,
          extended.more firstSite.inside, ?_⟩
        intro value respects
        have large := sizes value respects
        simpa [totalSize] using large

theorem bind_ends (shown : Shows context position view machine)
    (terms : view.memory.Terms context.program.functors cells)
    (apart : ∀ address ∈ cells, address ∉ context.guard.lost)
    {first second : Address} {firstWord secondWord : Word}
    (firstRoot : view.memory.RootAt cells first firstWord)
    (secondRoot : view.memory.RootAt cells second secondWord)
    (different : first ≠ second)
    (free : ∃ next, secondWord.cell = .reference next) :
    Ends (MachineM.bindVariable first second machine)
      (fun _ => Equated context position view cells (.reference first)
        (.reference second))
      (context.Stops view.memory) := by
  rw [MachineM.bindVariable, MachineM.ends_onStore, shown.functors]
  have bears := shown.bears terms apart
  have held := shown.holding context.program.functors cells
  have firstSubject : view.Subject context.program.functors cells first (.reference first) :=
    .cell firstRoot.inside
  have secondSubject : view.Subject context.program.functors cells second (.reference second) :=
    .cell secondRoot.inside
  have leftTerm := firstSubject.isTerm
  have rightTerm := secondSubject.isTerm
  have known := terms
  rw [← shown.memory] at terms leftTerm rightTerm firstRoot secondRoot
  have bottom := shown.stack_bounds.1
  have wellFormed := terms.wellFormed_with bottom held
  have small := shown.addressable.retained
  have root {address : Address} {word : Word}
      (isRoot : machine.store.memory.RootAt cells address word) :
      machine.store.RootAt (cells ∪ view.termSlots context.program.functors cells) address word :=
    ⟨.inl isRoot.inside, Store.load_of_memory isRoot.found, isRoot.ends⟩
  have ended (T : Type) [TreeAlgebra T] :=
    bindVariable_ends T wellFormed small (root firstRoot)
      (root secondRoot) different (.inr free)
  have inCells {address : Address} {word : Word}
      (isRoot : machine.store.memory.RootAt cells address word) :
      machine.store.RootAt cells address word :=
    ⟨isRoot.inside, Store.load_of_memory isRoot.found, isRoot.ends⟩
  have kept := context.guard.bind shown.guarded bears shown.addressable
    (inCells firstRoot) (inCells secondRoot) different free
  cases ran : StoreM.bindVariable context.program.functors first second
      machine.store with
  | ok _ after =>
      have guarded : context.guard.Holds after := by rwa [ran] at kept
      rw [ran] at ended
      have equates := Store.Equates.of_reduced terms bottom held
        (shown.site firstSubject) (shown.site secondSubject) leftTerm rightTerm
        fun T _ => ended T
      obtain ⟨larger, extended, -⟩ := ended Tree
      rw [shown.memory] at equates
      exact ⟨_, after.memory, equates, shown.extended known extended guarded⟩
  | error fault after =>
      have rests : context.guard.Rests machine.store.retainedTop after := by
        rwa [ran] at kept
      rw [← Store.retainedTop_memory, shown.memory] at rests
      have faulty := ended Tree
      rw [ran] at faulty
      exact ⟨⟨_, _, faulty.1⟩, shown.halts rests⟩

end Shows

namespace Context.Ensures

variable {context : Context} {goal : Machine → Prop} {fuels : Set Nat}
  {stop : Nat} {hopeless : Prop} {place : Label → Nat} {position : Nat} {view : View}
  {rest : List Item} {cells : Set Address} {first second : Address}
  {others : List Operand}

/-- Unifying either gives two words the same tree, or no tree is that of both. -/
theorem unify
    (closes : Closes context fuels stop hopeless
      (Store.Endless context.program.functors) goal)
    (holds : context.program.Holds place position (.plain .unify :: rest))
    (below : position < stop)
    (top : view.operands = .address first :: .address second :: others)
    (terms : view.memory.Terms context.program.functors cells)
    (apart : ∀ address ∈ cells, address ∉ context.guard.lost)
    {left right : Word}
    (firstSubject : view.Subject context.program.functors cells first left)
    (secondSubject : view.Subject context.program.functors cells second right)
    (succeeds : ∀ larger memory,
      view.memory.Equates context.program.functors cells left right larger
        memory →
      context.Ensures goal (position + 1)
        { view with memory, operands := others })
    (fails : view.memory.Clash context.program.functors cells left right →
      hopeless) :
    context.Ensures goal position view := by
  intro machine shown
  obtain ⟨ready, next, later⟩ :=
    @Shows.next _ _ _ _ shown .unify 0 holds.1 rfl
  apply closes.unify below shown.toKeeps shown.guarded next
  intro fuel _
  unfold MachineM.unifyTop
  rw [ends_bind]
  refine (later.popAddress_ends top).imp ?_ (fun _ _ => False.elim)
  rintro _ middle ⟨rfl, shownMiddle⟩
  rw [ends_bind]
  refine (shownMiddle.popAddress_ends rfl).imp ?_ (fun _ _ => False.elim)
  rintro _ last ⟨rfl, shownLast⟩
  refine (shownLast.unify_ends terms apart (firstSubject.withOperands _)
    (secondSubject.withOperands _) fuel).imp ?_ ?_
  · intro success after outcome
    cases success with
    | true =>
        obtain ⟨larger, memory, equates, shownAfter⟩ := outcome
        exact succeeds larger memory equates after shownAfter
    | false => exact ⟨fails outcome.1, outcome.2⟩
  · intro fault after faulty
    exact ⟨faulty.1, shown.halted faulty.2⟩

/-- Binding a variable gives it the tree of the other cell. -/
theorem bind {endless : Nat → Store → Prop}
    (closes : Closes context fuels stop hopeless endless goal)
    (holds : context.program.Holds place position (.plain .bind :: rest))
    (below : position < stop)
    (top : view.operands = .address first :: .address second :: others)
    (terms : view.memory.Terms context.program.functors cells)
    (apart : ∀ address ∈ cells, address ∉ context.guard.lost)
    {firstWord secondWord : Word}
    (firstRoot : view.memory.RootAt cells first firstWord)
    (secondRoot : view.memory.RootAt cells second secondWord)
    (different : first ≠ second)
    (free : ∃ next, secondWord.cell = .reference next)
    (succeeds : ∀ larger memory,
      view.memory.Equates context.program.functors cells (.reference first)
        (.reference second) larger memory →
      context.Ensures goal (position + 1)
        { view with memory, operands := others }) :
    context.Ensures goal position view := by
  apply quiet closes below 0 holds.1 rfl rfl
  intro ready shown
  simp only [MachineM.perform, ends_bind]
  refine (shown.popAddress_ends top).imp ?_ (fun _ _ => False.elim)
  rintro _ middle ⟨rfl, shownMiddle⟩
  refine (shownMiddle.popAddress_ends rfl).imp ?_ (fun _ _ => False.elim)
  rintro _ last ⟨rfl, shownLast⟩
  refine (shownLast.bind_ends terms apart firstRoot secondRoot different free).imp ?_
    (fun _ _ => id)
  rintro _ after ⟨larger, memory, equates, shownAfter⟩
  exact succeeds larger memory equates after shownAfter

end Context.Ensures

end LogicMachine
