import LogicMachine.Proofs.Arithmetic.Goals
import LogicMachine.Proofs.Arithmetic.Values
import LogicMachine.Proofs.Code.Linking
import LogicMachine.Proofs.Copy.Graph
import LogicMachine.Proofs.Text.Decimal

/-!
# Answers of arithmetic goals

An integer leaves a goal as the atom of its decimal numeral.  The goal succeeds
if the term it is unified with is that atom or an unbound variable, and then
that term spells the integer, while all other integers are spelled as before.
-/

namespace LogicMachine

namespace Store

variable {table : FunctorTable} {store later : Store} {cells : Set Address}

/-- Only the end of a chain may change for the chain to end where it did. -/
theorem Leads.of_agree
    (closed : ∀ address ∈ cells, ∀ word, store.load address = .ok word →
      ∀ next, word.cell = .reference next → next ∈ cells)
    {address root : Address} (inside : address ∈ cells)
    (leads : store.Leads address root)
    (agree : ∀ between ∈ cells, store.Leads between root → between ≠ root →
      later.load between = store.load between)
    (isRoot : later.IsRoot root) : later.Leads address root := by
  induction leads with
  | here => exact .here isRoot
  | @there address next root word found refers different rest ih =>
      have whole : store.Leads address root :=
        .there found refers different rest
      have notEnd : address ≠ root := by
        rintro rfl
        obtain ⟨other, again, ends⟩ := rest.root
        cases found.symm.trans again
        exact different (ends next refers)
      have same := agree address inside whole notEnd
      exact .there (same.trans found) refers different
        (ih (closed _ inside _ found _ refers) agree isRoot)

/-- Binding variables leaves constants in place. -/
theorem At.of_kept (sound : store.Sound table cells)
    (kept : ∀ address ∈ cells, later.load address = store.load address ∨
      store.Unbound address)
    {address : Address} (inside : address ∈ cells) {id : FunctorId}
    (found : store.At address (.constant id)) :
    later.At address (.constant id) := by
  obtain ⟨root, word, leads, loaded, decoded⟩ := found
  have rootInside := leads.mem sound.references inside
  have rootKept : later.load root = .ok word := by
    rcases kept root rootInside with same | ⟨other, again, refers⟩
    · exact same.trans loaded
    · cases loaded.symm.trans again
      simp [decoded] at refers
  refine ⟨root, word, leads.of_agree sound.references inside ?_ ?_, rootKept,
    decoded⟩
  · intro between betweenInside onward different
    rcases kept between betweenInside with same | unbound
    · exact same
    · exact absurd (Leads.unique (.here unbound.isRoot) onward) different
  · exact ⟨word, rootKept, by simp [decoded]⟩

/-- The atom with a given name is found at an address. -/
def IsAtom (table : FunctorTable) (store : Store) (address : Address)
    (name : String) : Prop :=
  ∃ id, store.At address (.constant id) ∧
    table.functor id = .ok (.constant name)

/-- What an address holds is the atom with a given name or a variable that can
be bound to it. -/
def MatchesAtom (table : FunctorTable) (store : Store) (address : Address)
    (name : String) : Prop :=
  (∃ target, store.At address (.reference target)) ∨
    store.IsAtom table address name

/-- The atoms in some cells have names. -/
def Named (table : FunctorTable) (store : Store) (cells : Set Address) : Prop :=
  ∀ address ∈ cells, ∀ word, store.load address = .ok word →
    ∀ id, word.cell = .constant id → ∃ functor, table.functor id = .ok functor

theorem At.derefLoad {address : Address} {node : Cell}
    (found : store.At address node) :
    ∃ word, store.derefLoad address = .ok word ∧ word.cell = node := by
  obtain ⟨root, word, leads, loaded, decoded⟩ := found
  refine ⟨word, ?_, decoded⟩
  simp only [Store.derefLoad, leads.deref_eq, bind, Except.bind, loaded]

theorem At.of_derefLoad {address : Address} {word : Word}
    (found : store.derefLoad address = .ok word) :
    store.At address word.cell := by
  unfold Store.derefLoad at found
  cases followed : store.deref address with
  | error fault => simp [followed, bind, Except.bind] at found
  | ok root =>
      simp only [followed, bind, Except.bind] at found
      exact ⟨root, word, deref_eq_ok_iff.mp followed, found, rfl⟩

/-- An integer is spelled by a constant. -/
theorem integerAt_eq_some {address : Address} {value : Int} :
    store.integerAt table address = .ok (some value) ↔
      ∃ id functor, store.At address (.constant id) ∧
        table.functor id = .ok functor ∧
        Arithmetic.integer? functor.name = some value := by
  constructor
  · intro spelled
    unfold integerAt at spelled
    cases found : store.derefLoad address with
    | error fault => simp [found, bind, Except.bind] at spelled
    | ok word =>
        simp only [found, bind, Except.bind] at spelled
        cases decoded : word.cell with
        | constant id =>
            simp only [decoded] at spelled
            cases known : table.functor id with
            | error fault => simp [known] at spelled
            | ok functor =>
                simp only [known, pure, Except.pure, Except.ok.injEq]
                  at spelled
                exact ⟨id, functor, decoded ▸ At.of_derefLoad found, known,
                  spelled⟩
        | _ => simp [decoded, pure, Except.pure] at spelled
  · rintro ⟨id, functor, isAt, known, spelled⟩
    obtain ⟨word, found, decoded⟩ := isAt.derefLoad
    simp [integerAt, found, decoded, known, spelled, bind, Except.bind, pure,
      Except.pure]

end Store

namespace Arithmetic

/-- The numeral of an integer that fits spells it. -/
theorem integer?_toString {value : Int} (fits : Fits value) :
    integer? (toString value) = some value := by
  rw [integer?, Text.readInt_toString, Option.bind_some, checked_of_fits fits]

end Arithmetic

namespace StoreM

variable {table : FunctorTable} {store : Store}

/-- A word gets the first free heap cell, if there is one. -/
theorem ends_pushCells_heap {word : Word} (nonnegative : 0 ≤ store.heapTop) :
    Ends (pushCells .heap [word] store)
      (fun cell later => cell = .heap store.heapTop ∧
        later.load cell = .ok word ∧
        ∀ address, address ≠ cell → later.load address = store.load address)
      (fun fault _ => store.free .heap = 0 ∧
        fault = .exhausted .heap store.heap.size) := by
  simp only [pushCells, allocate, List.length_singleton, ends_bind, ends_get]
  split
  case isTrue full =>
    rcases full with negative | full
    · exact absurd nonnegative (Int32.not_le.mpr negative)
    · simp only [Store.capacity, Store.top] at full
      exact ⟨by simp only [Store.free, Store.capacity, Store.top]; omega, rfl⟩
  case isFalse room =>
    simp only [Store.capacity, Store.top, not_or, Nat.not_lt] at room
    have inside : store.heapTop.toNatClampNeg < store.heap.size := by omega
    have present : wordAt? store.heap store.heapTop =
        some store.heap[store.heapTop.toNatClampNeg] :=
      wordAt?_eq_some.mpr ⟨nonnegative, Array.getElem?_eq_getElem inside⟩
    have claimed : (store.setTop .heap (store.heapTop + 1)).load
        (Region.heap.address store.heapTop) =
          .ok store.heap[store.heapTop.toNatClampNeg] := by
      simp only [Store.load, Store.setTop, Region.address, present]
    simp only [ends_bind, ends_modify, ends_pure, Region.offset_address, fill]
    change Ends (storeFresh (Region.heap.address store.heapTop) word
      (store.setTop .heap (store.heapTop + 1))) _ _
    rw [storeFresh_eq claimed, ends_ok]
    refine ⟨rfl, Store.load_put_self claimed word, ?_⟩
    intro address different
    refine (Store.load_put_of_ne claimed word different).trans ?_
    cases address <;> rfl

/-- A constant is its own copy. -/
theorem bindTo_constant {target source : Address} {value : Word}
    {id : FunctorId} (isConstant : value.cell = .constant id) :
    Ends (bindTo table target source value store) regular faulty ↔
      Ends (StoreM.store target value store) regular faulty := by
  unfold bindTo
  split
  case isTrue =>
    simp only [copyTerm, copyCell, isConstant, copyValue, ends_bind, ends_pure,
      ends_get, List.length_nil, copyTasks]
  case isFalse => rfl

/-- What unifying a term with a constant in a cell of its own does. -/
structure Matched (store : Store) (root : Address) (word : Word)
    (id : FunctorId) (answer : Bool) (later : Store) : Prop where
  answered : answer = true ↔
    word.cell = .reference root ∨ word.cell = .constant id
  bound : answer = true → ∃ last, later.load root = .ok last ∧
    last.cell = .constant id
  kept : ∀ address, address ≠ root ∨ word.cell ≠ .reference root →
    later.load address = store.load address

theorem Matched.unchanged {root : Address} {word : Word} {id : FunctorId}
    {answer : Bool} (loaded : store.load root = .ok word)
    (notVariable : word.cell ≠ .reference root)
    (answered : answer = true ↔ word.cell = .constant id) :
    Matched store root word id answer store where
  answered := answered.trans (by simp [notVariable])
  bound := fun holds => ⟨word, loaded, answered.mp holds⟩
  kept := fun _ _ => rfl

theorem ends_unify_constant {address root cell : Address} {word value : Word}
    {id : FunctorId} (leads : store.Leads address root)
    (loaded : store.load root = .ok word)
    (found : store.load cell = .ok value)
    (isConstant : value.cell = .constant id) (apart : root ≠ cell)
    {steps : Nat} (enough : 0 < steps) :
    Ends (unify table steps address cell store)
      (fun answer later => Matched store root word id answer later)
      (fun _ _ => False) := by
  obtain ⟨steps, rfl⟩ : ∃ less, steps = less + 1 := ⟨steps - 1, by omega⟩
  have notReference : ∀ next, value.cell = .reference next → next = cell := by
    simp [isConstant]
  have stays := (Store.Leads.here ⟨value, found, notReference⟩).deref_eq
  have ends : ∀ next, word.cell = .reference next → next = root := by
    obtain ⟨other, again, ends⟩ := leads.root
    cases loaded.symm.trans again
    exact ends
  simp only [unify, unifyAll, unifyPair, deref, load, ends_bind, ends_read,
    leads.deref_eq, stays, if_neg apart, loaded, found, isConstant]
  cases decoded : word.cell with
  | reference next =>
      cases ends next decoded
      have isVariable := Word.tag_of_cell decoded
      have isOther := Word.tag_of_cell isConstant
      simp only [bindVariable, load, ends_bind, ends_read, loaded, found]
      rw [if_pos (by simp [isVariable, isOther, Cell.tag]),
        bindTo_constant isConstant, store_eq loaded]
      simp only [ends_ok, List.append_nil, unifyAll, ends_pure]
      have recorded : (store.record root word).load root = .ok word := loaded
      refine ⟨by simp [decoded], fun _ => ⟨value, ?_, isConstant⟩, ?_⟩
      · exact Store.load_put_self recorded value
      · rintro other (different | notVariable)
        · exact Store.load_put_of_ne recorded value different
        · exact absurd decoded notVariable
  | constant name =>
      simp only [ends_pure]
      by_cases same : name = id
      · simp only [if_pos same, List.append_nil, unifyAll, ends_pure]
        exact .unchanged loaded (by simp [decoded]) (by simp [decoded, same])
      · simp only [if_neg same, ends_pure]
        exact .unchanged loaded (by simp [decoded]) (by simp [decoded, same])
  | _ =>
      exact .unchanged loaded (by simp [decoded]) (by simp [decoded])

end StoreM

theorem FunctorTable.functor_eq_ok {table : FunctorTable} {id : FunctorId}
    {functor : Functor} :
    table.functor id = .ok functor ↔ table.get? id = some functor := by
  unfold FunctorTable.functor
  cases table.get? id <;> simp

/-- A functor that has a number keeps it. -/
theorem FunctorTable.Consistent.intern_known {table : FunctorTable}
    (consistent : table.Consistent) {id : FunctorId} {functor : Functor}
    (known : table.functor id = .ok functor) :
    (table.intern functor).1 = id := by
  have listed := consistent.listed id functor (functor_eq_ok.mp known)
  have kept := numbers_intern_of_some listed functor
  exact Option.some.inj ((numbers_intern table functor).symm.trans kept)

theorem FunctorTable.size_intern_le (table : FunctorTable)
    (functor : Functor) :
    (table.intern functor).2.size ≤ table.size + 1 := by
  unfold FunctorTable.intern
  split <;> simp [size]

/-- A later machine has an atom where one could be put, and all other atoms
where they were. -/
structure Machine.Spells (cells : Set Address) (before after : Machine)
    (target : Address) (name : String) : Prop where
  known : ∀ id functor,
    before.program.functors.functor id = .ok functor →
      after.program.functors.functor id = .ok functor
  kept : ∀ address ∈ cells,
    after.store.load address = before.store.load address ∨
      before.store.Unbound address
  isAtom : after.store.IsAtom after.program.functors target name

/-- A machine whose terms in some cells can be read, with a free number for
one more functor. -/
structure Machine.Legible (machine : Machine) (cells : Set Address) :
    Prop where
  sound : machine.store.Sound machine.program.functors cells
  named : machine.store.Named machine.program.functors cells
  consistent : machine.program.functors.Consistent
  small : machine.program.functors.size < 2 ^ 32
  claimed : 0 ≤ machine.store.heapTop

namespace Machine.Spells

variable {cells : Set Address} {before after : Machine} {target : Address}

theorem integerAt {name : String}
    (spells : before.Spells cells after target name)
    (sound : before.store.Sound before.program.functors cells)
    {address : Address} (inside : address ∈ cells) {value : Int}
    (spelled : before.store.integerAt before.program.functors address =
      .ok (some value)) :
    after.store.integerAt after.program.functors address =
      .ok (some value) := by
  obtain ⟨id, functor, isAt, known, read⟩ :=
    Store.integerAt_eq_some.mp spelled
  exact Store.integerAt_eq_some.mpr ⟨id, functor,
    isAt.of_kept sound spells.kept inside, spells.known id functor known, read⟩

theorem integerAt_target {value : Int}
    (spells : before.Spells cells after target (toString value))
    (fits : Arithmetic.Fits value) :
    after.store.integerAt after.program.functors target =
      .ok (some value) := by
  obtain ⟨id, isAt, known⟩ := spells.isAtom
  exact Store.integerAt_eq_some.mpr
    ⟨id, _, isAt, known, Arithmetic.integer?_toString fits⟩

end Machine.Spells

/-- The relation of integers that a comparison tests. -/
def Comparison.Relates (comparison : Comparison) (left right : Int) : Prop :=
  match comparison with
  | .less => left < right
  | .greater => right < left
  | .atMost => left ≤ right
  | .atLeast => right ≤ left
  | .equal => left = right
  | .different => left ≠ right

theorem Comparison.holds_iff {comparison : Comparison} {left right : Int} :
    comparison.holds left right = true ↔ comparison.Relates left right := by
  cases comparison <;> simp [holds, Relates]

theorem Comparison.answer_iff {comparison : Comparison}
    {left right : Option Int} :
    comparison.answer left right = true ↔
      ∃ first second, left = some first ∧ right = some second ∧
        comparison.Relates first second := by
  cases left <;> cases right <;> simp [answer, holds_iff]

theorem Store.Settles.of_ok {result : Option Int} {expression : Expression}
    (settles : Settles (.ok result) expression) :
    ¬ expression.Overflows ∧ result = expression.value := by
  rcases settles with ⟨-, cause, -, crashed⟩ | ⟨safe, valued⟩
  · cases crashed
  · exact ⟨safe, Except.ok.inj valued⟩

namespace MachineM

variable {machine : Machine} {cells : Set Address}

theorem ends_unifyInteger (legible : machine.Legible cells)
    {target : Address} (inside : target ∈ cells) (value : Int) {steps : Nat}
    (enough : 0 < steps) :
    Ends (unifyInteger steps target (some value) machine)
      (fun answer after =>
        (answer = true ↔ machine.store.MatchesAtom machine.program.functors
          target (toString value)) ∧
        (answer = true → machine.Spells cells after target (toString value)))
      (fun fault _ => machine.store.free .heap = 0 ∧
        fault = .exhausted .heap machine.store.heap.size) := by
  obtain ⟨sound, named, consistent, small, claimed⟩ := legible
  generalize htable : machine.program.functors = table at *
  have room : (table.intern (.constant (toString value))).2.Small :=
    Nat.le_trans (table.size_intern_le _) small
  obtain ⟨-, numbered⟩ := consistent.intern (.constant (toString value)) room
  have keepsNumbers : ∀ id functor, table.functor id = .ok functor →
      (table.intern (.constant (toString value))).2.functor id =
        .ok functor := by
    intro id functor known
    exact FunctorTable.functor_eq_ok.mpr (FunctorTable.get?_intern_of_some
      (FunctorTable.functor_eq_ok.mp known) _)
  simp only [unifyInteger, integerWord, unifyWord, pushCells, unify, ends_bind,
    ends_onProgram, ends_onStore, ends_pure, ProgramM.intern, ends_modifyGet,
    htable]
  refine (StoreM.ends_pushCells_heap claimed).imp ?_ fun _ _ full => full
  rintro cell later ⟨rfl, found, same⟩
  have isConstant := Word.cell_constant
    (table.intern (.constant (toString value))).1
  have old : ∀ address ∈ cells, address ≠ .heap machine.store.heapTop := by
    rintro _ member rfl
    exact Int32.lt_irrefl (sound.inside member)
  obtain ⟨root, leads⟩ := sound.acyclic target inside
  have rootInside := leads.mem sound.references inside
  obtain ⟨word, loaded, ends⟩ := leads.root
  have loadedLater := (same root (old root rootInside)).trans loaded
  have leadsLater : later.Leads target root :=
    leads.of_agree sound.references inside
      (fun between member _ _ => same between (old between member))
      ⟨word, loadedLater, ends⟩
  refine (StoreM.ends_unify_constant leadsLater loadedLater found isConstant
    (old root rootInside) enough).imp ?_ fun _ _ impossible => impossible.elim
  intro answer final matched
  refine ⟨matched.answered.trans ⟨?_, ?_⟩, ?_⟩
  · rintro (isVariable | isName)
    · exact .inl ⟨root, root, word, leads, loaded, isVariable⟩
    · refine .inr ⟨_, ⟨root, word, leads, loaded, isName⟩, ?_⟩
      obtain ⟨functor, known⟩ := named root rootInside word loaded _ isName
      have again := FunctorTable.functor_eq_ok.mp (keepsNumbers _ _ known)
      rw [numbered] at again
      cases again
      exact known
  · rintro (⟨variableCell, isAt⟩ | ⟨id, isAt, known⟩)
    · obtain ⟨unbound, leads'⟩ := isAt.unbound
      cases leads.unique leads'
      obtain ⟨other, again, refers⟩ := unbound
      cases loaded.symm.trans again
      exact .inl refers
    · rw [consistent.intern_known known]
      exact .inr (isAt.unique ⟨root, word, leads, loaded, rfl⟩).symm
  · intro holds
    obtain ⟨last, bound, isName⟩ := matched.bound holds
    refine ⟨by simpa only [htable] using keepsNumbers, ?_, ?_⟩
    · intro address member
      by_cases free : address ≠ root ∨ word.cell ≠ .reference root
      · exact .inl ((matched.kept address free).trans
          (same address (old address member)))
      · simp only [not_or, not_not] at free
        exact .inr ⟨word, free.1 ▸ loaded, free.1 ▸ free.2⟩
    · refine ⟨_, ⟨root, last, ?_, bound, isName⟩,
        FunctorTable.functor_eq_ok.mpr numbered⟩
      refine leads.of_agree sound.references inside ?_
        ⟨last, bound, by simp [isName]⟩
      intro between member _ different
      exact (matched.kept between (.inl different)).trans
        (same between (old between member))

/-- The value that evaluation finds is the exact one, and only the quotient
that does not fit keeps it from ending. -/
theorem evaluate_exact {address : Address} {expression : Expression}
    (shows : machine.store.Shows machine.program.functors address expression) :
    (∃ cause, cause.IsOverflow ∧
      machine.store.evaluate machine.program.functors address =
        .error (.crash cause)) ∨
    ∃ result, machine.store.evaluate machine.program.functors address =
        .ok result ∧
      ∀ value, result = some value ↔ expression.Computes value := by
  rcases Store.evaluate_settles shows with ⟨-, crashes⟩ | ⟨-, valued⟩
  · exact .inl crashes
  · exact .inr ⟨_, valued, fun _ => Expression.value_eq_some_iff⟩

/-- The goal that evaluates an expression. -/
theorem ends_evaluate (legible : machine.Legible cells)
    {target address : Address} {expression : Expression}
    (shows : machine.store.Shows machine.program.functors address expression)
    (inside : target ∈ cells) (isTarget : machine.argument 0 = .ok target)
    (isArgument : machine.argument 1 = .ok address) {result : Option Int}
    (valued : machine.store.evaluate machine.program.functors address =
      .ok result) {steps : Nat} (enough : 0 < steps) :
    Ends (runBuiltin steps .evaluate machine)
      (fun answer _ => answer = true ↔ ∃ value, expression.Computes value ∧
        machine.store.MatchesAtom machine.program.functors target
          (toString value))
      (fun fault _ => machine.store.free .heap = 0 ∧
        fault = .exhausted .heap machine.store.heap.size) := by
  have settles := Store.evaluate_settles shows
  rw [valued] at settles
  obtain ⟨safe, rfl⟩ := settles.of_ok
  rcases evaluate_crashes_iff shows isTarget isArgument steps with
    ⟨overflows, -⟩ | ⟨-, same⟩
  · exact absurd overflows safe
  · rw [same]
    cases isValue : expression.value with
    | none =>
        have valueless (value : Int) : ¬ expression.Computes value := by
          rw [← Expression.value_eq_some_iff, isValue]
          nofun
        simp [unifyInteger, valueless]
    | some value =>
        have computes := Expression.value_eq_some_iff.mp isValue
        refine (ends_unifyInteger legible inside value enough).imp ?_
          fun _ _ full => full
        rintro answer after ⟨answered, -⟩
        refine answered.trans ⟨fun found => ⟨value, computes, found⟩, ?_⟩
        rintro ⟨other, again, found⟩
        cases computes.exact.symm.trans again.exact
        exact found

/-- The goals that compare two expressions. -/
theorem compare_exact {first second : Address} {left right : Expression}
    (leftShows : machine.store.Shows machine.program.functors first left)
    (rightShows : machine.store.Shows machine.program.functors second right)
    (isFirst : machine.argument 0 = .ok first)
    (isSecond : machine.argument 1 = .ok second)
    {leftResult rightResult : Option Int}
    (leftValued : machine.store.evaluate machine.program.functors first =
      .ok leftResult)
    (rightValued : machine.store.evaluate machine.program.functors second =
      .ok rightResult) (steps : Nat) (comparison : Comparison) :
    ∃ answer, runBuiltin steps (.compare comparison) machine =
        .ok answer machine ∧
      (answer = true ↔ ∃ number other, left.Computes number ∧
        right.Computes other ∧ comparison.Relates number other) := by
  have leftSettles := Store.evaluate_settles leftShows
  have rightSettles := Store.evaluate_settles rightShows
  rw [leftValued] at leftSettles
  rw [rightValued] at rightSettles
  rcases compare_crashes_iff leftShows rightShows isFirst isSecond steps
    comparison with ⟨overflows, -⟩ | ⟨-, answered⟩
  · exact absurd overflows
      (not_or.mpr ⟨leftSettles.of_ok.1, rightSettles.of_ok.1⟩)
  · refine ⟨_, answered, ?_⟩
    simp only [Comparison.answer_iff, Expression.value_eq_some_iff]

/-- Three cells spell integers of which the last one is the sum. -/
def Adds (machine : Machine) (first second sum : Address) : Prop :=
  ∃ left right total,
    machine.store.integerAt machine.program.functors first =
      .ok (some left) ∧
    machine.store.integerAt machine.program.functors second =
      .ok (some right) ∧
    machine.store.integerAt machine.program.functors sum =
      .ok (some total) ∧
    left + right = total

/-- The goal that relates two integers and their sum. -/
theorem ends_plus (legible : machine.Legible cells)
    {first second sum : Address} (isFirst : machine.argument 0 = .ok first)
    (isSecond : machine.argument 1 = .ok second)
    (isSum : machine.argument 2 = .ok sum) (firstInside : first ∈ cells)
    (secondInside : second ∈ cells) (sumInside : sum ∈ cells) {steps : Nat}
    (enough : 0 < steps) :
    Ends (runBuiltin steps .plus machine)
      (fun answer after => answer = true → Adds after first second sum)
      (fun _ _ => True) := by
  have sound := legible.sound
  -- What is unified with the computed integer spells it afterwards.
  have computed {target : Address} (inside : target ∈ cells) (exact : Int)
      (goal : Machine → Prop)
      (reached : ∀ after name, machine.Spells cells after target name →
        Arithmetic.Fits exact → name = toString exact → goal after) :
      Ends (unifyInteger steps target (Arithmetic.checked exact) machine)
        (fun answer after => answer = true → goal after)
        (fun _ _ => True) := by
    cases isChecked : Arithmetic.checked exact with
    | none => simp [unifyInteger]
    | some value =>
        cases Arithmetic.eq_of_checked isChecked
        refine (ends_unifyInteger legible inside exact enough).imp ?_
          fun _ _ _ => trivial
        exact fun _ after ends holds => reached after _ (ends.2 holds)
          (Arithmetic.fits_of_checked isChecked) rfl
  simp only [runBuiltin, plus, argument, MachineM.integerAt, ends_bind,
    ends_read, isFirst, isSecond, isSum]
  cases leftRead : machine.store.integerAt machine.program.functors first with
  | error fault => trivial
  | ok left =>
  cases rightRead : machine.store.integerAt machine.program.functors second with
  | error fault => trivial
  | ok right =>
  cases totalRead : machine.store.integerAt machine.program.functors sum with
  | error fault => trivial
  | ok total =>
  dsimp only
  split
  case h_1 _ left right =>
    refine computed sumInside _ _ ?_
    rintro after _ spells fits rfl
    exact ⟨left, right, left + right, spells.integerAt sound firstInside leftRead,
      spells.integerAt sound secondInside rightRead,
      spells.integerAt_target fits, rfl⟩
  case h_2 left total =>
    refine computed secondInside _ _ ?_
    rintro after _ spells fits rfl
    exact ⟨left, total - left, total,
      spells.integerAt sound firstInside leftRead,
      spells.integerAt_target fits,
      spells.integerAt sound sumInside totalRead, by omega⟩
  case h_3 right total =>
    refine computed firstInside _ _ ?_
    rintro after _ spells fits rfl
    exact ⟨total - right, right, total, spells.integerAt_target fits,
      spells.integerAt sound secondInside rightRead,
      spells.integerAt sound sumInside totalRead, by omega⟩
  case h_4 =>
    intro succeeded
    cases succeeded

/-- Arithmetic on finite terms is exact.  Evaluation crashes or finds the value
over all integers if every part has one that fits; the goals compare such values
or unify with their numerals, and a sum that succeeds is one. -/
theorem arithmetic_exact (legible : machine.Legible cells) :
    (∀ address expression,
      machine.store.Shows machine.program.functors address expression →
      (∃ cause, cause.IsOverflow ∧
        machine.store.evaluate machine.program.functors address =
          .error (.crash cause)) ∨
      ∃ result, machine.store.evaluate machine.program.functors address =
          .ok result ∧
        ∀ value, result = some value ↔ expression.Computes value) ∧
    (∀ steps target address expression result, 0 < steps →
      machine.store.Shows machine.program.functors address expression →
      machine.argument 0 = .ok target → machine.argument 1 = .ok address →
      target ∈ cells →
      machine.store.evaluate machine.program.functors address = .ok result →
      Ends (runBuiltin steps .evaluate machine)
        (fun answer _ => answer = true ↔ ∃ value, expression.Computes value ∧
          machine.store.MatchesAtom machine.program.functors target
            (toString value))
        (fun fault _ => machine.store.free .heap = 0 ∧
          fault = .exhausted .heap machine.store.heap.size)) ∧
    (∀ steps comparison first second left right leftResult rightResult,
      machine.store.Shows machine.program.functors first left →
      machine.store.Shows machine.program.functors second right →
      machine.argument 0 = .ok first → machine.argument 1 = .ok second →
      machine.store.evaluate machine.program.functors first =
        .ok leftResult →
      machine.store.evaluate machine.program.functors second =
        .ok rightResult →
      ∃ answer, runBuiltin steps (.compare comparison) machine =
          .ok answer machine ∧
        (answer = true ↔ ∃ number other, left.Computes number ∧
          right.Computes other ∧ comparison.Relates number other)) ∧
    (∀ steps first second sum, 0 < steps →
      machine.argument 0 = .ok first → machine.argument 1 = .ok second →
      machine.argument 2 = .ok sum →
      first ∈ cells → second ∈ cells → sum ∈ cells →
      ∀ after, runBuiltin steps .plus machine = .ok true after →
        Adds after first second sum) := by
  refine ⟨fun _ _ shows => evaluate_exact shows, ?_, ?_, ?_⟩
  · intro steps target address expression result enough shows isTarget
      isArgument inside valued
    exact ends_evaluate legible shows inside isTarget isArgument valued enough
  · intro steps comparison first second left right leftResult rightResult
      leftShows rightShows isFirst isSecond leftValued rightValued
    exact compare_exact leftShows rightShows isFirst isSecond leftValued
      rightValued steps comparison
  · intro steps first second sum enough isFirst isSecond isSum firstInside
      secondInside sumInside after succeeded
    have ends := ends_plus legible isFirst isSecond isSum firstInside
      secondInside sumInside enough
    rw [succeeded] at ends
    exact ends rfl

end MachineM

/-- A machine about to evaluate the sum of two integers for a variable.  The
activation record of the goal stands above its two arguments. -/
def sumMachine : Machine where
  store :=
    { Store.empty 0 0 0 with
      heap := #[Word.functor ⟨0⟩, Word.constant ⟨1⟩, Word.constant ⟨2⟩,
        Word.reference (.heap 3), Word.zero]
      heapTop := 4
      stack := #[Word.compound (.heap 0), Word.reference (.heap 3),
        (Address.blank 0).pack, (Address.code (-1)).pack]
      pointer := 3 }
  registers := { Registers.initial with environment := .stack 1 }
  program :=
    { Program.empty 0 default with
      functors := ⟨#[⟨"+", 2⟩, ⟨"1", 0⟩, ⟨"2", 0⟩],
        ((({} : Std.TreeMap Functor FunctorId).insert ⟨"+", 2⟩ ⟨0⟩).insert
          ⟨"1", 0⟩ ⟨1⟩).insert ⟨"2", 0⟩ ⟨2⟩⟩ }
  collectors := []

/-- The parts of the sum, the variable and the arguments. -/
def sumCells : Set Address :=
  { address | address ∈
    [Address.heap 1, Address.heap 2, Address.heap 3, Address.stack 0,
      Address.stack 1] }

theorem forall_sumCells {property : Address → Prop}
    (one : property (.heap 1)) (two : property (.heap 2))
    (three : property (.heap 3)) (sum : property (.stack 0))
    (target : property (.stack 1)) :
    ∀ address ∈ sumCells, property address := by
  intro address member
  simp only [sumCells, List.mem_cons, List.not_mem_nil, or_false,
    Set.mem_ofPred_eq] at member
  rcases member with rfl | rfl | rfl | rfl | rfl <;> assumption

theorem sumMachine_unbound :
    sumMachine.store.Unbound (.heap 3) :=
  ⟨Word.reference (.heap 3), rfl, by simp⟩

theorem sumMachine_sound :
    sumMachine.store.Sound sumMachine.program.functors sumCells := by
  have one : sumMachine.store.load (.heap 1) = .ok (.constant ⟨1⟩) := rfl
  have two : sumMachine.store.load (.heap 2) = .ok (.constant ⟨2⟩) := rfl
  have three : sumMachine.store.load (.heap 3) = .ok (.reference (.heap 3)) :=
    rfl
  have sum : sumMachine.store.load (.stack 0) = .ok (.compound (.heap 0)) :=
    rfl
  have target : sumMachine.store.load (.stack 1) =
      .ok (.reference (.heap 3)) := rfl
  constructor
  case formed =>
    refine forall_sumCells ⟨_, one, by simp [Cell.Sound]⟩
      ⟨_, two, by simp [Cell.Sound]⟩
      ⟨_, three, by simp [Cell.Sound, sumCells]⟩ ⟨_, sum, ?_⟩
      ⟨_, target, by simp [Cell.Sound, sumCells]⟩
    simp only [Word.cell_compound, Cell.Sound]
    refine ⟨show (0 : Int32) < 4 by decide, ⟨"+", 2⟩, rfl, ?_⟩
    intro (index : Nat) (below : index < 2)
    obtain rfl | rfl : index = 0 ∨ index = 1 := by omega
    · exact List.mem_cons_self
    · exact List.mem_cons_of_mem _ List.mem_cons_self
  case inside =>
    exact forall_sumCells (show (1 : Int32) < 4 by decide)
      (show (2 : Int32) < 4 by decide) (show (3 : Int32) < 4 by decide)
      (show (0 : Int32) ≤ 3 by decide) (show (1 : Int32) ≤ 3 by decide)
  case acyclic =>
    have here := Store.Leads.here sumMachine_unbound.isRoot
    exact forall_sumCells ⟨_, .here ⟨_, one, by simp⟩⟩
      ⟨_, .here ⟨_, two, by simp⟩⟩ ⟨_, here⟩ ⟨_, .here ⟨_, sum, by simp⟩⟩
      ⟨_, .there target (by simp) (by decide) here⟩

theorem sumMachine_consistent :
    sumMachine.program.functors.Consistent := by
  constructor
  case numbered =>
    intro functor id found
    simp only [sumMachine, Std.TreeMap.getElem?_insert] at found
    split at found
    case isTrue same => cases found; cases Std.LawfulEqCmp.eq_of_compare same; rfl
    split at found
    case isTrue same => cases found; cases Std.LawfulEqCmp.eq_of_compare same; rfl
    split at found
    case isTrue same => cases found; cases Std.LawfulEqCmp.eq_of_compare same; rfl
    simp at found
  case listed =>
    intro id functor found
    have below : id.index.toNat < 3 := (Array.getElem?_eq_some_iff.mp found).1
    have numbered {number : UInt32} (same : id.index.toNat = number.toNat) :
        id = ⟨number⟩ := by
      cases id
      exact congrArg _ (UInt32.toNat_inj.mp same)
    obtain same | same | same : id.index.toNat = 0 ∨ id.index.toNat = 1 ∨
        id.index.toNat = 2 := by omega
    · cases @numbered 0 same
      cases found
      rfl
    · cases @numbered 1 same
      cases found
      rfl
    · cases @numbered 2 same
      cases found
      simp [sumMachine]

theorem sumMachine_legible : sumMachine.Legible sumCells where
  sound := sumMachine_sound
  named := by
    refine forall_sumCells ?_ ?_ ?_ ?_ ?_
    · rintro _ ⟨rfl⟩ _ ⟨rfl⟩
      exact ⟨_, rfl⟩
    · rintro _ ⟨rfl⟩ _ ⟨rfl⟩
      exact ⟨_, rfl⟩
    · rintro _ ⟨rfl⟩ _ ⟨⟩
    · rintro _ ⟨rfl⟩ _ ⟨⟩
    · rintro _ ⟨rfl⟩ _ ⟨⟩
  consistent := sumMachine_consistent
  small := by decide
  claimed := by decide

/-- The sum of one and two. -/
def smallSum : Expression :=
  .operation ⟨"+", 2⟩ fun index => if index.val = 0 then .atom "1" else .atom "2"

theorem sumMachine_shows :
    sumMachine.store.Shows sumMachine.program.functors (.stack 0) smallSum := by
  refine @Store.Shows.operation _ _ _ (.heap 0) (Word.compound (.heap 0))
    ⟨"+", 2⟩ _ (by decide) (by simp) (by decide) ?_
  intro (index : Fin 2)
  obtain rfl | rfl : index = 0 ∨ index = 1 := by omega
  · exact @Store.Shows.atom _ _ _ (Word.constant ⟨1⟩) ⟨1⟩ ⟨"1", 0⟩
      (by decide) (by simp) (by decide)
  · exact @Store.Shows.atom _ _ _ (Word.constant ⟨2⟩) ⟨2⟩ ⟨"2", 0⟩
      (by decide) (by simp) (by decide)

/-- The sum of one and two is three, and the goal succeeds for a variable. -/
theorem MachineM.arithmetic_exact_sum :
    sumMachine.Legible sumCells ∧ smallSum.Computes 3 ∧
      ∃ after, runBuiltin 1 .evaluate sumMachine = .ok true after := by
  have computes : smallSum.Computes 3 :=
    Expression.value_eq_some_iff.mp (by decide)
  refine ⟨sumMachine_legible, computes, ?_⟩
  have exact := (arithmetic_exact sumMachine_legible).2.1 1 (.stack 1)
    (.stack 0) smallSum (some 3) (by decide) sumMachine_shows rfl rfl
    (by simp [sumCells]) (by decide)
  cases ran : runBuiltin 1 .evaluate sumMachine with
  | error fault after =>
      rw [ran] at exact
      cases exact.1
  | ok answer after =>
      rw [ran] at exact
      have loaded : sumMachine.store.load (.stack 1) =
          .ok (.reference (.heap 3)) := rfl
      have bindable : sumMachine.store.At (.stack 1) (.reference (.heap 3)) :=
        ⟨_, Word.reference (.heap 3), .there loaded (by simp) (by decide)
          (.here sumMachine_unbound.isRoot), rfl, by simp⟩
      cases exact.mpr ⟨3, computes, .inl ⟨_, bindable⟩⟩
      exact ⟨after, rfl⟩

end LogicMachine
