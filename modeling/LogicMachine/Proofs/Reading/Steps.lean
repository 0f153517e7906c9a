import Mathlib.Algebra.Order.BigOperators.Group.List
import Mathlib.Algebra.Order.Group.Nat
import LogicMachine.Proofs.Reading.Memory

/-!
# Steps of reading

Reading works through a list of tasks and keeps the finished terms on a stack
that all compounds share.  A step visits a cell or assembles a compound.  A run
of steps counts them and lists the compounds that it enters: none of them twice,
and none that has been met before.
-/

namespace LogicMachine

namespace ReadState

/-- All cells that are still to be visited are among some cells. -/
def Within (state : ReadState) (cells : Set Address) : Prop :=
  ∀ address, .visit address ∈ state.tasks → address ∈ cells

/-- A compound that was entered, whether it has been left or not. -/
def Met (state : ReadState) (key : Address) : Prop :=
  key ∈ state.entered ∨ ∃ term, state.known[key]? = some term

end ReadState

namespace Store

/-- One step of reading, with the compound that it enters and the number of its
arguments if it enters one.  A compound is assembled from that many finished
terms. -/
inductive ReadStep (table : FunctorTable) (store : Store) :
    ReadState → Option (Address × Nat) → ReadState → Prop where
  | finish {state later : ReadState} {address : Address} {rest : List ReadTask}
      (isNext : state.tasks = .visit address :: rest)
      (visited : visit table store address { state with tasks := rest } =
        .ok later) (same : later.tasks = rest) :
      ReadStep table store state none later
  | enter {state later : ReadState} {address key : Address} {name : String}
      {parts : List Address} {rest : List ReadTask}
      (isNext : state.tasks = .visit address :: rest)
      (visited : visit table store address { state with tasks := rest } =
        .ok later)
      (queued : later.tasks =
        parts.map .visit ++ .assemble key name parts.length :: rest) :
      ReadStep table store state (some (key, parts.length)) later
  | assemble {state : ReadState} {key : Address} {name : String} {arity : Nat}
      {rest : List ReadTask}
      (isNext : state.tasks = .assemble key name arity :: rest)
      (enough : arity ≤ state.finished.length) :
      ReadStep table store state none
        (assemble { state with tasks := rest } key name arity)

/-- A number of steps, with the compounds entered on the way. -/
inductive ReadRun (table : FunctorTable) (store : Store) :
    Nat → ReadState → List (Address × Nat) → ReadState → Prop where
  | done (state : ReadState) : ReadRun table store 0 state [] state
  | step {steps : Nat} {state middle last : ReadState}
      {entered : Option (Address × Nat)} {others : List (Address × Nat)}
      (first : ReadStep table store state entered middle)
      (rest : ReadRun table store steps middle others last) :
      ReadRun table store (steps + 1) state (entered.toList ++ others) last

variable {table : FunctorTable} {store : Store} {cells : Set Address}

theorem ReadRun.one {state last : ReadState} {entered : Option (Address × Nat)}
    (first : store.ReadStep table state entered last) :
    store.ReadRun table 1 state (entered.toList ++ []) last :=
  .step first (.done last)

theorem ReadRun.append {steps more : Nat} {state middle last : ReadState}
    {entered others : List (Address × Nat)}
    (first : store.ReadRun table steps state entered middle)
    (second : store.ReadRun table more middle others last) :
    store.ReadRun table (steps + more) state (entered ++ others) last := by
  induction first with
  | done => simpa using second
  | step step _ ih =>
      rw [List.append_assoc, Nat.add_right_comm]
      exact .step step (ih second)

/-! ## A run is what the reader does -/

theorem ReadStep.readAll {state later : ReadState}
    {entered : Option (Address × Nat)}
    (step : store.ReadStep table state entered later) (more : Nat) :
    readAll table store (more + 1) state = readAll table store more later := by
  cases step with
  | finish isNext visited | enter isNext visited =>
      simp only [Store.readAll, isNext, visited]
  | assemble isNext => simp only [Store.readAll, isNext]

theorem ReadRun.readAll {steps : Nat} {state last : ReadState}
    {entered : List (Address × Nat)}
    (run : store.ReadRun table steps state entered last) (more : Nat) :
    readAll table store (steps + more) state = readAll table store more last := by
  induction run with
  | done => rw [Nat.zero_add]
  | step step _ ih => rw [Nat.add_right_comm, step.readAll, ih]

/-- Every task is one step, and entering a compound makes one for each of its
arguments and one for itself. -/
theorem ReadRun.counted {steps : Nat} {state last : ReadState}
    {entered : List (Address × Nat)}
    (run : store.ReadRun table steps state entered last) :
    steps + last.tasks.length =
      state.tasks.length + (entered.map fun entry => entry.2 + 1).sum := by
  induction run with
  | done => simp
  | @step steps state middle last _ others first rest ih =>
      cases first with
      | finish isNext visited same =>
          simp only [Option.toList, List.nil_append, isNext,
            List.length_cons, same] at ih ⊢
          omega
      | enter isNext visited queued =>
          simp only [Option.toList, List.singleton_append, isNext, queued,
            List.length_append, List.length_map, List.length_cons,
            List.map_cons, List.sum_cons] at ih ⊢
          omega
      | assemble isNext enough =>
          simp only [Option.toList, List.nil_append, isNext, assemble,
            List.length_cons] at ih ⊢
          omega

/-! ## No compound is entered twice -/

section Entering

variable {state : ReadState} {key : Address} {name : String}
  {parts : List Address}

theorem enter_of_mem (again : key ∈ state.entered) :
    enter state key name (.ok parts) =
      .ok { state with finished := variableAt key :: state.finished } := by
  simp [enter, again]

theorem enter_of_known {term : Term} (left : key ∉ state.entered)
    (finished : state.known[key]? = some term) :
    enter state key name (.ok parts) =
      .ok { state with finished := term :: state.finished } := by
  simp [enter, left, finished]

theorem enter_of_new (left : key ∉ state.entered)
    (new : state.known[key]? = none) :
    enter state key name (.ok parts) =
      .ok { state with
        entered := state.entered.insert key
        tasks := parts.map .visit ++
          .assemble key name parts.length :: state.tasks } := by
  simp [enter, left, new]

end Entering

/-- What visiting a readable cell does. -/
theorem Readable.visit_cases (readable : store.Readable table cells)
    {address : Address} (inside : address ∈ cells) (state : ReadState) :
    (∃ term, visit table store address state =
      .ok { state with finished := term :: state.finished }) ∨
    ∃ node key name parts, store.At address node ∧
      store.Compound table node key name parts ∧
      (∀ part ∈ parts, part ∈ cells) ∧
      (∃ word, store.load key = .ok word) ∧ ¬ state.Met key ∧
      visit table store address state =
        .ok { state with
          entered := state.entered.insert key
          tasks := parts.map .visit ++
            .assemble key name parts.length :: state.tasks } := by
  obtain ⟨node, found⟩ := readable.exists_at inside
  cases readable.shown inside found with
  | unbound => exact .inl ⟨_, visit_variable found⟩
  | atom named => exact .inl ⟨_, visit_atom found named⟩
  | @compound _ key name parts isCompound partsInside present =>
      rw [readable.visit_compound found isCompound partsInside]
      by_cases again : key ∈ state.entered
      · exact .inl ⟨_, enter_of_mem again⟩
      · cases finished : state.known[key]? with
        | some term => exact .inl ⟨term, enter_of_known again finished⟩
        | none =>
            refine .inr ⟨node, key, name, parts, found, isCompound, partsInside,
              present, ?_, enter_of_new again finished⟩
            rintro (isEntered | ⟨term, isKnown⟩)
            · exact again isEntered
            · cases finished.symm.trans isKnown

/-- Steps keep to the cells and forget no compound. -/
theorem ReadStep.onward (readable : store.Readable table cells)
    {state later : ReadState} {entered : Option (Address × Nat)}
    (step : store.ReadStep table state entered later)
    (within : state.Within cells) :
    later.Within cells ∧ (∀ key, state.Met key → later.Met key) ∧
      ∀ entry ∈ entered, ¬ state.Met entry.1 ∧ later.Met entry.1 ∧
        (∃ word, store.load entry.1 = .ok word) ∧
        entry.2 ≤ store.cellCount := by
  cases step with
  | @finish _ address rest isNext visited same =>
      have inside := within address (by rw [isNext]; exact List.mem_cons_self)
      refine ⟨?_, ?_, by simp⟩
      · intro other member
        rw [same] at member
        exact within other (by rw [isNext]; exact List.mem_cons_of_mem _ member)
      · rcases readable.visit_cases inside { state with tasks := rest } with
          ⟨term, plain⟩ | ⟨node, key, name, parts, -, -, -, -, -, entering⟩
        · cases plain.symm.trans visited
          exact fun _ met => met
        · cases entering.symm.trans visited
          have lengths := congrArg List.length same
          simp only [List.length_append, List.length_cons] at lengths
          omega
  | @enter _ address key name parts rest isNext visited queued =>
      have inside := within address (by rw [isNext]; exact List.mem_cons_self)
      rcases readable.visit_cases inside { state with tasks := rest } with
        ⟨term, plain⟩ | ⟨node, start, label, others, found, isCompound,
          partsInside, present, new, entering⟩
      · cases plain.symm.trans visited
        have lengths := congrArg List.length queued
        simp only [List.length_append, List.length_cons] at lengths
        omega
      · cases entering.symm.trans visited
        have lengths : parts.length = others.length := by
          have same := congrArg List.length queued
          simp only [List.length_append, List.length_cons, List.length_map]
            at same
          omega
        obtain ⟨-, same⟩ := List.append_inj queued (by simp [lengths])
        simp only [List.cons.injEq, ReadTask.assemble.injEq] at same
        obtain ⟨⟨rfl, -, -⟩, -⟩ := same
        refine ⟨?_, ?_, ?_⟩
        · intro other member
          rcases List.mem_append.mp member with isPart | member
          · obtain ⟨part, partMember, same⟩ := List.mem_map.mp isPart
            cases same
            exact partsInside other partMember
          · refine within other ?_
            rw [isNext]
            exact List.mem_cons_of_mem _ (by simpa using member)
        · rintro other (isEntered | isKnown)
          · exact .inl (Std.HashSet.mem_insert.mpr (.inr isEntered))
          · exact .inr isKnown
        · rintro _ ⟨⟩
          exact ⟨new, .inl (by simp), present,
            lengths ▸ readable.parts_length_le isCompound partsInside⟩
  | @assemble key name arity rest isNext enough =>
      refine ⟨?_, ?_, by simp⟩
      · intro other member
        exact within other (by rw [isNext]; exact List.mem_cons_of_mem _ member)
      · intro other met
        by_cases same : key = other
        · subst same
          exact .inr ⟨_, Std.HashMap.getElem?_insert_self⟩
        · rcases met with isEntered | ⟨term, isKnown⟩
          · exact .inl (by simp [Store.assemble, same, isEntered])
          · exact .inr ⟨term, by
              simp [Store.assemble, Std.HashMap.getElem?_insert, same, isKnown]⟩

/-- No run enters a compound that has been met, so it enters none twice. -/
theorem ReadRun.entered_new (readable : store.Readable table cells)
    {steps : Nat} {state last : ReadState} {entered : List (Address × Nat)}
    (run : store.ReadRun table steps state entered last)
    (within : state.Within cells) :
    (entered.map Prod.fst).Nodup ∧
      ∀ entry ∈ entered, ¬ state.Met entry.1 ∧
        (∃ word, store.load entry.1 = .ok word) ∧
        entry.2 ≤ store.cellCount := by
  induction run with
  | done => exact ⟨List.nodup_nil, nofun⟩
  | @step steps state middle last here others first rest ih =>
      obtain ⟨withinToo, remembers, entering⟩ := first.onward readable within
      obtain ⟨distinct, new⟩ := ih withinToo
      have newToo : ∀ entry ∈ others, ¬ state.Met entry.1 :=
        fun entry member met => (new entry member).1 (remembers _ met)
      cases here with
      | none =>
          exact ⟨distinct, fun entry member =>
            ⟨newToo entry member, (new entry member).2⟩⟩
      | some entry =>
          obtain ⟨notMet, met, present, few⟩ := entering entry rfl
          refine ⟨List.nodup_cons.mpr ⟨?_, distinct⟩, ?_⟩
          · intro member
            obtain ⟨other, otherMember, same⟩ := List.mem_map.mp member
            exact (new other otherMember).1 (same ▸ met)
          · intro other member
            rcases List.mem_cons.mp member with rfl | later
            · exact ⟨notMet, present, few⟩
            · exact ⟨newToo other later, (new other later).2⟩

/-- A run that enters no compound twice is short. -/
theorem ReadRun.steps_le (readable : store.Readable table cells)
    {steps : Nat} {state last : ReadState} {entered : List (Address × Nat)}
    (run : store.ReadRun table steps state entered last)
    (within : state.Within cells) :
    steps ≤ state.tasks.length + store.cellCount * (store.cellCount + 1) := by
  obtain ⟨distinct, new⟩ := run.entered_new readable within
  have few : entered.length ≤ store.cellCount := by
    have short := length_le_cellCount distinct fun key member => by
      obtain ⟨entry, inside, rfl⟩ := List.mem_map.mp member
      exact (new entry inside).2.1
    rwa [List.length_map] at short
  have each : ∀ count ∈ entered.map fun entry => entry.2 + 1,
      count ≤ store.cellCount + 1 := by
    intro count member
    obtain ⟨entry, inside, rfl⟩ := List.mem_map.mp member
    exact Nat.succ_le_succ (new entry inside).2.2
  have total := List.sum_le_card_nsmul _ _ each
  rw [List.length_map, smul_eq_mul] at total
  have bounded := Nat.mul_le_mul_right (store.cellCount + 1) few
  have counted := run.counted
  omega

end Store

end LogicMachine
