import LogicMachine.Proofs.Reading.Steps
import LogicMachine.Proofs.Reading.Unfolding

/-!
# Reading comes to an end

The reader does what reading with a memory says, task by task: each address
costs one run that leaves its term on the stack of finished terms and everything
below that as it was.  As there are no more compounds than cells and no compound
has more arguments than that, the reader always comes to an end.
-/

namespace LogicMachine

/-- What the tables of the reader hold. -/
structure ReadState.Holds (state : ReadState) (entered : Set Address)
    (known : Address → Option Term) : Prop where
  entered : ∀ key, key ∈ state.entered ↔ key ∈ entered
  known : ∀ key, state.known[key]? = known key

namespace Store

variable {table : FunctorTable} {store : Store} {cells : Set Address}

/-- A state after some addresses have been read, with the terms that were
finished before. -/
structure ReadOff (below : List Term) (last : ReadState)
    (rest : List ReadTask) (terms : List Term) (entered : Set Address)
    (later : Address → Option Term) : Prop where
  tasks : last.tasks = rest
  finished : last.finished = terms.reverse ++ below
  holds : last.Holds entered later

/-- Assembling a compound after its arguments leaves it and remembers it. -/
theorem ReadOff.assemble {below : List Term} {last : ReadState} {rest : List ReadTask}
    {key : Address} {name : String} {terms : List Term}
    {entered : Set Address} {later : Address → Option Term}
    (readOff : ReadOff below last (.assemble key name terms.length :: rest)
      terms (insert key entered) later)
    (left : key ∉ entered) :
    ReadOff below
      (Store.assemble { last with tasks := rest } key name terms.length) rest
      [.compound name terms] entered
      (Function.update later key (some (.compound name terms))) := by
  have taken : last.finished.take terms.length = terms.reverse := by
    rw [readOff.finished, List.take_left' (by simp)]
  have dropped : last.finished.drop terms.length = below := by
    rw [readOff.finished, List.drop_left' (by simp)]
  refine ⟨rfl, by simp [Store.assemble, taken, dropped], ?_, ?_⟩
  · intro other
    have inside := readOff.holds.entered other
    simp only [Set.mem_insert_iff] at inside
    simp only [Store.assemble, Std.HashSet.mem_erase, inside,
      beq_eq_false_iff_ne]
    constructor
    · rintro ⟨different, same | old⟩
      · exact absurd same.symm different
      · exact old
    · intro old
      refine ⟨?_, .inr old⟩
      rintro rfl
      exact left old
  · intro other
    simp only [Store.assemble, Std.HashMap.getElem?_insert, beq_iff_eq, taken,
      List.reverse_reverse]
    by_cases same : key = other
    · subst same
      simp
    · rw [if_neg same, Function.update_of_ne (Ne.symm same)]
      exact readOff.holds.known other

mutual

/-- The reader reads an address as reading with a memory does. -/
theorem MemoReading.run (readable : store.Readable table cells)
    {entered : Set Address} {known later : Address → Option Term}
    {address : Address} {term : Term}
    (reading : store.MemoReading table entered known address term later)
    (inside : address ∈ cells) {state : ReadState} {rest : List ReadTask}
    (isNext : state.tasks = .visit address :: rest)
    (holds : state.Holds entered known) :
    ∃ steps keys last, store.ReadRun table steps state keys last ∧
      ReadOff state.finished last rest [term] entered later := by
  have finish {term : Term}
      (visited : visit table store address { state with tasks := rest } =
        .ok { state with
          tasks := rest
          finished := term :: state.finished }) :
      ∃ steps keys last, store.ReadRun table steps state keys last ∧
        ReadOff state.finished last rest [term] entered known :=
    ⟨_, _, _, .one (.finish isNext visited rfl), rfl, rfl, holds.entered,
      holds.known⟩
  cases reading with
  | unbound found => exact finish (visit_variable found)
  | atom found named => exact finish (visit_atom found named)
  | cycle found isCompound again =>
      refine finish ?_
      rw [readable.visit_compound found isCompound
        (readable.parts_mem inside found isCompound)]
      exact enter_of_mem ((holds.entered _).mpr again)
  | recalled found isCompound left finished =>
      refine finish ?_
      rw [readable.visit_compound found isCompound
        (readable.parts_mem inside found isCompound)]
      exact enter_of_known (fun again => left ((holds.entered _).mp again))
        ((holds.known _).trans finished)
  | @compound _ _ later _ key _ name parts terms found isCompound left new args =>
      have partsInside := readable.parts_mem inside found isCompound
      have visited : visit table store address { state with tasks := rest } =
          .ok { state with
            entered := state.entered.insert key
            tasks := parts.map .visit ++
              .assemble key name parts.length :: rest } := by
        rw [readable.visit_compound found isCompound partsInside]
        exact enter_of_new (fun again => left ((holds.entered _).mp again))
          ((holds.known _).trans new)
      have entering : ReadState.Holds
          { state with
            entered := state.entered.insert key
            tasks := parts.map .visit ++
              .assemble key name parts.length :: rest }
          (insert key entered) known := by
        refine ⟨fun other => ?_, holds.known⟩
        rw [Std.HashSet.mem_insert, beq_iff_eq, Set.mem_insert_iff,
          holds.entered, eq_comm]
      obtain ⟨steps, keys, last, run, readOff⟩ :=
        MemoReadings.run readable args partsInside rfl entering
      have counted : parts.length = terms.length := args.length_eq
      rw [counted] at readOff
      refine ⟨_, _, _, (ReadRun.one (.enter isNext visited rfl)).append
        (run.append (.one (.assemble readOff.tasks ?_))), ?_⟩
      · simp [readOff.finished]
      · exact readOff.assemble left

/-- The reader reads addresses one after another. -/
theorem MemoReadings.run (readable : store.Readable table cells)
    {entered : Set Address} {known later : Address → Option Term}
    {addresses : List Address} {terms : List Term}
    (readings : store.MemoReadings table entered known addresses terms later)
    (inside : ∀ address ∈ addresses, address ∈ cells) {state : ReadState}
    {rest : List ReadTask}
    (isNext : state.tasks = addresses.map .visit ++ rest)
    (holds : state.Holds entered known) :
    ∃ steps keys last, store.ReadRun table steps state keys last ∧
      ReadOff state.finished last rest terms entered later := by
  cases readings with
  | nil => exact ⟨_, _, state, .done state, isNext, rfl, holds⟩
  | @cons _ _ later _ address term addresses terms first others =>
      obtain ⟨steps, keys, middle, run, readOff⟩ :=
        MemoReading.run readable first (inside _ List.mem_cons_self) isNext
          holds
      obtain ⟨more, otherKeys, last, onward, lastOff⟩ :=
        MemoReadings.run readable others
          (fun other member => inside other (List.mem_cons_of_mem _ member))
          readOff.tasks readOff.holds
      refine ⟨_, _, last, run.append onward, lastOff.tasks, ?_, lastOff.holds⟩
      rw [lastOff.finished, readOff.finished]
      simp

end

end Store

end LogicMachine
