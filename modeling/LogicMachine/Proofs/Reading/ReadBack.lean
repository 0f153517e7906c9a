import Mathlib.Tactic.Ring
import LogicMachine.Proofs.Reading.Completion

/-!
# The term at an address

Reading back ends with a term for every readable cell, whether its term is cyclic
or not, and enters no compound twice on the way.  For a term from which no cycle
is reachable it gives the plain recursive reading, so sharing cannot be told from
the result.
-/

namespace LogicMachine

/-- The reader before its first step. -/
def ReadState.start (address : Address) : ReadState :=
  ⟨[.visit address], [], {}, {}⟩

theorem ReadState.start_within {address : Address} {cells : Set Address}
    (inside : address ∈ cells) : (start address).Within cells := by
  intro other member
  cases List.mem_singleton.mp member
  exact inside

namespace Store

variable {table : FunctorTable} {store : Store} {cells : Set Address}

/-- A run of the reader from its start to its end. -/
def ReadsBack (table : FunctorTable) (store : Store) (address : Address)
    (term : Term) : Prop :=
  ∃ steps entered last,
    store.ReadRun table steps (.start address) entered last ∧
      last.tasks = [] ∧ last.finished = [term]

/-- A run of the reader is short enough for its bound. -/
theorem Readable.readBack_eq (readable : store.Readable table cells)
    {address : Address} (inside : address ∈ cells) {term : Term}
    (reads : store.ReadsBack table address term) :
    readBack table store address = .ok term := by
  obtain ⟨steps, entered, last, run, noTasks, finished⟩ := reads
  have short := run.steps_le readable (ReadState.start_within inside)
  generalize hcount : store.cellCount = count at short
  have square : (count + 3) * (count + 3) =
      count * (count + 1) + 5 * count + 9 := by ring
  have enough : steps + 1 ≤ (count + 3) * (count + 3) := by
    simp only [ReadState.start, List.length_singleton] at short
    omega
  obtain ⟨more, isMore⟩ := Nat.exists_eq_add_of_le enough
  rw [readBack, hcount, isMore, Nat.add_assoc]
  refine (run.readAll (1 + more)).trans ?_
  rw [Nat.add_comm 1 more]
  simp only [readAll, noTasks, finished]

theorem MemoReading.readsBack (readable : store.Readable table cells)
    {address : Address} (inside : address ∈ cells) {term : Term}
    {later : Address → Option Term}
    (reading : store.MemoReading table ∅ (fun _ => none) address term later) :
    store.ReadsBack table address term := by
  obtain ⟨steps, entered, last, run, readOff⟩ :=
    reading.run readable inside
      (show (ReadState.start address).tasks = [.visit address] from rfl)
      ⟨by simp [ReadState.start], by simp [ReadState.start]⟩
  exact ⟨steps, entered, last, run, readOff.tasks, readOff.finished⟩

theorem MemoReading.readBack_eq (readable : store.Readable table cells)
    {address : Address} (inside : address ∈ cells) {term : Term}
    {later : Address → Option Term}
    (reading : store.MemoReading table ∅ (fun _ => none) address term later) :
    readBack table store address = .ok term :=
  readable.readBack_eq inside (reading.readsBack readable inside)

/-- Reading back ends with a term for every readable cell and enters no compound
twice, however the compounds refer to each other. -/
theorem Readable.readBack_ends (readable : store.Readable table cells)
    {address : Address} (inside : address ∈ cells) :
    (∃ term, readBack table store address = .ok term ∧
      store.ReadsBack table address term) ∧
    ∀ steps entered last,
      store.ReadRun table steps (.start address) entered last →
        (entered.map Prod.fst).Nodup := by
  obtain ⟨term, later, reading⟩ := readable.exists_memoReading inside
  have reads := reading.readsBack readable inside
  refine ⟨⟨term, readable.readBack_eq inside reads, reads⟩, ?_⟩
  intro steps entered last run
  exact (run.entered_new readable (ReadState.start_within inside)).1

/-- Reading back a term from which no cycle is reachable gives its plain
recursive reading, and the stack of finished terms always holds the arguments
of the compound that is assembled. -/
theorem Readable.readBack_plain (readable : store.Readable table cells)
    {address : Address} (inside : address ∈ cells)
    (unfolds : ∀ node, store.At address node → store.Unfolds table node) :
    ∃ term, store.PlainReading table address term ∧
      readBack table store address = .ok term ∧
      store.ReadsBack table address term ∧
      ∀ other, store.PlainReading table address other → other = term := by
  obtain ⟨term, later, reading⟩ := readable.exists_memoReading inside
  obtain ⟨node, found⟩ := readable.exists_at inside
  obtain ⟨-, plain⟩ := reading.plain readable inside
    (fun _ _ _ => False.elim) .nothing
  have isPlain := plain node found (unfolds node found)
  have reads := reading.readsBack readable inside
  exact ⟨term, isPlain, readable.readBack_eq inside reads, reads,
    fun _ => isPlain.unique⟩

end Store

/-- A functor with two arguments and an atom. -/
def pairTable : FunctorTable :=
  ⟨#[⟨"f", 2⟩, ⟨"a", 0⟩], {}⟩

/-- A structure whose two arguments are one list pair.  The head of the pair is
given, its tail refers to a variable. -/
def pairStore (head : Word) : Store :=
  { Store.empty 0 0 0 with
    heap := #[Word.functor ⟨0⟩, Word.list (.heap 3), Word.list (.heap 3), head,
      Word.reference (.heap 6), Word.compound (.heap 0),
      Word.reference (.heap 6)]
    heapTop := 7 }

/-- All cells but the functor cell. -/
def pairCells : Set Address :=
  { address | address ∈ [Address.heap 1, Address.heap 2, Address.heap 3,
    Address.heap 4, Address.heap 5, Address.heap 6] }

theorem forall_pairCells {property : Address → Prop}
    (one : property (.heap 1)) (two : property (.heap 2))
    (three : property (.heap 3)) (four : property (.heap 4))
    (five : property (.heap 5)) (six : property (.heap 6)) :
    ∀ address ∈ pairCells, property address := by
  intro address member
  simp only [pairCells, List.mem_cons, List.not_mem_nil, or_false,
    Set.mem_ofPred_eq] at member
  rcases member with rfl | rfl | rfl | rfl | rfl | rfl <;> assumption

section Pairs

variable (head : Word)

theorem pairStore_functorAt :
    pairTable.functorAt (pairStore head) (.heap 0) = .ok ⟨"f", 2⟩ := by
  have loaded : (pairStore head).load (.heap 0) = .ok (.functor ⟨0⟩) := rfl
  exact functorAt_of_load loaded (Word.cell_functor _) rfl

theorem pairStore_list :
    (Cell.list (.heap 3)).Sound pairTable (pairStore head) pairCells := by
  constructor
  · simp [pairCells]
  · exact show Address.heap 4 ∈ pairCells by simp [pairCells]

theorem pairStore_structure :
    (Cell.compound (.heap 0)).Sound pairTable (pairStore head) pairCells := by
  refine ⟨show (0 : Int32) < 7 by decide, ⟨"f", 2⟩, pairStore_functorAt head, ?_⟩
  intro (index : Nat) (below : index < 2)
  obtain rfl | rfl : index = 0 ∨ index = 1 := by omega
  · exact show Address.heap 1 ∈ pairCells by simp [pairCells]
  · exact show Address.heap 2 ∈ pairCells by simp [pairCells]

variable {head}

theorem pairStore_readable
    (formed : head.cell.Sound pairTable (pairStore head) pairCells)
    (isTerm : head.cell.Readable pairTable)
    (stays : ∀ next, head.cell ≠ .reference next) :
    (pairStore head).Readable pairTable pairCells := by
  have one : (pairStore head).load (.heap 1) = .ok (.list (.heap 3)) := rfl
  have two : (pairStore head).load (.heap 2) = .ok (.list (.heap 3)) := rfl
  have three : (pairStore head).load (.heap 3) = .ok head := rfl
  have four : (pairStore head).load (.heap 4) = .ok (.reference (.heap 6)) :=
    rfl
  have five : (pairStore head).load (.heap 5) = .ok (.compound (.heap 0)) :=
    rfl
  have six : (pairStore head).load (.heap 6) = .ok (.reference (.heap 6)) :=
    rfl
  have inside : Address.heap 6 ∈ pairCells := by simp [pairCells]
  have list : (Word.list (.heap 3)).cell.Sound pairTable (pairStore head)
      pairCells := by
    simpa only [Word.cell_list] using pairStore_list head
  have structured : (Word.compound (.heap 0)).cell.Sound pairTable
      (pairStore head) pairCells := by
    simpa only [Word.cell_compound] using pairStore_structure head
  have reference : (Word.reference (.heap 6)).cell.Sound pairTable
      (pairStore head) pairCells := by
    simpa only [Word.cell_reference, Cell.Sound] using inside
  exact .of_each (forall_pairCells
    (.of_root one (show (1 : Int32) < 7 by decide) list
      (by simp [Cell.Readable]) (by simp))
    (.of_root two (show (2 : Int32) < 7 by decide) list
      (by simp [Cell.Readable]) (by simp))
    (.of_root three (show (3 : Int32) < 7 by decide) formed isTerm
      fun next refers => absurd refers (stays next))
    ⟨⟨_, four, reference, by simp [Cell.Readable]⟩,
      show (4 : Int32) < 7 by decide,
      _, .there four (Word.cell_reference _) (by decide)
        (.here ⟨_, six, by simp⟩)⟩
    (.of_root five (show (5 : Int32) < 7 by decide) structured
      (by simp [Cell.Readable]) (by simp))
    (.of_root six (show (6 : Int32) < 7 by decide) reference
      (by simp [Cell.Readable]) (by simp)))

end Pairs

/-- A structure that its list pair leads back to. -/
theorem Store.readBack_ends_knot :
    (pairStore (.compound (.heap 0))).Readable pairTable pairCells ∧
    ∃ term, Store.readBack pairTable (pairStore (.compound (.heap 0)))
      (.heap 5) = .ok term := by
  have readable : (pairStore (.compound (.heap 0))).Readable pairTable
      pairCells :=
    pairStore_readable (by simpa using pairStore_structure _)
      (by simp [Cell.Readable]) (by simp)
  have inside : Address.heap 5 ∈ pairCells := by simp [pairCells]
  obtain ⟨⟨term, reads, -⟩, -⟩ := readable.readBack_ends inside
  exact ⟨readable, term, reads⟩

/-- A structure is above the pair it holds, and a pair above an atom. -/
def pairRank : Cell → Nat
  | .compound _ => 2
  | .list _ => 1
  | _ => 0

/-- No cycle is reachable from a structure whose list pair leads to an atom. -/
theorem pairStore_unfolds :
    (pairStore (.constant ⟨1⟩)).Unfolds pairTable (.compound (.heap 0)) := by
  have list {index : Int32}
      (loaded : (pairStore (.constant ⟨1⟩)).load (.heap index) =
        .ok (.list (.heap 3))) {next : Cell}
      (found : (pairStore (.constant ⟨1⟩)).At (.heap index) next) :
      next = .list (.heap 3) := by
    refine found.unique ?_
    simpa using Store.At.of_load loaded (by simp)
  have head {next : Cell}
      (found : (pairStore (.constant ⟨1⟩)).At (.heap 3) next) :
      next = .constant ⟨1⟩ := by
    have loaded : (pairStore (.constant ⟨1⟩)).load (.heap 3) =
        .ok (.constant ⟨1⟩) := rfl
    refine found.unique ?_
    simpa using Store.At.of_load loaded (by simp)
  have tail {next : Cell}
      (found : (pairStore (.constant ⟨1⟩)).At (.heap 4) next) :
      next = .reference (.heap 6) := by
    refine found.unique ⟨.heap 6, .reference (.heap 6), ?_, rfl, by simp⟩
    have loaded : (pairStore (.constant ⟨1⟩)).load (.heap 4) =
        .ok (.reference (.heap 6)) := rfl
    exact .there loaded (by simp) (by decide)
      (.here ⟨.reference (.heap 6), rfl, by simp⟩)
  refine @Store.Unfolds.of_rank _ _ _ pairRank
    (fun node => node = .compound (.heap 0) ∨ node = .list (.heap 3) ∨
      node = .constant ⟨1⟩ ∨ node = .reference (.heap 6))
    (.inl rfl) ?_
  rintro _ index address next (rfl | rfl | rfl | rfl) isPart found
  · cases isPart with
    | argument known below =>
        cases (pairStore_functorAt _).symm.trans known
        obtain rfl | rfl : index = 0 ∨ index = 1 := by
          change index < 2 at below
          omega
        · cases @list 1 rfl _ found
          exact ⟨by simp, by simp [pairRank]⟩
        · cases @list 2 rfl _ found
          exact ⟨by simp, by simp [pairRank]⟩
  · cases isPart with
    | head =>
        cases head found
        exact ⟨by simp, by simp [pairRank]⟩
    | tail =>
        cases tail found
        exact ⟨by simp, by simp [pairRank]⟩
  · cases isPart
  · cases isPart

/-- A structure whose two arguments are one list pair is read as if they were
two. -/
theorem Store.readBack_plain_shared :
    (pairStore (.constant ⟨1⟩)).Readable pairTable pairCells ∧
    ∃ term, Store.PlainReading pairTable (pairStore (.constant ⟨1⟩)) (.heap 5)
        term ∧
      Store.readBack pairTable (pairStore (.constant ⟨1⟩)) (.heap 5) =
        .ok term := by
  have readable : (pairStore (.constant ⟨1⟩)).Readable pairTable pairCells :=
    pairStore_readable (by simp [Cell.Sound])
      (by rw [Word.cell_constant]; exact ⟨⟨"a", 0⟩, rfl⟩) (by simp)
  have inside : Address.heap 5 ∈ pairCells := by simp [pairCells]
  have loaded : (pairStore (.constant ⟨1⟩)).load (.heap 5) =
      .ok (.compound (.heap 0)) := rfl
  have isRoot : (pairStore (.constant ⟨1⟩)).At (.heap 5)
      (.compound (.heap 0)) := by
    simpa using Store.At.of_load loaded (by simp)
  have unfolds : ∀ node, (pairStore (.constant ⟨1⟩)).At (.heap 5) node →
      (pairStore (.constant ⟨1⟩)).Unfolds pairTable node := by
    intro node found
    cases found.unique isRoot
    exact pairStore_unfolds
  obtain ⟨term, plain, reads, -⟩ := readable.readBack_plain inside unfolds
  exact ⟨readable, term, plain, reads⟩

end LogicMachine
