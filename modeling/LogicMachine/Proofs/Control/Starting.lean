import LogicMachine.Proofs.Control.Running

/-!
# Starting a query

A query is compiled as a clause of its own and started with new variables as its
arguments, on cells that hold what an earlier query has left behind.  From then on
the calls of its run are known.
-/

namespace LogicMachine

/-- Numbers of 32 bits are enough for whatever the program numbers. -/
structure Program.Fits (program : Program) : Prop where
  code : program.code.size < 2 ^ 31
  functors : program.functors.Small
  natives : program.natives.size ≤ 2 ^ 32
  arities : ∀ id functor, program.functors.get? id = some functor →
    functor.arity < 2 ^ 31

theorem Program.fits_iff {program : Program} :
    program.Fits ↔ program.code.size < 2 ^ 31 ∧ program.functors.Small ∧
      program.natives.size ≤ 2 ^ 32 ∧
        ∀ functor ∈ program.functors.functors.toList, functor.arity < 2 ^ 31 := by
  constructor
  · rintro ⟨code, functors, natives, arities⟩
    refine ⟨code, functors, natives, fun functor member => ?_⟩
    obtain ⟨index, inside, found⟩ := List.getElem_of_mem member
    refine arities ⟨index.toUInt32⟩ functor ?_
    have small : index < 2 ^ 32 := by
      rw [Array.length_toList] at inside
      exact Nat.lt_of_lt_of_le inside functors
    rw [FunctorTable.get?, toNat_toUInt32 small, ← Array.getElem?_toList,
      List.getElem?_eq_getElem inside, found]
  · rintro ⟨code, functors, natives, arities⟩
    exact ⟨code, functors, natives, fun _ functor found =>
      arities functor (Array.mem_def.mp (Array.mem_of_getElem? found))⟩

instance (table : FunctorTable) : Decidable table.Small :=
  inferInstanceAs (Decidable (table.size ≤ 2 ^ 32))

instance (program : Program) : Decidable program.Fits :=
  decidable_of_iff' _ Program.fits_iff

theorem Program.Keeps.size_natives {before after : Program}
    (keeps : before.Keeps after) :
    before.natives.size ≤ after.natives.size := by
  by_contra fewer
  have inside : after.natives.size < before.natives.size := Nat.not_le.mp fewer
  have found := keeps.natives _ _ (Array.getElem?_eq_getElem inside)
  simp at found

variable [Atoms]

/-- The atoms are the constants of the program. -/
def Program.Lists (program : Program) : Prop :=
  ∀ id functor, program.functors.get? id = some functor →
    (Atoms.includes id ↔ functor.arity = 0)

/-- What is known of the clauses of a program, and of the program that it grows to,
in a guarded and in a reserved run. -/
structure Linkage.Assures (linkage : Linkage) (guarded reserved : Prop)
    (program horizon : Program) : Prop where
  stocked : guarded → linkage.Stocked program
  apart : guarded → horizon.KeepsApart
  modest : reserved → linkage.Written Rule.Modest program
  unspoken : reserved → horizon.Unspoken

omit [Atoms] in
theorem Linkage.assures_nothing {linkage : Linkage}
    {program horizon : Program} :
    linkage.Assures False False program horizon where
  stocked := False.elim
  apart := False.elim
  modest := False.elim
  unspoken := False.elim

omit [Atoms] in
/-- The clauses stay what they are. -/
theorem Linkage.Assures.keeps {linkage later : Linkage} {guarded reserved : Prop}
    {before after horizon : Program}
    (assures : linkage.Assures guarded reserved before horizon)
    (keeps : before.Keeps after)
    (same : ∀ functor, later.clauses functor = linkage.clauses functor) :
    later.Assures guarded reserved after horizon where
  stocked := fun isGuarded =>
    (assures.stocked isGuarded).keeps keeps fun functor _ => same functor
  apart := assures.apart
  modest := fun isReserved functor clause member =>
    (assures.modest isReserved functor clause (same functor ▸ member)).keeps
      keeps
  unspoken := assures.unspoken

/-- A program with what it grows to. -/
def Base.between {program horizon : Program} {linkage : Linkage}
    (linked : program.Linked linkage) (keeps : program.Keeps horizon)
    (fits : horizon.Fits) (lists : horizon.Lists) {guarded reserved : Prop}
    (assures : linkage.Assures guarded reserved program horizon) : Base where
  program := program
  linkage := linkage
  linked := linked
  small := keeps.capacity ▸ fits.code
  natives := Nat.le_trans keeps.size_natives fits.natives
  atomic := by
    intro functor id isConstant found
    have small := keeps.small fits.functors
    have known := (linked.consistent small).numbered functor id found
    exact (lists id functor (keeps.functors id functor known)).mpr isConstant
  horizon := horizon
  limit := fits.functors
  narrow := fits.arities
  atoms := lists
  guarded := guarded
  stocked := assures.stocked
  apart := assures.apart
  reserved := reserved
  modest := assures.modest
  unspoken := assures.unspoken

/-! ## Cells that are written anew -/

namespace Store

theorem Tidy.reset {store : Store} (tidy : store.Tidy) : store.reset.Tidy where
  cells := by
    intro address word offStack found
    exact tidy.cells offStack (by cases address <;> exact found)
  saved := fun _ member => absurd member List.not_mem_nil
  addressable := ⟨tidy.addressable.heap, tidy.addressable.retained,
    tidy.addressable.stack⟩
  room := fun region => by
    cases region <;> exact ⟨Int32.le_refl _, Nat.zero_le _⟩

/-- The first heap cells as new variables. -/
def withVariables (store : Store) (count : Nat) : Store :=
  { store with
    heap := ((List.range count).map fun index =>
        Address.heap (Int32.ofNat index)).foldl
      (fun heap cell => heap.setIfInBounds cell.offset.toNatClampNeg
        (.reference cell)) store.heap
    heapTop := Int32.ofNat count }

omit [Atoms] in
theorem size_variables (cells : List Address) (heap : Array Word) :
    (cells.foldl (fun heap cell => heap.setIfInBounds
      cell.offset.toNatClampNeg (.reference cell)) heap).size = heap.size := by
  induction cells generalizing heap with
  | nil => rfl
  | cons cell rest ih => rw [List.foldl_cons, ih, Array.size_setIfInBounds]

theorem plain_variables {cells : List Address} {heap : Array Word}
    (unbound : ∀ cell ∈ cells, (Word.reference cell).Plain)
    (plain : ∀ (index : Nat) word, heap[index]? = some word → word.Plain)
    {index : Nat} {word : Word}
    (found : (cells.foldl (fun heap cell => heap.setIfInBounds
      cell.offset.toNatClampNeg (.reference cell)) heap)[index]? =
        some word) : word.Plain := by
  induction cells generalizing heap with
  | nil => exact plain index word found
  | cons cell rest ih =>
      refine ih (fun other member =>
        unbound other (List.mem_cons_of_mem _ member)) ?_ found
      intro other kept present
      rw [Array.getElem?_setIfInBounds] at present
      split at present
      case isTrue =>
        split at present
        case isTrue =>
          cases present
          exact unbound cell List.mem_cons_self
        case isFalse => cases present
      case isFalse => exact plain other kept present

theorem plain_variable {index : Nat} (small : index < 2 ^ 31) :
    (Word.reference (.heap (Int32.ofNat index))).Plain := by
  have nonnegative : (0 : Int32) ≤ Int32.ofNat index := by
    rw [Int32.le_iff_toInt_le, toInt_ofNat small]
    exact Int.natCast_nonneg index
  exact Cell.plain_tagged (by decide)
    (@Word.plain_cell _ .heap _ nonnegative)

theorem Tidy.withVariables {store : Store} (tidy : store.Tidy) {count : Nat}
    (room : count ≤ store.heap.size) (none : store.trail.frames = []) :
    (store.withVariables count).Tidy := by
  have small : count < 2 ^ 31 :=
    Nat.lt_of_le_of_lt room tidy.addressable.heap
  have size : (store.withVariables count).heap.size = store.heap.size :=
    size_variables _ _
  refine ⟨?_, ?_, ⟨?_, tidy.addressable.retained, tidy.addressable.stack⟩, ?_⟩
  · intro address word offStack found
    obtain ⟨region, index, rfl⟩ := region_of_load offStack found
    cases region with
    | retained => exact tidy.cells offStack found
    | heap =>
        simp only [Region.address, load] at found
        split at found
        case h_2 => cases found
        case h_1 other present =>
        cases found
        obtain ⟨-, there⟩ := wordAt?_eq_some.mp present
        refine plain_variables ?_ ?_ there
        · intro cell member
          obtain ⟨number, inside, rfl⟩ := List.mem_map.mp member
          exact plain_variable (Nat.lt_trans (List.mem_range.mp inside) small)
        · intro number kept held
          have limit := tidy.addressable.heap
          have inside := (Array.getElem?_eq_some_iff.mp held).1
          have there : store.load (.heap (Int32.ofNat number)) = .ok kept := by
            have found : wordAt? store.heap (Int32.ofNat number) = some kept := by
              refine wordAt?_eq_some.mpr ⟨?_, ?_⟩
              · rw [Int32.le_iff_toInt_le, toInt_ofNat (by omega)]
                exact Int.natCast_nonneg number
              · rw [toNatClampNeg_ofNat (by omega)]
                exact held
            simp only [load, found]
          exact tidy.cells (show (Address.heap _).OffStack from trivial) there
  · show ∀ frame ∈ store.trail.frames, _
    rw [none]
    exact fun _ member => absurd member List.not_mem_nil
  · rw [size]
    exact tidy.addressable.heap
  · intro region
    cases region with
    | retained => exact tidy.room .retained
    | heap =>
        refine ⟨?_, ?_⟩
        · show (0 : Int32) ≤ Int32.ofNat count
          rw [Int32.le_iff_toInt_le, toInt_ofNat small]
          exact Int.natCast_nonneg count
        · show (Int32.ofNat count).toNatClampNeg ≤
            (store.withVariables count).heap.size
          rw [toNatClampNeg_ofNat small, size]
          exact room

end Store

/-! ## The start of a run -/

omit [Atoms] in
theorem Store.follows_empty {store : Store} (none : store.trail.frames = [])
    (addressable : store.Addressable) : store.Follows [] [] where
  remembers := by
    refine ⟨[], none, rfl, trivial, ?_, .nil, .nil⟩
    exact fun _ member => absurd member List.not_mem_nil
  anchored := .inr rfl
  above := fun _ member => absurd member List.not_mem_nil
  addressable := addressable

omit [Atoms] in
theorem Store.stacked_empty {store : Store} (bottom : store.pointer = -1) :
    store.Stacked [] :=
  ⟨bottom, Nat.zero_le _, by simp⟩

/-- What a run starts with: a tidy store, arguments on the stack, and nothing
else. -/
def Activity.starting (memory : Store) (arguments : List Word) : Activity where
  memory := memory
  environment := .blank 0
  continuation := .code (-1)
  cutBase := .blank 0
  below := arguments.reverse
  locals := []
  operands := []

/-- Nothing else but a program. -/
def Setting.starting (program : Program) (small : program.code.size < 2 ^ 31)
    (origin : Store) : Setting :=
  ⟨program, small, [], [], origin⟩

namespace Runs

variable {setting : Setting} {position : Nat} {activity : Activity}
  {machine : Machine}

theorem starting {store : Store} {program : Program}
    (small : program.code.size < 2 ^ 31) (tidy : store.Tidy)
    (none : store.trail.frames = []) (bottom : store.pointer = -1)
    (journal : Journal) :
    Runs (.starting program small store) 0 (.starting store.memory [])
      ⟨store, .initial, { program with journal }, []⟩ where
  program := rfl
  collectors := rfl
  follows := Store.follows_empty none tidy.addressable
  tidy := tidy
  persists := .refl _
  instruction := rfl
  environment := rfl
  continuation := rfl
  cutBase := rfl
  memory := rfl
  stacked := Store.stacked_empty bottom

theorem pushReferences_ends (runs : Runs setting position activity machine)
    (cells : List Address) :
    Ends ((cells.forM fun cell => MachineM.push (.reference cell)) machine)
      (fun _ => Runs setting position
        { activity with operands :=
            (cells.map Word.reference).reverse ++ activity.operands })
      (fun _ => setting.Stays) := by
  induction cells generalizing activity machine with
  | nil => exact runs
  | cons cell rest ih =>
      simp only [List.forM, ends_bind]
      refine (runs.push_ends _).imp ?_ fun _ _ => id
      intro _ middle pushed
      refine (ih pushed).imp ?_ fun _ _ => id
      intro _ after later
      rw [List.map_cons, List.reverse_cons, List.append_assoc]
      exact later

end Runs

namespace MachineM

/-- A run starts with the variables of the query on the stack. -/
theorem start_ends {machine : Machine} (tidy : machine.store.reset.Tidy)
    (small : machine.program.code.size < 2 ^ 31) (entry count : Nat) :
    Ends (start entry.toUInt32 count machine)
      (fun _ after => ∃ arguments : List Word, arguments.length = count ∧
        (∀ word ∈ arguments, word.Plain) ∧
        Runs (.starting machine.program small after.store) entry
          (.starting after.store.memory arguments) after)
      (fun _ after => after.store.reset.Tidy) := by
  simp only [start, ends_bind, report, ends_onProgram, ProgramM.report,
    ends_modify, ends_get]
  split
  case isTrue => exact tidy.reset
  case isFalse room =>
    have inside : count ≤ machine.store.heap.size := Nat.not_lt.mp room
    have limit := tidy.addressable.heap
    simp only [ends_bind, ends_modify]
    generalize isCells : (List.range count).map
      (fun index => Address.heap (Int32.ofNat index)) = cells
    have runs := Runs.starting small (tidy.withVariables inside rfl) rfl rfl
      (machine.program.journal.add (.started entry.toUInt32.toNat count))
    rw [Store.withVariables, isCells] at runs
    refine (runs.pushReferences_ends cells.reverse).imp ?_
      fun _ _ stays => stays.tidy.reset
    intro _ middle pushed
    refine ⟨cells.map Word.reference, ?_, ?_, ?_⟩
    · rw [← isCells]
      simp
    · intro word member
      obtain ⟨cell, isCell, rfl⟩ := List.mem_map.mp member
      rw [← isCells] at isCell
      obtain ⟨index, low, rfl⟩ := List.mem_map.mp isCell
      have below : index < count := List.mem_range.mp low
      exact Store.plain_variable (Nat.lt_of_lt_of_le below
        (Nat.le_trans inside (Nat.le_of_lt limit)))
    · have ready := pushed.jumped entry middle.program.journal
      have last : Runs _ entry (.starting middle.store.memory
          (cells.map Word.reference)) _ :=
        ready.divided (by simp [Activity.starting, Activity.stack, Activity.frame])
          ready.memory rfl rfl rfl
      exact { last with persists := .refl _ }

end MachineM

/-- What is known of a query when it starts. -/
theorem Base.known_start {base : Base} {functor : Functor} {clause : Clause}
    (included : base.Includes functor clause)
    (outside : base.guarded → functor.knowsLevel = false) {machine : Machine}
    {arguments : List Word} (length : arguments.length = functor.arity)
    (plain : ∀ word ∈ arguments, word.Plain)
    (runs : Runs (.starting base.program base.small machine.store)
      clause.address (.starting machine.store.memory arguments) machine)
    (within : base.program.Keeps base.horizon) :
    ∃ outlook : Outlook, base.Known outlook machine ∧
      outlook.Tracks (.start machine) := by
  let call : Call :=
    { machine, functor, checkpoints := [], lower := [], arguments, scope := [] }
  have cutBase : machine.registers.cutBase = .blank 0 := runs.cutBase
  have level : machine.level = 0 := runs.follows.level_eq
  have sound : call.Sound := {
    stacked := by simpa [Activity.starting, Activity.stack, Activity.frame,
      Call.stack, call] using runs.stacked
    plain := plain
    arity := length
    tidy := runs.tidy
    follows := runs.follows
    cutBase := by
      show machine.registers.cutBase = .blank (Int32.ofNat machine.level)
      rw [cutBase, level]
      rfl }
  have waits : Runs (.starting base.program base.small machine.store)
      clause.address (call.waiting machine.store.memory) machine :=
    runs.divided (by simp [Activity.starting, Activity.stack, Activity.frame,
      Call.waiting, Call.stack, call]) rfl runs.environment runs.continuation
      runs.cutBase
  have isScoped : base.Scoped call := {
    within := fun _ => List.suffix_refl _
    own := fun _ _ => rfl
    given := fun guarded takes => by
      have none := outside guarded
      rw [Functor.knowsLevel, takes] at none
      simp at none
    small := fun _ => by
      show machine.level < 2 ^ 31
      rw [level]
      decide }
  have pending : base.Pending [call] :=
    .query sound rfl runs.continuation isScoped outside rfl
  have starts : base.Starts
      (.starting base.program base.small machine.store) call
      machine.store.memory :=
    ⟨⟨.refl _, fun _ => List.suffix_refl _⟩, fun _ => List.suffix_refl _,
      fun _ _ => ⟨rfl, rfl⟩⟩
  exact ⟨⟨.starting base.program base.small machine.store, [call], []⟩,
    { advances := .refl _
      within := within
      collected := fun _ member => absurd member List.not_mem_nil
      alternatives := .nil
      ordered := .nil
      stands := .busy rfl pending starts.toSpans
        (included.heads sound isScoped (.refl _) starts machine waits) },
    ⟨rfl, rfl⟩⟩

end LogicMachine
