import LogicMachine.Proofs.Construction.Building

/-!
# Building a term and reading it back

The code that is emitted for a term builds it wherever it is executed with enough
room.  A cell that holds the value is read back as the term: compounds without
arguments have become atoms, the variables that had a slot are replaced by the
readings of their bindings, and all other variables have names of their own that
nothing else has.  A binding from which a cycle is reachable has no reading that
does not depend on where reading starts.  It is replaced by some term that is the
same at every occurrence.
-/

namespace LogicMachine

/-! ## Straight code -/

/-- The words of straight code do not depend on where it stands. -/
theorem exists_words {items : List Item} (labels : labelsOf items = [])
    (targets : targetsOf items = []) :
    ∃ words : List UInt32, items.flatMap Item.codeWords = words.map .fixed ∧
      ∀ (program : Program) (place : Label → Nat) (position : Nat),
        program.HasWords position words →
          program.Holds place position items := by
  induction items with
  | nil => exact ⟨[], rfl, fun _ _ _ _ => trivial⟩
  | cons item rest ih =>
      cases item with
      | plain opcode =>
          obtain ⟨words, same, holds⟩ := ih labels targets
          refine ⟨opcode.encode :: words, ?_, fun program place position has => ?_⟩
          · rw [List.flatMap_cons, same]
            rfl
          · have later : program.HasWords (position + 1) words :=
              fun index word found => by
                have there := has (index + 1) word found
                rwa [Nat.add_comm index, ← Nat.add_assoc] at there
            exact ⟨has 0 _ rfl, holds program place _ later⟩
      | operand opcode value =>
          obtain ⟨words, same, holds⟩ := ih labels targets
          refine ⟨opcode.encode :: value :: words, ?_,
            fun program place position has => ?_⟩
          · rw [List.flatMap_cons, same]
            rfl
          · have later : program.HasWords (position + 2) words :=
              fun index word found => by
                have there := has (index + 2) word found
                rwa [Nat.add_comm index, ← Nat.add_assoc] at there
            exact ⟨has 0 _ rfl, has 1 _ rfl, holds program place _ later⟩
      | branch opcode target => cases targets
      | mark label => cases labels

/-- The store of a machine has the cells of its view. -/
theorem Shows.preserves {context : Context} {position : Nat} {view : View}
    {machine : Machine} (shown : Shows context position view machine) :
    view.memory.Preserves machine.store := by
  have bounds := shown.stack_bounds
  rw [← shown.memory]
  constructor
  · intro address inUse
    cases address with
    | heap index => exact inUse
    | retained index => exact inUse
    | stack index => exact Int32.le_trans inUse bounds.1
    | _ => cases inUse
  · intro address inUse
    cases address with
    | heap index => rfl
    | retained index => rfl
    | stack index =>
        have below : index ≤ -1 := inUse
        have negative : index < 0 := Int32.lt_of_le_of_lt below (by decide)
        simp [Store.load, wordAt?, negative]
    | _ => cases inUse

/-- A slot of the activation record is a cell that holds the word kept in it. -/
theorem Shows.holds_slot {context : Context} {position : Nat} {view : View}
    {machine : Machine} (shown : Shows context position view machine)
    {place : Nat} {word : Word}
    (found : view.locals[place]? = some (.word word)) :
    machine.store.Holds (view.slot place) word := by
  have there := View.frame_slot found
  have inside := (List.getElem?_eq_some_iff.mp there).1
  have length : view.frame.length ≤ view.stack.length := by
    simp [View.stack]
  refine ⟨?_, shown.load_eq (.inr ⟨_, rfl, there⟩)⟩
  show Int32.ofNat (view.below.length + place) ≤ machine.store.pointer
  have small := shown.stacked.small shown.addressable
  rw [shown.stacked.pointer, Int32.le_iff_toInt_le,
    Store.toInt_ofInt_pred small, Store.toInt_ofNat (by omega)]
  omega

/-! ## What the variables are replaced by -/

namespace View.Brings

variable {table : FunctorTable} {before after : Draft} {cells larger : Set Address}
  {view later : View} {keys : List Address}
  {births : List (Option String × Address)} {items : List Item}

/-- A variable had its word before or is one of those that were made. -/
theorem origin
    (brings : view.Brings table before after cells larger later keys births)
    (ready : view.Ready table before cells) (slotted : before.Slotted)
    (continues : before.Continues items after) {name : String} {word : Word}
    (isBound : after.bound later name = some word) :
    (before.bound view name = some word ∧
        word.Readable table view.memory cells) ∨
      before.bound view name = none ∧
        ∃ cell, (some name, cell) ∈ births ∧ word = .reference cell := by
  obtain ⟨slot, known, found⟩ := Draft.bound_eq_some.mp isBound
  cases was : before.slots.lookup name with
  | none =>
      obtain ⟨cell, member, there⟩ := brings.named name slot was known
      cases found.symm.trans there
      refine .inr ⟨?_, cell, member, rfl⟩
      simp [Draft.bound, was]
  | some place =>
      cases known.symm.trans (continues.slots name place was)
      obtain ⟨old, there, isReadable⟩ := ready.bound name slot was
      rw [brings.locals _ (slotted name slot was), there] at found
      cases found
      exact .inl ⟨Draft.bound_eq_some.mpr ⟨slot, was, there⟩, isReadable⟩

/-- Each cell was made for one variable only. -/
theorem birth_eq
    (brings : view.Brings table before after cells larger later keys births)
    {birth other : Option String × Address} (member : birth ∈ births)
    (memberToo : other ∈ births) (same : birth.2 = other.2) : birth = other :=
  List.inj_on_of_nodup_map brings.birthsDistinct member memberToo same

end View.Brings

theorem Store.isCell_of_allocated {store : Store} {address : Address}
    (inUse : address ∈ store.allocated) : address.IsCell := by
  cases address with
  | heap _ | retained _ | stack _ => trivial
  | _ => cases inUse

/-- The second term is the first with its variables replaced.  Those that were
bound have the readings of their words, unless a cycle is reachable from these.
All others have names that nothing else has. -/
structure Term.Restored (table : FunctorTable) (origin : Store)
    (bound : String → Option Word) (term : Term) (value : String → Term)
    (names : List String) (result : Term) : Prop where
  filled : term.Filled value names result
  distinct : names.Nodup
  new : ∀ name ∈ names, ∀ cell ∈ origin.allocated, name ≠ cell.variableName
  elsewhere : ∀ var ∈ term.vars, var ≠ Term.anonymous →
    ∀ name ∈ (value var).vars, name ∉ names
  plain : ∀ var ∈ term.vars, var ≠ Term.anonymous → ∀ word,
    bound var = some word → origin.WordUnfolds table word → ∀ store,
      origin.Preserves store → ∀ address, store.Holds address word →
        Store.readBack table store address = .ok (value var)
  fresh : ∀ var ∈ term.vars, var ≠ Term.anonymous → bound var = none →
    ∃ name, value var = .var name ∧
      (∀ cell ∈ origin.allocated, name ≠ cell.variableName) ∧
      ∀ other ∈ term.vars, other ≠ Term.anonymous → other ≠ var →
        name ∉ (value other).vars

namespace View.Brings

variable {table : FunctorTable} {before after : Draft} {cells larger : Set Address}
  {view later : View} {keys : List Address}
  {births : List (Option String × Address)} {items : List Item} {store : Store}

theorem ne_old
    (brings : view.Brings table before after cells larger later keys births)
    {birth : Option String × Address} (member : birth ∈ births) :
    ∀ cell ∈ view.memory.allocated,
      birth.2.variableName ≠ cell.variableName := by
  intro cell inUse same
  obtain ⟨new, -, holds⟩ := brings.birthsNew birth member
  have equal := Address.variableName_inj (Store.isCell_of_allocated holds.1)
    (Store.isCell_of_allocated inUse) same
  exact new (equal ▸ inUse)

theorem birth_eq_of_name
    (brings : view.Brings table before after cells larger later keys births)
    {birth other : Option String × Address} (member : birth ∈ births)
    (memberToo : other ∈ births)
    (same : birth.2.variableName = other.2.variableName) : birth = other :=
  brings.birth_eq member memberToo (Address.variableName_inj
    (Store.isCell_of_allocated (brings.birthsNew birth member).2.2.1)
    (Store.isCell_of_allocated (brings.birthsNew other memberToo).2.2.1) same)

/-- The names that occur in what replaces a variable are old, or there is one
only, which is that of the cell that was made for the variable. -/
theorem names
    (brings : view.Brings table before after cells larger later keys births)
    (ready : view.Ready table before cells) (slotted : before.Slotted)
    (continues : before.Continues items after)
    (preserves : later.memory.Preserves store) {var : String} {word : Word}
    (isBound : after.bound later var = some word) {term : Term}
    (renders : Store.Renders table view.memory cells store word term)
    {name : String} (occurs : name ∈ term.vars) :
    (∃ cell ∈ view.memory.allocated, name = cell.variableName) ∨
      ∃ cell, (some var, cell) ∈ births ∧ name = cell.variableName := by
  rcases brings.origin ready slotted continues isBound with
    ⟨-, isReadable⟩ | ⟨-, cell, member, rfl⟩
  · exact .inl (renders.named isReadable name occurs)
  · have holds := preserves.holds (brings.birthsNew _ member).2.2
    rw [renders.fresh cell rfl holds.2] at occurs
    exact .inr ⟨cell, member, List.mem_singleton.mp occurs⟩

/-- What is read back is the term with its variables replaced. -/
theorem restored
    (brings : view.Brings table before after cells larger later keys births)
    (ready : view.Ready table before cells) (slotted : before.Slotted)
    (continues : before.Continues items after)
    (preserves : later.memory.Preserves store) {term result : Term}
    {value : String → Term}
    (filled : term.Filled value
      ((anonymousCells births).map Address.variableName) result)
    (renders : ∀ name ∈ term.vars, name ≠ Term.anonymous → ∃ word,
      after.bound later name = some word ∧
        Store.Renders table view.memory cells store word (value name)) :
    term.Restored table view.memory (before.bound view) value
      ((anonymousCells births).map Address.variableName) result := by
  have ofAnonymous {name : String}
      (member : name ∈ (anonymousCells births).map Address.variableName) :
      ∃ cell, (none, cell) ∈ births ∧ name = cell.variableName := by
    obtain ⟨cell, isCell, rfl⟩ := List.mem_map.mp member
    obtain ⟨⟨birth, other⟩, inside, rfl⟩ := List.mem_map.mp isCell
    obtain ⟨isBirth, isNone⟩ := List.mem_filter.mp inside
    cases birth with
    | none => exact ⟨other, isBirth, rfl⟩
    | some name => cases isNone
  refine ⟨filled, ?_, ?_, ?_, ?_, ?_⟩
  · rw [anonymousCells, List.map_map]
    refine List.Nodup.map_on ?_ ?_
    · intro birth member other memberToo same
      exact brings.birth_eq_of_name (List.mem_filter.mp member).1
        (List.mem_filter.mp memberToo).1 same
    · exact (List.Nodup.of_map _ brings.birthsDistinct).filter _
  · intro name member cell inUse
    obtain ⟨made, isBirth, rfl⟩ := ofAnonymous member
    exact brings.ne_old isBirth cell inUse
  · intro var inside isNamed name occurs member
    obtain ⟨made, isBirth, rfl⟩ := ofAnonymous member
    obtain ⟨word, isBound, renders⟩ := renders var inside isNamed
    rcases brings.names ready slotted continues preserves isBound renders occurs
      with ⟨cell, inUse, same⟩ | ⟨cell, isVariable, same⟩
    · exact brings.ne_old isBirth cell inUse same
    · cases brings.birth_eq_of_name isBirth isVariable same
  · intro var inside isNamed word isBound unfolds last preservesLast address holds
    obtain ⟨found, isBoundLater, renders⟩ := renders var inside isNamed
    cases (brings.bound slotted continues isBound).symm.trans isBoundLater
    rcases brings.origin ready slotted continues isBoundLater with
      ⟨-, isReadable⟩ | ⟨unknown, -⟩
    · exact renders.plain isReadable unfolds last preservesLast address holds.1
        holds.2
    · cases unknown.symm.trans isBound
  · intro var inside isNamed unbound
    obtain ⟨word, isBound, here⟩ := renders var inside isNamed
    rcases brings.origin ready slotted continues isBound with
      ⟨known, -⟩ | ⟨-, cell, member, rfl⟩
    · cases unbound.symm.trans known
    · have holds := preserves.holds (brings.birthsNew _ member).2.2
      refine ⟨cell.variableName, here.fresh cell rfl holds.2,
        brings.ne_old member, ?_⟩
      intro other insideToo isNamedToo different occurs
      obtain ⟨wordToo, isBoundToo, there⟩ := renders other insideToo isNamedToo
      rcases brings.names ready slotted continues preserves isBoundToo there
        occurs with ⟨old, inUse, same⟩ | ⟨made, isVariable, same⟩
      · exact brings.ne_old member old inUse same
      · cases brings.birth_eq_of_name member isVariable same
        exact different rfl

/-- A cell that holds the word of a built term is read back. -/
theorem readBack
    (brings : view.Brings table before after cells larger later keys births)
    (ready : view.Ready table before cells) (slotted : before.Slotted)
    (continues : before.Continues items after) {term : Term} {word : Word}
    (depicts : later.memory.Depicts table (after.bound later) term word keys
      (anonymousCells births))
    (isReadable : word.Readable table later.memory larger)
    (preserves : later.memory.Preserves store) {address : Address}
    (holds : store.Holds address word) :
    ∃ value names result, Store.readBack table store address = .ok result ∧
      term.Restored table view.memory (before.bound view) value names
        result := by
  have still := preserves.word_readable isReadable
  have whole : store.Readable table (insert address larger) :=
    (preserves.readable brings.readable).with_cell holds.1 holds.2
      ⟨still.sound.mono (Set.subset_insert _ _), still.isTerm⟩
  have binds : Store.BindsTo table view.memory cells store
      (after.bound later) := by
    intro name found isBound
    rcases brings.origin ready slotted continues isBound with
      ⟨-, old⟩ | ⟨-, cell, member, rfl⟩
    · exact .inl old
    · have unbound := preserves.holds (brings.birthsNew _ member).2.2
      exact .inr ⟨cell, rfl, unbound.2⟩
  obtain ⟨value, result, reads, filled, renders⟩ :=
    (depicts.later preserves fun _ _ => id).readBack
      (brings.preserves.trans preserves) ready.readable whole binds
      (fun key member => (brings.keysNew key member).1) brings.keysDistinct
      (Set.mem_insert _ _) holds.2
  exact ⟨value, _, result, reads,
    brings.restored ready slotted continues preserves filled renders⟩

end View.Brings

namespace ClauseM

/-- Executing the code that is emitted for a term, with room for the cells that
it claims and for two words on the stack, leads behind the code and makes a value
that is read back as the term.  The cells that were in use, the activation record
and its older slots stay as they were. -/
theorem build_readBack {context : Context} {term : Term} {before after : Draft}
    {program extended : Program} {value : Built}
    (builds : (build term : ClauseM ProgramM Built) before program =
      .ok (value, after) extended)
    (slotted : before.Slotted)
    (numbers : extended.naming.NumbersOf context.program.functors) :
    ∃ words count,
      after.assembler.words.toList =
        before.assembler.words.toList ++ words.map .fixed ∧
      count < 3 * term.nodes ∧
      ∀ (limit position : Nat) (cells : Set Address) (view : View)
        (machine : Machine),
        Hosts context limit position view machine →
        context.program.HasWords position words →
        view.Equipped context.program.functors limit count
          after.assembler.locals before cells →
        ∃ steps last later larger word,
          (∀ more, MachineM.run (steps + more) machine =
            MachineM.run more last) ∧
          Hosts context limit (position + words.length) later last ∧
          view.Gains context.program.functors before.assembler.locals cells
            larger later ∧
          later.memory.heapTop = view.memory.heapTop + Int32.ofNat count ∧
          value.Stands later word ∧
          ∀ store, later.memory.Preserves store → ∀ address,
            store.Holds address word → ∃ value names result,
              Store.readBack context.program.functors store address =
                .ok result ∧
              term.Restored context.program.functors view.memory
                (before.bound view) value names result := by
  have ran := build_realizes term before program
  rw [builds] at ran
  have planned := ran.2 extended.naming (Program.names_naming extended)
  obtain ⟨items, count, goes⟩ :=
    (build_builds numbers term before slotted).of_ok planned
  obtain ⟨words, same, holds⟩ :=
    exists_words goes.continues.labels goes.continues.targets
  have size : textSize items = words.length := by
    rw [textSize, same, List.length_map]
  refine ⟨words, count, by rw [goes.continues.words, same], goes.few, ?_⟩
  intro limit position cells view machine hosts has equipped
  obtain ⟨later, larger, word, keys, births, executes, stands, isReadable,
    depicts⟩ := goes.makes limit 0 cells view equipped
  obtain ⟨last, reached, runs⟩ := hosts.runs executes.runs
    (holds context.program (fun _ => 0) position has)
  rw [size] at reached
  refine ⟨items.length, last, later, larger, word, runs, reached,
    executes.toGains, executes.heapTop, stands, ?_⟩
  intro store preserves address holds
  exact executes.readBack equipped.toReady slotted goes.continues depicts
    isReadable preserves holds

end ClauseM

/-! ## A knot

Two structures that are each the argument of the other, and the list pair of
both. -/

def knotTable : FunctorTable :=
  ⟨#[⟨"f", 1⟩, ⟨"g", 1⟩], {}⟩

/-- The code that builds the pair of the first two slots. -/
def knotItems : List Item :=
  Built.pairItems ⟨2⟩ (.slot ⟨0⟩) (.slot ⟨1⟩)

def knotWords : List UInt32 :=
  knotItems.flatMap fun item => item.codeWords.filterMap fun
    | .fixed word => some word
    | .distance _ => none

def knotProgram : Program :=
  { Program.empty 0 default with
    code := knotWords.toArray
    functors := knotTable }

def knotMachine : Machine where
  store :=
    { Store.empty 0 0 0 with
      heap := #[Word.functor ⟨0⟩, Word.compound (.heap 2), Word.functor ⟨1⟩,
        Word.compound (.heap 0)] ++ Array.replicate 8 .zero
      heapTop := 4
      stack := #[.zero, .zero, .zero, Word.compound (.heap 0),
        Word.compound (.heap 2), .zero, .zero, .zero]
      pointer := 5 }
  registers := { Registers.initial with environment := .stack 0 }
  program := knotProgram
  collectors := []

def knotContext : Context :=
  ⟨knotProgram, by decide, [], .trivial _⟩

def knotView : View where
  memory := knotMachine.store.memory
  pending := []
  below := [.zero, .zero, .zero]
  locals := [.word (.compound (.heap 0)), .word (.compound (.heap 2)),
    .word .zero]
  operands := []
  continuation := .code (-1)
  cutBase := .blank 0

def knotTerm : Term :=
  .compound Term.listFunctor [.var "X", .var "Y"]

def knotDraft : Draft :=
  ⟨⟨#[], #[], 2⟩, [("X", ⟨0⟩), ("Y", ⟨1⟩)], none, none⟩

def knotCells : Set Address :=
  { address | address = .heap 1 ∨ address = .heap 3 }

theorem knot_hosts : Hosts knotContext 8 0 knotView knotMachine where
  program := rfl
  collectors := rfl
  guarded := trivial
  addressable := ⟨by decide, by decide, by decide⟩
  room := by
    intro region
    cases region <;> exact ⟨by decide, by decide⟩
  instruction := rfl
  environment := rfl
  continuation := rfl
  cutBase := rfl
  memory := rfl
  stacked := by
    refine ⟨by decide, by decide, fun index word found => ?_⟩
    rcases index with _ | _ | _ | _ | _ | _ | index
    all_goals first | exact found | cases found
  size := rfl

theorem knot_readable : knotView.memory.Readable knotTable knotCells := by
  have first : knotView.memory.load (.heap 1) = .ok (.compound (.heap 2)) := rfl
  have second : knotView.memory.load (.heap 3) = .ok (.compound (.heap 0)) :=
    rfl
  refine ⟨⟨?_, ?_, ?_⟩, ?_⟩
  · rintro _ (rfl | rfl)
    · refine ⟨_, first, ?_⟩
      rw [Word.cell_compound]
      refine ⟨show (2 : Int32) < 4 by decide, ⟨"g", 1⟩, rfl, ?_⟩
      intro (index : Nat) (below : index < 1)
      cases Nat.lt_one_iff.mp below
      exact .inr rfl
    · refine ⟨_, second, ?_⟩
      rw [Word.cell_compound]
      refine ⟨show (0 : Int32) < 4 by decide, ⟨"f", 1⟩, rfl, ?_⟩
      intro (index : Nat) (below : index < 1)
      cases Nat.lt_one_iff.mp below
      exact .inl rfl
  · rintro _ (rfl | rfl)
    · exact show (1 : Int32) < 4 by decide
    · exact show (3 : Int32) < 4 by decide
  · rintro _ (rfl | rfl)
    · exact ⟨_, .here ⟨_, first, by simp⟩⟩
    · exact ⟨_, .here ⟨_, second, by simp⟩⟩
  · rintro _ (rfl | rfl) word found
    · cases first.symm.trans found
      simp [Cell.Readable]
    · cases second.symm.trans found
      simp [Cell.Readable]

theorem knot_word {header : Int32} (isHeader : header = 0 ∨ header = 2) :
    (Word.compound (.heap header)).Readable knotTable knotView.memory
      knotCells := by
  rcases isHeader with rfl | rfl
  · obtain ⟨word, found, sound⟩ := knot_readable.formed (.heap 3) (.inr rfl)
    cases found
    exact ⟨sound, by simp [Cell.Readable]⟩
  · obtain ⟨word, found, sound⟩ := knot_readable.formed (.heap 1) (.inl rfl)
    cases found
    exact ⟨sound, by simp [Cell.Readable]⟩

theorem knot_slotted : knotDraft.Slotted := by
  intro name slot known
  simp only [knotDraft, List.lookup_cons, List.lookup_nil] at known ⊢
  split at known
  · cases known
    decide
  · split at known
    · cases known
      decide
    · cases known

theorem knot_equipped : knotView.Equipped knotTable 8 8 3 knotDraft
    knotCells where
  readable := knot_readable
  pending := rfl
  few := by decide
  bound := by
    intro name slot known
    simp only [knotDraft, List.lookup_cons, List.lookup_nil] at known
    split at known
    · cases known
      exact ⟨_, rfl, knot_word (.inl rfl)⟩
    · split at known
      · cases known
        exact ⟨_, rfl, knot_word (.inr rfl)⟩
      · cases known
  leaves := Nat.le_refl 8
  spares := ⟨by decide, by decide, by decide⟩
  enough := by decide

theorem knot_numbers : knotProgram.naming.NumbersOf knotTable := by
  intro functor id known
  simp [Program.naming, knotProgram, knotTable] at known

theorem knot_hasWords : knotContext.program.HasWords 0 knotWords := by
  intro index word found
  rw [Nat.zero_add]
  simpa [knotContext, knotProgram] using found

theorem knot_words {words : List UInt32}
    (same : knotItems.flatMap Item.codeWords = words.map .fixed) :
    words = knotWords :=
  List.map_injective_iff.mpr (fun _ _ => CodeWord.fixed.inj)
    (same.symm.trans rfl)

theorem knot_builds :
    (ClauseM.build knotTerm : ClauseM ProgramM Built) knotDraft knotProgram =
      .ok (.slot ⟨2⟩, knotDraft.withLocal.emitted knotItems) knotProgram :=
  rfl

/-- The slot of the pair is read back as the term with its variables filled
in. -/
theorem build_readBack_knot :
    ∃ steps last value names result,
      (∀ more, MachineM.run (steps + more) knotMachine =
        MachineM.run more last) ∧
      Store.readBack knotTable last.store (.stack 5) = .ok result ∧
      knotTerm.Restored knotTable knotView.memory (knotDraft.bound knotView)
        value names result := by
  obtain ⟨words, count, emitted, few, built⟩ :=
    @ClauseM.build_readBack knotContext _ _ _ _ _ _ knot_builds knot_slotted
      knot_numbers
  obtain rfl := knot_words (Eq.trans rfl emitted)
  have equipped : knotView.Equipped knotTable 8 count 3 knotDraft knotCells :=
    { knot_equipped with
      spares := knot_equipped.spares.mono (Nat.le_of_lt_succ few) }
  obtain ⟨steps, last, later, larger, word, runs, hosts, gains, -, stands,
    reads⟩ := built 8 0 knotCells knotView knotMachine knot_hosts
      knot_hasWords equipped
  have holds := hosts.holds_slot stands.2
  rw [View.slot, gains.below] at holds
  obtain ⟨value, names, result, isRead, restored⟩ :=
    reads last.store hosts.preserves (.stack 5) holds
  exact ⟨steps, last, value, names, result, runs, isRead, restored⟩

/-- A cell outside of the terms that holds a readable word is read back. -/
theorem Store.Readable.readBack_holds {table : FunctorTable} {store : Store}
    {cells : Set Address} (readable : store.Readable table cells)
    {address : Address} {word : Word} (holds : store.Holds address word)
    (isReadable : word.Readable table store cells) {term : Term}
    {later : Address → Option Term}
    (reading : store.MemoReading table ∅ (fun _ => none) address term later) :
    readBack table store address = .ok term := by
  have whole := readable.with_cell holds.1 holds.2
    ⟨isReadable.sound.mono (Set.subset_insert _ _), isReadable.isTerm⟩
  have inside : address ∈ insert address cells := Set.mem_insert _ _
  exact reading.readBack_eq whole inside

/-- The pair has been built of the two structures. -/
structure Knotted (store : Store) (cells : Set Address) : Prop where
  preserves : knotView.memory.Preserves store
  readable : store.Readable knotTable cells
  more : knotCells ⊆ cells
  pair : (Word.list (.heap 4)).Readable knotTable store cells
  head : store.Holds (.heap 4) (.compound (.heap 0))
  tail : store.Holds (.heap 5) (.compound (.heap 2))
  headSlot : store.Holds (.stack 3) (.compound (.heap 0))
  tailSlot : store.Holds (.stack 4) (.compound (.heap 2))
  pairSlot : store.Holds (.stack 5) (.list (.heap 4))

theorem knot_runs :
    ∃ last cells, (∀ more, MachineM.run (knotItems.length + more) knotMachine =
        MachineM.run more last) ∧ Knotted last.store cells := by
  let left : Word := .compound (.heap 0)
  let right : Word := .compound (.heap 2)
  have spares : knotView.memory.Spares 2 :=
    knot_equipped.spares.mono (by decide)
  obtain ⟨larger, parts, compounds⟩ := spares.pair knot_readable
    (knot_word (.inl rfl)) (knot_word (.inr rfl))
  have runs : View.Runs 8 knotView knotItems
      (knotView.built (knotView.memory.grownAll [left, right]) ⟨2⟩
        (.list (.heap 4))) :=
    @View.runs_pairItems knotView 8 ⟨2⟩ (.slot ⟨0⟩) (.slot ⟨1⟩) left right
      (by decide) (by decide) ⟨by decide, rfl⟩ (by decide : (0 : Nat) < 2)
      ⟨by decide, rfl⟩ (by decide : (1 : Nat) < 2) rfl spares (Nat.le_refl 8)
  obtain ⟨words, same, placed⟩ := @exists_words knotItems rfl rfl
  obtain rfl := knot_words same
  obtain ⟨last, hosts, steps⟩ := knot_hosts.runs runs
    (placed knotContext.program (fun _ => 0) 0 knot_hasWords)
  have held : List.Forall₂ (knotView.memory.grownAll [left, right]).Holds
      [.heap 4, .heap 5] [left, right] :=
    @Store.Spares.holds knotView.memory [left, right] spares
  have onward := hosts.preserves
  cases held with
  | cons head rest =>
      cases rest with
      | cons tail _ =>
          exact ⟨last, larger, steps,
            { preserves := compounds.preserves.trans onward
              readable := onward.readable compounds.readable
              more := compounds.more
              pair := onward.word_readable compounds.isReadable
              head := onward.holds head
              tail := onward.holds tail
              headSlot := @Shows.holds_slot _ _ _ _ hosts.toShows 0 left rfl
              tailSlot := @Shows.holds_slot _ _ _ _ hosts.toShows 1 right rfl
              pairSlot := @Shows.holds_slot _ _ _ _ hosts.toShows 2
                (.list (.heap 4)) rfl }⟩

/-- The knot is read from where reading starts, so the second of the two
structures is not read as a part of the pair as it is by itself. -/
theorem knot_reads :
    ∃ steps last result first second,
      (∀ more, MachineM.run (steps + more) knotMachine =
        MachineM.run more last) ∧
      Store.readBack knotTable last.store (.stack 5) = .ok result ∧
      Store.readBack knotTable last.store (.stack 3) = .ok first ∧
      Store.readBack knotTable last.store (.stack 4) = .ok second ∧
      ∀ value names, value "X" = first → value "Y" = second →
        ¬ knotTerm.Filled value names result := by
  obtain ⟨last, cells, steps, knotted⟩ := knot_runs
  have onward := knotted.preserves
  have word {header : Int32} (isHeader : header = 0 ∨ header = 2) :
      (Word.compound (.heap header)).Readable knotTable last.store cells := by
    have isReadable := onward.word_readable (knot_word isHeader)
    exact ⟨isReadable.sound.mono knotted.more, isReadable.isTerm⟩
  have shows {address header : Address}
      (loaded : last.store.load address = .ok (.compound header)) :
      last.store.At address (.compound header) := by
    simpa using Store.At.of_load loaded (by simp)
  have one : last.store.At (.heap 1) (.compound (.heap 2)) :=
    shows ((onward.load _ (show (1 : Int32) < 4 by decide)).trans rfl)
  have three : last.store.At (.heap 3) (.compound (.heap 0)) :=
    shows ((onward.load _ (show (3 : Int32) < 4 by decide)).trans rfl)
  have pair : last.store.At (.stack 5) (.list (.heap 4)) := by
    simpa using Store.At.of_load knotted.pairSlot.2 (by simp)
  have first : knotTable.functorAt last.store (.heap 0) = .ok ⟨"f", 1⟩ :=
    (onward.functorAt (show (0 : Int32) < 4 by decide)).trans rfl
  have second : knotTable.functorAt last.store (.heap 2) = .ok ⟨"g", 1⟩ :=
    (onward.functorAt (show (2 : Int32) < 4 by decide)).trans rfl
  have isFirst : last.store.Compound knotTable (.compound (.heap 0)) (.heap 0)
      "f" [.heap 1] := .headed first
  have isSecond : last.store.Compound knotTable (.compound (.heap 2)) (.heap 2)
      "g" [.heap 3] := .headed second
  obtain ⟨_, -, firstRead⟩ := @Store.MemoReading.loop knotTable last.store ∅
    (fun _ => none) _ _ _ _ _ _ _ (shows knotted.headSlot.2) isFirst one
    isSecond three nofun nofun (by decide) rfl rfl
  obtain ⟨_, -, secondRead⟩ := @Store.MemoReading.loop knotTable last.store ∅
    (fun _ => none) _ _ _ _ _ _ _ (shows knotted.tailSlot.2) isSecond three
    isFirst one nofun nofun (by decide) rfl rfl
  obtain ⟨later, known, headRead⟩ := @Store.MemoReading.loop knotTable
    last.store (insert (.heap 4) ∅) (fun _ => none) _ _ _ _ _ _ _
    (shows knotted.head.2) isFirst one isSecond three (by decide) (by decide)
    (by decide) rfl rfl
  -- The second structure is known by the time when the tail is read.
  have tailRead : last.store.MemoReading knotTable (insert (.heap 4) ∅) later
      (.heap 5) (.compound "g" [Store.variableAt (.heap 0)]) later :=
    .recalled (shows knotted.tail.2) isSecond (by decide) known
  refine ⟨_, last, _, _, _, steps,
    knotted.readable.readBack_holds knotted.pairSlot knotted.pair
      (.compound pair (.pair _) nofun rfl (.cons headRead (.cons tailRead .nil))),
    knotted.readable.readBack_holds knotted.headSlot (word (.inl rfl)) firstRead,
    knotted.readable.readBack_holds knotted.tailSlot (word (.inr rfl)) secondRead,
    ?_⟩
  rintro value names - isSecond filled
  cases filled with
  | compound _ filled =>
      cases filled with
      | cons _ rest =>
          cases rest with
          | cons tail _ => cases (tail.eq_value (by decide)).trans isSecond

/-- The machine with no room on its stack. -/
def knotFull : Machine :=
  { knotMachine with
    store := { knotMachine.store with stack := knotMachine.store.stack.take 6 } }

/-- Without the two exceptions it does not hold: a binding from which a cycle is
reachable is not always replaced by its reading, and code cannot run on a full
stack, however much room there is on the heap. -/
theorem build_knot :
    (∃ steps last result first second,
      (∀ more, MachineM.run (steps + more) knotMachine =
        MachineM.run more last) ∧
      Store.readBack knotTable last.store (.stack 5) = .ok result ∧
      Store.readBack knotTable last.store (.stack 3) = .ok first ∧
      Store.readBack knotTable last.store (.stack 4) = .ok second ∧
      ∀ value names, value "X" = first → value "Y" = second →
        ¬ knotTerm.Filled value names result) ∧
    ∀ more, ∃ after, MachineM.run (more + 1) knotFull =
      .error (.exhausted .stack 6) after :=
  ⟨knot_reads, fun _ => ⟨_, rfl⟩⟩

end LogicMachine
