import LogicMachine.Proofs.Code.Placement
import LogicMachine.Session.Install

/-!
# Linked programs

A program is linked if every predicate it knows is entered through a chain of
dispatch code that leads to the code of its clauses in their order.  Pieces of
code do not overlap, so adding to a program changes the dispatch code of one
predicate and leaves everything else alone.
-/

namespace LogicMachine

/-! ## Numbered functors -/

/-- The numbers and the functors of a table belong together. -/
structure FunctorTable.Consistent (table : FunctorTable) : Prop where
  numbered : ∀ functor id, table.numbers[functor]? = some id →
    table.get? id = some functor
  listed : ∀ id functor, table.get? id = some functor →
    table.numbers[functor]? = some id

/-- Functors are numbered by 32 bits. -/
def FunctorTable.Small (table : FunctorTable) : Prop :=
  table.size ≤ 2 ^ 32

namespace FunctorTable

theorem empty_consistent : empty.Consistent := by
  constructor
  · intro functor id found
    simp [empty] at found
  · intro id functor found
    simp [get?, empty] at found

theorem size_le_intern (table : FunctorTable) (functor : Functor) :
    table.size ≤ (table.intern functor).2.size := by
  unfold intern
  split
  · exact Nat.le_refl _
  · simp [size]

theorem get?_intern_of_some {table : FunctorTable} {id : FunctorId}
    {known : Functor} (found : table.get? id = some known)
    (functor : Functor) : (table.intern functor).2.get? id = some known := by
  unfold intern
  split
  · exact found
  · unfold get? at found ⊢
    have inside := (Array.getElem?_eq_some_iff.mp found).1
    rw [Array.getElem?_push_lt inside, ← found,
      Array.getElem?_eq_getElem inside]

theorem numbers_intern_of_some {table : FunctorTable} {known : Functor}
    {id : FunctorId} (found : table.numbers[known]? = some id)
    (functor : Functor) :
    (table.intern functor).2.numbers[known]? = some id := by
  unfold intern
  split
  · exact found
  case h_2 missing =>
    simp only [Std.TreeMap.getElem?_insert]
    split
    case isTrue same =>
      cases Std.LawfulEqCmp.eq_of_compare same
      rw [missing] at found
      cases found
    case isFalse => exact found

theorem numbers_intern (table : FunctorTable) (functor : Functor) :
    (table.intern functor).2.numbers[functor]? =
      some (table.intern functor).1 := by
  unfold intern
  split
  case h_1 found => exact found
  case h_2 => simp

/-- Interning keeps a table consistent while there are numbers left, and the
number it returns is that of the functor. -/
theorem Consistent.intern {table : FunctorTable}
    (consistent : table.Consistent) (functor : Functor)
    (small : (table.intern functor).2.Small) :
    (table.intern functor).2.Consistent ∧
      (table.intern functor).2.get? (table.intern functor).1 =
        some functor := by
  unfold FunctorTable.intern Small at *
  cases known : table.numbers[functor]? with
  | some id =>
      simp only [known] at small ⊢
      exact ⟨consistent, consistent.numbered functor id known⟩
  | none =>
      simp only [known, size, Array.size_push] at small ⊢
      have index : (table.functors.size.toUInt32).toNat =
          table.functors.size := by
        simp only [Nat.toUInt32, UInt32.toNat_ofNat']
        omega
      refine ⟨⟨?_, ?_⟩, by simp [get?, index]⟩
      · intro other id found
        rw [Std.TreeMap.getElem?_insert] at found
        split at found
        case isTrue same =>
          cases found
          cases Std.LawfulEqCmp.eq_of_compare same
          simp [get?, index]
        case isFalse =>
          have old := consistent.numbered other id found
          unfold get? at old ⊢
          have inside := (Array.getElem?_eq_some_iff.mp old).1
          rw [Array.getElem?_push_lt inside, ← old,
            Array.getElem?_eq_getElem inside]
      · intro id other found
        unfold get? at found
        rw [Array.getElem?_push] at found
        split at found
        case isTrue last =>
          cases found
          have same : id = ⟨table.functors.size.toUInt32⟩ := by
            cases id with
            | mk number =>
                simp only [FunctorId.mk.injEq]
                apply UInt32.toNat_inj.mp
                rw [index]
                exact last
          rw [Std.TreeMap.getElem?_insert]
          simp [same]
        case isFalse =>
          have old := consistent.listed id other found
          rw [Std.TreeMap.getElem?_insert]
          split
          case isTrue same =>
            cases Std.LawfulEqCmp.eq_of_compare same
            rw [known] at old
            cases old
          case isFalse => exact old

end FunctorTable

/-! ## What later programs keep -/

namespace Program

/-- Functors keep their numbers, predicates their entries and native predicates
their places. -/
structure Keeps (before after : Program) : Prop where
  functors : ∀ id functor, before.functors.get? id = some functor →
    after.functors.get? id = some functor
  numbers : ∀ (functor : Functor) id, before.functors.numbers[functor]? = some id →
    after.functors.numbers[functor]? = some id
  entries : ∀ functor predicate,
    before.predicate? functor = some predicate →
      ∃ later, after.predicate? functor = some later ∧
        later.entry = predicate.entry
  natives : ∀ (index : Nat) native, before.natives[index]? = some native →
    after.natives[index]? = some native
  size : before.functors.size ≤ after.functors.size
  capacity : after.code.size = before.code.size

namespace Keeps

theorem refl (program : Program) : program.Keeps program :=
  ⟨fun _ _ found => found, fun _ _ found => found,
    fun _ _ found => ⟨_, found, rfl⟩, fun _ _ found => found, Nat.le_refl _,
    rfl⟩

theorem trans {first second third : Program} (left : first.Keeps second)
    (right : second.Keeps third) : first.Keeps third where
  functors := fun id functor found =>
    right.functors id functor (left.functors id functor found)
  numbers := fun functor id found =>
    right.numbers functor id (left.numbers functor id found)
  entries := by
    intro functor predicate found
    obtain ⟨middle, foundMiddle, same⟩ := left.entries functor predicate found
    obtain ⟨last, foundLast, alsoSame⟩ := right.entries functor middle foundMiddle
    exact ⟨last, foundLast, alsoSame.trans same⟩
  natives := fun index native found =>
    right.natives index native (left.natives index native found)
  size := Nat.le_trans left.size right.size
  capacity := right.capacity.trans left.capacity

theorem small {before after : Program} (keeps : before.Keeps after)
    (small : after.functors.Small) : before.functors.Small :=
  Nat.le_trans keeps.size small

end Keeps

/-- The code in use is the same. -/
structure Grows (before after : Program) : Prop extends Keeps before after where
  code : ∀ index < before.top, after.code[index]? = before.code[index]?
  top : before.top ≤ after.top

namespace Grows

theorem refl (program : Program) : program.Grows program :=
  ⟨.refl program, fun _ _ => rfl, Nat.le_refl _⟩

theorem trans {first second third : Program} (left : first.Grows second)
    (right : second.Grows third) : first.Grows third where
  toKeeps := left.toKeeps.trans right.toKeeps
  code := by
    intro index below
    rw [right.code index (Nat.lt_of_lt_of_le below left.top),
      left.code index below]
  top := Nat.le_trans left.top right.top

theorem holds {before after : Program} (grows : before.Grows after)
    {place : Label → Nat} {position : Nat} {items : List Item}
    (holds : before.Holds place position items)
    (below : position + textSize items ≤ before.top) :
    after.Holds place position items := by
  apply holds.congr
  intro index _ high
  exact grows.code index (by omega)

theorem hasWords {before after : Program} (grows : before.Grows after)
    {position : Nat} {words : List UInt32}
    (stands : before.HasWords position words)
    (below : position + words.length ≤ before.top) :
    after.HasWords position words := by
  intro index word found
  have inside := (List.getElem?_eq_some_iff.mp found).1
  rw [grows.code _ (by omega)]
  exact stands index word found

end Grows

end Program

/-! ## Chains of dispatch code -/

/-- A clause by its code. -/
structure Clause where
  address : Nat
  words : List UInt32

/-- The dispatch code of a predicate, piece by piece, and its clauses. -/
structure Chain where
  blocks : List Nat
  clauses : List Clause

namespace Chain

/-- The first piece of dispatch code, which calls jump to. -/
def entry (chain : Chain) : Nat :=
  chain.blocks.headD 0

/-- The chain stands as the program says. -/
def Matches (chain : Chain) : Predicate → Prop
  | .undefined entry => chain.blocks = [entry] ∧ chain.clauses = []
  | .single entry =>
      chain.blocks = [entry] ∧ ∃ clause, chain.clauses = [clause]
  | .chain entry last =>
      chain.clauses.length = chain.blocks.length ∧
        ∃ middle, chain.blocks = entry :: middle ++ [last]

theorem Matches.entry_eq {chain : Chain} {predicate : Predicate}
    (matching : chain.Matches predicate) : chain.entry = predicate.entry := by
  cases predicate with
  | undefined entry => simp [Chain.entry, matching.1, Predicate.entry]
  | single entry => simp [Chain.entry, matching.1, Predicate.entry]
  | chain entry last =>
      obtain ⟨-, middle, shape⟩ := matching
      simp [Chain.entry, shape, Predicate.entry]

end Chain

/-- The dispatch code of a clause that is followed by others. -/
def dispatchOther (next clause : Nat) : List UInt32 :=
  dispatchNext next ++ [Opcode.branchAbsolute.encode, clause.toUInt32]

namespace Program

/-- The pieces of dispatch code lead to the clauses, one after another. -/
def Dispatches (program : Program) : List Nat → List Clause → Prop
  | [block], [] => program.HasWords block dispatchUndefined
  | [block], [clause] => program.HasWords block (dispatchLast clause.address)
  | block :: next :: blocks, clause :: clauses =>
      program.HasWords block (dispatchOther next clause.address) ∧
        program.Dispatches (next :: blocks) clauses
  | _, _ => False

theorem HasWords.congr {program later : Program} {position : Nat}
    {words : List UInt32} (stands : program.HasWords position words)
    (same : ∀ index < words.length,
      later.code[position + index]? = program.code[position + index]?) :
    later.HasWords position words := by
  intro index word found
  rw [same index (List.getElem?_eq_some_iff.mp found).1]
  exact stands index word found

/-- Dispatch code depends on the words of its own pieces only. -/
theorem Dispatches.congr {program later : Program} {blocks : List Nat}
    {clauses : List Clause} (dispatches : program.Dispatches blocks clauses)
    (same : ∀ block ∈ blocks, ∀ index < dispatchSize,
      later.code[block + index]? = program.code[block + index]?) :
    later.Dispatches blocks clauses := by
  induction blocks generalizing clauses with
  | nil => cases dispatches
  | cons block rest ih =>
      have here := same block List.mem_cons_self
      cases rest with
      | nil =>
          match clauses, dispatches with
          | [], stands => exact HasWords.congr stands here
          | [_], stands => exact HasWords.congr stands here
      | cons next blocks =>
          cases clauses with
          | nil => cases dispatches
          | cons clause clauses =>
              refine ⟨dispatches.1.congr here, ih dispatches.2 ?_⟩
              exact fun other member =>
                same other (List.mem_cons_of_mem _ member)

/-- The words are what a rule was compiled to.  The numbers and entries in them
are still good. -/
def Compiled (program : Program) (rule : Rule) (trace : Bool)
    (words : List UInt32) : Prop :=
  ∃ before after, (before.functors.Small → before.functors.Consistent) ∧
    ProgramM.compile rule trace before = .ok words after ∧
    after.Keeps program

/-- Where the code of a clause comes from. -/
inductive Source (program : Program) (functor : Functor)
    (words : List UInt32) : Prop where
  | rule (rule : Rule) (trace : Bool) (head : functor = .ofGoal rule.head)
      (compiled : program.Compiled rule trace words)
  | native (index : Nat) (builtin : Builtin)
      (known : .native functor builtin ∈ Library.natives)
      (found : program.natives[index]? = some (.builtin builtin))
      (code : (Assembler.empty.add (.operand .native index.toUInt32)).clause
        functor.arity = .ok words)
  | foreign (index key : Nat)
      (found : program.natives[index]? = some (.foreign key))
      (code : (Assembler.empty.add (.operand .native index.toUInt32)).clause
        functor.arity = .ok words)
  | assembled (known : .assembled functor (.ok words) ∈ Library.assembled)

theorem Source.mono {before after : Program} {functor : Functor}
    {words : List UInt32} (source : before.Source functor words)
    (keeps : before.Keeps after) : after.Source functor words := by
  cases source with
  | rule rule trace head compiled =>
      obtain ⟨first, second, consistent, result, kept⟩ := compiled
      exact .rule rule trace head
        ⟨first, second, consistent, result, kept.trans keeps⟩
  | native index builtin known found code =>
      exact .native index builtin known (keeps.natives _ _ found) code
  | foreign index key found code =>
      exact .foreign index key (keeps.natives _ _ found) code
  | assembled known => exact .assembled known

end Program

/-! ## Linked programs -/

/-- What a code word belongs to. -/
inductive Piece where
  | dispatch (functor : Functor) (index : Nat)
  | clause (functor : Functor) (index : Nat)

/-- The chains of the predicates and the pieces that code words belong to. -/
structure Linkage where
  chains : Functor → Option Chain
  owner : Nat → Option Piece

namespace Linkage

/-- The words from one index up to another are made to belong to a piece. -/
def give (owner : Nat → Option Piece) (low high : Nat) (piece : Piece)
    (index : Nat) : Option Piece :=
  if low ≤ index ∧ index < high then some piece else owner index

section Give

variable {owner : Nat → Option Piece} {low high index : Nat}
  {piece found : Piece}

theorem give_inside (above : low ≤ index) (below : index < high) :
    give owner low high piece index = some piece :=
  if_pos ⟨above, below⟩

theorem give_outside (outside : ¬(low ≤ index ∧ index < high)) :
    give owner low high piece index = owner index :=
  if_neg outside

theorem of_give (given : give owner low high piece index = some found) :
    (low ≤ index ∧ index < high) ∨ owner index = some found := by
  unfold give at given
  split at given
  case isTrue inside => exact .inl inside
  case isFalse => exact .inr given

end Give

/-- Every word of a chain belongs to it. -/
structure Owns (linkage : Linkage) (functor : Functor) (chain : Chain) :
    Prop where
  blocks : ∀ (index : Nat) block, chain.blocks[index]? = some block →
    ∀ offset < dispatchSize,
      linkage.owner (block + offset) = some (.dispatch functor index)
  clauses : ∀ (index : Nat) clause, chain.clauses[index]? = some clause →
    ∀ offset < clause.words.length,
      linkage.owner (clause.address + offset) = some (.clause functor index)

/-- A later linkage has the same chains and new ones without clauses. -/
structure Extends (linkage later : Linkage) (top : Nat) : Prop where
  chains : ∀ functor chain, linkage.chains functor = some chain →
    later.chains functor = some chain
  fresh : ∀ functor chain, later.chains functor = some chain →
    linkage.chains functor = some chain ∨ chain.clauses = []
  owner : ∀ index < top, later.owner index = linkage.owner index

theorem Extends.refl (linkage : Linkage) (top : Nat) :
    linkage.Extends linkage top :=
  ⟨fun _ _ found => found, fun _ _ found => .inl found, fun _ _ => rfl⟩

theorem Extends.trans {first second third : Linkage} {low high : Nat}
    (left : first.Extends second low) (right : second.Extends third high)
    (order : low ≤ high) : first.Extends third low where
  chains := fun functor chain found =>
    right.chains functor chain (left.chains functor chain found)
  fresh := by
    intro functor chain found
    rcases right.fresh functor chain found with old | new
    · exact left.fresh functor chain old
    · exact .inr new
  owner := fun index below =>
    (right.owner index (Nat.lt_of_lt_of_le below order)).trans
      (left.owner index below)

end Linkage

namespace Program

/-- Every predicate of the program has its chain. -/
structure Linked (program : Program) (linkage : Linkage) : Prop where
  unknown : ∀ functor, program.predicate? functor = none →
    linkage.chains functor = none
  known : ∀ functor predicate, program.predicate? functor = some predicate →
    ∃ chain, linkage.chains functor = some chain ∧ chain.Matches predicate
  dispatches : ∀ functor chain, linkage.chains functor = some chain →
    program.Dispatches chain.blocks chain.clauses
  clauses : ∀ functor chain, linkage.chains functor = some chain →
    ∀ clause ∈ chain.clauses,
      program.HasWords clause.address clause.words ∧
        program.Source functor clause.words
  owns : ∀ functor chain, linkage.chains functor = some chain →
    linkage.Owns functor chain
  owned : ∀ index piece, linkage.owner index = some piece →
    1 ≤ index ∧ index < program.top
  top : 1 ≤ program.top ∧ program.top ≤ program.code.size
  halt : program.code[0]? = some Opcode.halt.encode
  consistent : program.functors.Small → program.functors.Consistent

namespace Linked

variable {program later : Program} {linkage : Linkage}

theorem block_lt (linked : program.Linked linkage) {functor : Functor}
    {chain : Chain} (found : linkage.chains functor = some chain)
    {block : Nat} (member : block ∈ chain.blocks) :
    1 ≤ block ∧ block + dispatchSize ≤ program.top := by
  obtain ⟨index, inside⟩ := List.getElem?_of_mem member
  have owns := (linked.owns functor chain found).blocks index block inside
  have first := linked.owned _ _ (owns 0 (by decide))
  have last := linked.owned _ _ (owns 3 (by decide))
  simp only [dispatchSize] at *
  omega

theorem clause_le (linked : program.Linked linkage) {functor : Functor}
    {chain : Chain} (found : linkage.chains functor = some chain)
    {clause : Clause} (member : clause ∈ chain.clauses)
    (nonempty : clause.words ≠ []) :
    clause.address + clause.words.length ≤ program.top := by
  have positive := List.length_pos_iff.mpr nonempty
  obtain ⟨index, there⟩ := List.getElem?_of_mem member
  have owns := (linked.owns functor chain found).clauses index clause there
    (clause.words.length - 1) (by omega)
  have inside := linked.owned _ _ owns
  omega

/-- A chain replaced by another one that takes over its words. -/
theorem update (linked : program.Linked linkage) {functor : Functor}
    {chain : Chain} {predicate : Predicate} {owner : Nat → Option Piece}
    (keeps : program.Keeps later)
    (top : program.top ≤ later.top ∧ later.top ≤ later.code.size)
    (code : ∀ index < program.top,
      (∀ block, linkage.owner index ≠ some (.dispatch functor block)) →
        later.code[index]? = program.code[index]?)
    (predicates : ∀ other, later.predicate? other =
      if other = functor then some predicate else program.predicate? other)
    (functors : later.functors = program.functors)
    (matching : chain.Matches predicate)
    (dispatches : later.Dispatches chain.blocks chain.clauses)
    (clauses : ∀ clause ∈ chain.clauses,
      later.HasWords clause.address clause.words ∧
        later.Source functor clause.words)
    (old : ∀ index piece, linkage.owner index = some piece →
      owner index = some piece)
    (owns : Linkage.Owns ⟨linkage.chains, owner⟩ functor chain)
    (owned : ∀ index piece, owner index = some piece →
      1 ≤ index ∧ index < later.top) :
    later.Linked
      ⟨fun other => if other = functor then some chain
        else linkage.chains other, owner⟩ := by
  have outside (index : Nat) (piece : Piece)
      (found : linkage.owner index = some piece)
      (different : ∀ block, piece ≠ .dispatch functor block) :
      later.code[index]? = program.code[index]? := by
    refine code index (linked.owned index piece found).2 ?_
    intro block isDispatch
    rw [found] at isDispatch
    cases isDispatch
    exact different block rfl
  refine ⟨?_, ?_, ?_, ?_, ?_, owned,
    ⟨Nat.le_trans linked.top.1 top.1, top.2⟩, ?_, ?_⟩
  · intro other missing
    rw [predicates] at missing
    split at missing
    · cases missing
    case isFalse different =>
      simp only [if_neg different]
      exact linked.unknown other missing
  · intro other found present
    rw [predicates] at present
    split at present
    case isTrue same =>
      cases present
      exact ⟨chain, by simp [same], matching⟩
    case isFalse different =>
      simp only [if_neg different]
      exact linked.known other found present
  · intro other found present
    dsimp only at present
    split at present
    · cases present
      exact dispatches
    case isFalse different =>
      apply (linked.dispatches other found present).congr
      intro block member offset below
      obtain ⟨index, inside⟩ := List.getElem?_of_mem member
      refine outside _ _
        ((linked.owns other found present).blocks index block inside offset
          below) ?_
      intro _ same
      cases same
      exact different rfl
  · intro other found present
    dsimp only at present
    split at present
    case isTrue same =>
      cases present
      rw [same]
      exact clauses
    case isFalse different =>
      intro clause member
      obtain ⟨stands, source⟩ := linked.clauses other found present clause member
      obtain ⟨index, there⟩ := List.getElem?_of_mem member
      refine ⟨stands.congr ?_, source.mono keeps⟩
      intro offset below
      exact outside _ _ ((linked.owns other found present).clauses index clause
        there offset below) nofun
  · intro other found present
    dsimp only at present
    split at present
    case isTrue same =>
      cases present
      rw [same]
      exact ⟨owns.blocks, owns.clauses⟩
    case isFalse different =>
      have before := linked.owns other found present
      exact ⟨fun index block inside offset below =>
          old _ _ (before.blocks index block inside offset below),
        fun index clause inside offset below =>
          old _ _ (before.clauses index clause inside offset below)⟩
  · rw [code 0 (by have := linked.top.1; omega), linked.halt]
    intro block found
    have := (linked.owned 0 _ found).1
    omega
  · rw [functors]
    exact linked.consistent

/-- Changes outside the code in use. -/
theorem of_grows (linked : program.Linked linkage)
    (grows : program.Grows later)
    (top : later.top ≤ later.code.size)
    (predicates : ∀ functor,
      later.predicate? functor = program.predicate? functor)
    (consistent : later.functors.Small → later.functors.Consistent) :
    later.Linked linkage := by
  refine ⟨?_, ?_, ?_, ?_, linked.owns, ?_, ?_, ?_, consistent⟩
  · intro functor missing
    rw [predicates] at missing
    exact linked.unknown functor missing
  · intro functor predicate found
    rw [predicates] at found
    exact linked.known functor predicate found
  · intro functor chain found
    apply (linked.dispatches functor chain found).congr
    intro block member offset below
    have inside := linked.block_lt found member
    exact grows.code _ (by omega)
  · intro functor chain found clause member
    obtain ⟨stands, source⟩ := linked.clauses functor chain found clause member
    obtain ⟨index, there⟩ := List.getElem?_of_mem member
    refine ⟨stands.congr ?_, source.mono grows.toKeeps⟩
    intro offset below
    have owns := (linked.owns functor chain found).clauses index clause there
      offset below
    exact grows.code _ (linked.owned _ _ owns).2
  · intro index piece found
    have inside := linked.owned index piece found
    exact ⟨inside.1, Nat.lt_of_lt_of_le inside.2 grows.top⟩
  · exact ⟨Nat.le_trans linked.top.1 grows.top, top⟩
  · rw [grows.code 0 linked.top.1, linked.halt]

end Linked

end Program

end LogicMachine
