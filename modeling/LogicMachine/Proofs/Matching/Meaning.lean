import LogicMachine.Proofs.Code.HeadText
import LogicMachine.Proofs.Execution.Unifying

/-!
# Equations between words and terms

Matching the head of a clause solves equations between words of the machine and
terms of the clause.  A situation is a memory with the equations that are still
to be solved in it.  One situation refines another if both have the same
solutions: the trees of the cells and of the variables of the clause.
-/

namespace LogicMachine

/-! ## Trees of terms -/

section Takes

variable {T : Type} [TreeAlgebra T]

/-- The tree of an atom. -/
def Naming.IsConstant (naming : Naming) (name : String) (tree : T) : Prop :=
  ∃ id, naming.number? (.constant name) = some id ∧
    tree = TreeAlgebra.node (.constant id) Fin.elim0

/-- The symbol of a structure or, without a functor, of a list pair. -/
def Symbol.ofFunctor : Option Functor → Symbol
  | some functor => .compound functor
  | none => .list

/-- A compound has as many arguments as its functor says. -/
theorem Shape.length_of {term : Term} {functor : Option Functor}
    {args : List Term}
    (decided : Shape.of term = .ok (.compound functor args)) :
    args.length = (Symbol.ofFunctor functor).arity := by
  cases term with
  | atom name => cases decided
  | var name =>
      simp only [Shape.of] at decided
      split at decided <;> cases decided
  | compound name inner =>
      simp only [Shape.of] at decided
      split at decided
      · split at decided
        case isTrue two =>
          cases decided
          exact two
        case isFalse => cases decided
      · split at decided
        case isTrue => cases decided
        case isFalse =>
          cases decided
          rfl

namespace Term

mutual

/-- The trees that a term may stand for when its variables have given trees.
The anonymous variable stands for any tree, each time for another one. -/
def Takes (naming : Naming) (bound : String → T) : Term → T → Prop
  | .atom name, tree => naming.IsConstant name tree
  | .var name, tree => name = anonymous ∨ tree = bound name
  | .compound functor args, tree =>
      if functor = listFunctor then
        args.length = 2 ∧ ∃ children : Nat → T,
          tree = TreeAlgebra.node .list (fun index => children index) ∧
            AllTake naming bound args children
      else if args.isEmpty then
        naming.IsConstant functor tree
      else
        ∃ children : Nat → T,
          tree = TreeAlgebra.node (.compound ⟨functor, args.length⟩)
            (fun index => children index) ∧
            AllTake naming bound args children

/-- The trees that the terms of a list may stand for. -/
def AllTake (naming : Naming) (bound : String → T) :
    List Term → (Nat → T) → Prop
  | [], _ => True
  | term :: rest, children => term.Takes naming bound (children 0) ∧
      AllTake naming bound rest (fun index => children (index + 1))

end

variable {naming : Naming} {bound : String → T} {tree : T}

theorem takes_anonymous : (Term.var anonymous).Takes naming bound tree :=
  .inl rfl

theorem takes_var {name : String} (named : name ≠ anonymous) :
    (Term.var name).Takes naming bound tree ↔ tree = bound name := by
  simp [Takes, named]

theorem takes_constant {term : Term} {functor : Functor} {id : FunctorId}
    (decided : Shape.of term = .ok (.constant functor))
    (known : naming.number? functor = some id) :
    term.Takes naming bound tree ↔
      tree = TreeAlgebra.node (.constant id) Fin.elim0 := by
  have same {name : String} (isConstant : Functor.constant name = functor) :
      naming.IsConstant name tree ↔
        tree = TreeAlgebra.node (.constant id) Fin.elim0 := by
    rw [← isConstant] at known
    simp [Naming.IsConstant, known]
  cases term with
  | atom name =>
      cases decided
      rw [Takes]
      exact same rfl
  | var name =>
      simp only [Shape.of] at decided
      split at decided <;> cases decided
  | compound name args =>
      simp only [Shape.of] at decided
      split at decided
      · split at decided <;> cases decided
      case isFalse notList =>
        split at decided
        case isTrue empty =>
          cases decided
          rw [Takes, if_neg notList, if_pos empty]
          exact same rfl
        case isFalse => cases decided

theorem takes_compound {term : Term} {functor : Option Functor}
    {args : List Term}
    (decided : Shape.of term = .ok (.compound functor args)) :
    term.Takes naming bound tree ↔ ∃ children : Nat → T,
      tree = TreeAlgebra.node (Symbol.ofFunctor functor)
        (fun index => children index) ∧
      AllTake naming bound args children := by
  cases term with
  | atom name => cases decided
  | var name =>
      simp only [Shape.of] at decided
      split at decided <;> cases decided
  | compound name inner =>
      simp only [Shape.of] at decided
      split at decided
      case isTrue isList =>
        split at decided
        case isTrue two =>
          cases decided
          rw [Takes, if_pos isList]
          exact and_iff_right two
        case isFalse => cases decided
      case isFalse notList =>
        split at decided
        case isTrue => cases decided
        case isFalse nonempty =>
          cases decided
          rw [Takes, if_neg notList, if_neg nonempty]
          rfl

theorem AllTake.congr {terms : List Term} {children others : Nat → T}
    (takes : AllTake naming bound terms children)
    (same : ∀ index < terms.length, others index = children index) :
    AllTake naming bound terms others := by
  induction terms generalizing children others with
  | nil => trivial
  | cons term rest ih =>
      refine ⟨?_, ih takes.2 ?_⟩
      · rw [same 0 (by simp)]
        exact takes.1
      · intro index below
        exact same (index + 1) (by simpa using below)

end Term

end Takes

/-! ## Situations -/

/-- What the tree of a word has to be. -/
inductive Wish where
  /-- One that a term of the clause may stand for. -/
  | takes (term : Term)
  /-- A node whose first children are those of some cells in a row; the others
  may be any that the remaining terms stand for. -/
  | builds (symbol : Symbol) (base : Address) (count : Nat) (rest : List Term)

/-- Where the arguments start of a compound that is built behind its word. -/
def Symbol.argumentsAt : Symbol → Int32 → Address
  | .compound _, pointer => .heap (pointer + 1 + 1)
  | _, pointer => .heap (pointer + 1)

theorem Symbol.argumentsAt_inj {symbol : Symbol} {pointer other : Int32}
    (same : symbol.argumentsAt pointer = symbol.argumentsAt other) :
    pointer = other := by
  cases symbol <;> simpa [argumentsAt, Int32.add_left_inj] using same

/-- The cell with the word of a compound that is being built.  It belongs to no
term before all arguments are there. -/
def Wish.Spares : Wish → Address → Prop
  | .takes _, _ => False
  | .builds symbol base _ _, address => ∃ pointer, address = .heap pointer ∧
      base = symbol.argumentsAt pointer

/-- A word with what its tree has to be. -/
structure Demand where
  word : Word
  wish : Wish

section Met

variable {T : Type} [TreeAlgebra T]

/-- The trees that a wish allows. -/
def Wish.Allows (naming : Naming) (value : Address → T)
    (bound : String → T) : Wish → T → Prop
  | .takes term, tree => term.Takes naming bound tree
  | .builds symbol base count rest, tree => ∃ children : Nat → T,
      tree = TreeAlgebra.node symbol (fun index => children index) ∧
        (∀ index < count, children index = value (base.plus index)) ∧
        Term.AllTake naming bound rest (fun index => children (count + index))

/-- The trees of some cells and variables meet a demand. -/
def Demand.Met (table : FunctorTable) (naming : Naming) (memory : Store)
    (value : Address → T) (bound : String → T) (demand : Demand) : Prop :=
  ∃ tree, demand.word.Denotes table memory value tree ∧
    demand.wish.Allows naming value bound tree

variable {table : FunctorTable} {naming : Naming} {memory : Store}
  {value : Address → T} {bound : String → T} {word : Word}

theorem Demand.met_var {name : String} (named : name ≠ Term.anonymous) :
    Demand.Met table naming memory value bound ⟨word, .takes (.var name)⟩ ↔
      word.Denotes table memory value (bound name) := by
  constructor
  · rintro ⟨tree, denotes, takes⟩
    have same : tree = bound name :=
      (@Term.takes_var T _ naming bound tree name named).mp takes
    rw [← same]
    exact denotes
  · intro denotes
    exact ⟨_, denotes, (@Term.takes_var T _ naming bound _ name named).mpr rfl⟩

end Met

/-- Two words have the same tree in every valuation. -/
def Word.Alike (table : FunctorTable) (memory : Store) (cells : Set Address)
    (word content : Word) : Prop :=
  ∀ (T : Type) [TreeAlgebra T] (value : Address → T) (tree : T),
    memory.Respects table cells value →
    (word.Denotes table memory value tree ↔
      content.Denotes table memory value tree)

theorem Word.Alike.met_iff {table : FunctorTable} {naming : Naming}
    {memory : Store} {cells : Set Address} {word content : Word}
    (alike : Word.Alike table memory cells word content) {T : Type}
    [TreeAlgebra T] {value : Address → T} {bound : String → T}
    (respects : memory.Respects table cells value) {wish : Wish} :
    Demand.Met table naming memory value bound ⟨word, wish⟩ ↔
      Demand.Met table naming memory value bound ⟨content, wish⟩ :=
  exists_congr fun tree => and_congr_left' (alike T value tree respects)

/-- A memory with the demands that its trees have to meet. -/
structure Situation where
  memory : Store
  cells : Set Address
  demands : List Demand

namespace Situation

section Solves

variable {T : Type} [TreeAlgebra T]

/-- Trees for the cells and for the variables of the clause. -/
structure Solves (table : FunctorTable) (naming : Naming)
    (situation : Situation) (value : Address → T) (bound : String → T) :
    Prop where
  respects : situation.memory.Respects table situation.cells value
  met : ∀ demand ∈ situation.demands,
    demand.Met table naming situation.memory value bound

end Solves

/-- There is no solution, whatever the trees are. -/
def Unsolvable (table : FunctorTable) (naming : Naming)
    (situation : Situation) : Prop :=
  ∀ (T : Type) [TreeAlgebra T] (value : Address → T) (bound : String → T),
    ¬ situation.Solves table naming value bound

/-- The later situation may have more cells, and words of terms stand for terms
in it as well. -/
structure Outlasts (table : FunctorTable) (before after : Situation) :
    Prop where
  more : before.cells ⊆ after.cells
  isTerm : ∀ word : Word, word.IsTerm table before.memory before.cells →
    word.IsTerm table after.memory after.cells
  top_le : ∀ region, before.memory.top region ≤ after.memory.top region
  capacity : ∀ region,
    after.memory.capacity region = before.memory.capacity region
  /-- Only new cells of the retained segment are taken in. -/
  fresh : ∀ index, .retained index ∈ after.cells →
    .retained index ∈ before.cells ∨ .retained index ∉ before.memory.allocated

/-- Both situations have the same solutions. -/
structure Refines (table : FunctorTable) (naming : Naming)
    (before after : Situation) : Prop extends Outlasts table before after where
  sound : ∀ (T : Type) [TreeAlgebra T] (value : Address → T)
    (bound : String → T), after.Solves table naming value bound →
      before.Solves table naming value bound
  complete : ∀ (T : Type) [TreeAlgebra T] (known : Address → T)
    (bound : String → T), before.Solves table naming known bound →
      ∃ value : Address → T, after.Solves table naming value bound ∧
        ∀ address ∈ before.cells, value address = known address

variable {table : FunctorTable} {naming : Naming}
  {before middle after : Situation}

theorem Outlasts.refl (memory : Store) (cells : Set Address)
    (demands others : List Demand) :
    Outlasts table ⟨memory, cells, demands⟩ ⟨memory, cells, others⟩ where
  more := subset_rfl
  isTerm := fun _ => id
  top_le := fun _ => Int32.le_refl _
  capacity := fun _ => rfl
  fresh := fun _ => .inl

theorem Outlasts.trans (first : Outlasts table before middle)
    (second : Outlasts table middle after) : Outlasts table before after where
  more := first.more.trans second.more
  isTerm := fun word known => second.isTerm word (first.isTerm word known)
  top_le := fun region =>
    Int32.le_trans (first.top_le region) (second.top_le region)
  capacity := fun region =>
    (second.capacity region).trans (first.capacity region)
  fresh := by
    intro index inside
    rcases second.fresh index inside with old | unused
    · exact first.fresh index old
    · refine .inr fun inUse => unused ?_
      rw [Store.retained_mem_allocated] at inUse ⊢
      exact Int32.lt_of_lt_of_le inUse (first.top_le .retained)

theorem Outlasts.of_evolves {cells larger : Set Address} {memory later : Store}
    (evolves : Store.Evolves table cells memory larger later)
    (demands others : List Demand) :
    Outlasts table ⟨memory, cells, demands⟩ ⟨later, larger, others⟩ where
  more := evolves.more
  isTerm := fun _ => evolves.isTerm
  top_le := evolves.top_le
  capacity := evolves.capacity
  fresh := fun _ => evolves.fresh _

theorem Refines.refl (situation : Situation) :
    Refines table naming situation situation where
  toOutlasts := .refl _ _ _ _
  sound := fun _ _ _ _ => id
  complete := fun _ _ known _ solves => ⟨known, solves, fun _ _ => rfl⟩

theorem Refines.trans (first : Refines table naming before middle)
    (second : Refines table naming middle after) :
    Refines table naming before after where
  toOutlasts := first.toOutlasts.trans second.toOutlasts
  sound := by
    intro T _ value bound solves
    exact first.sound T value bound (second.sound T value bound solves)
  complete := by
    intro T _ known bound solves
    obtain ⟨value, solved, same⟩ := first.complete T known bound solves
    obtain ⟨final, finally', agree⟩ := second.complete T value bound solved
    refine ⟨final, finally', ?_⟩
    intro address inside
    rw [agree address (first.more inside), same address inside]

theorem Refines.unsolvable (refines : Refines table naming before after)
    (unsolvable : after.Unsolvable table naming) :
    before.Unsolvable table naming := by
  intro T _ known bound solves
  obtain ⟨value, solved, -⟩ := refines.complete T known bound solves
  exact unsolvable T value bound solved

/-- Other demands that say the same. -/
theorem Refines.of_iff {memory : Store} {cells : Set Address}
    {demands others : List Demand}
    (same : ∀ (T : Type) [TreeAlgebra T] (value : Address → T)
      (bound : String → T), memory.Respects table cells value →
      ((∀ demand ∈ demands, demand.Met table naming memory value bound) ↔
        ∀ demand ∈ others, demand.Met table naming memory value bound)) :
    Refines table naming ⟨memory, cells, demands⟩ ⟨memory, cells, others⟩ where
  toOutlasts := .refl memory cells demands others
  sound := by
    intro T _ value bound solves
    exact ⟨solves.respects,
      (same T value bound solves.respects).mpr solves.met⟩
  complete := by
    intro T _ known bound solves
    exact ⟨known, ⟨solves.respects,
      (same T known bound solves.respects).mp solves.met⟩, fun _ _ => rfl⟩

end Situation

/-! ## Demands in a changing memory -/

/-- The words that a demand is about. -/
def Demand.words (demand : Demand) : List Word :=
  match demand.wish with
  | .takes _ => [demand.word]
  | .builds _ base count _ => demand.word ::
      (List.range count).map fun index => .reference (base.plus index)

theorem Demand.word_mem (demand : Demand) : demand.word ∈ demand.words := by
  obtain ⟨word, wish⟩ := demand
  cases wish <;> exact List.mem_cons_self

theorem Word.IsTerm.mem_of_reference {table : FunctorTable} {memory : Store}
    {cells : Set Address} {address : Address}
    (isTerm : (Word.reference address).IsTerm table memory cells) :
    address ∈ cells := by
  simpa [Word.Formed] using isTerm.formed

section Changes

variable {T : Type} [TreeAlgebra T] {table : FunctorTable} {naming : Naming}
  {cells larger : Set Address} {before after : Store} {demand : Demand}
  {value known : Address → T} {bound : String → T}

/-- A demand depends on the trees of its words only. -/
theorem Demand.met_congr
    (same : ∀ word ∈ demand.words, ∀ tree,
      word.Denotes table after value tree ↔
        word.Denotes table before known tree) :
    demand.Met table naming after value bound ↔
      demand.Met table naming before known bound := by
  obtain ⟨word, wish⟩ := demand
  apply exists_congr
  intro tree
  refine and_congr (same word (Demand.word_mem _) tree) ?_
  cases wish with
  | takes term => rfl
  | builds symbol base count rest =>
      have cell {index : Nat} (below : index < count) :
          value (base.plus index) = known (base.plus index) := by
        have denotes := same (.reference (base.plus index))
          (List.mem_cons_of_mem _ (List.mem_map_of_mem
            (List.mem_range.mpr below))) (value (base.plus index))
        simpa [Word.Denotes] using denotes
      apply exists_congr
      intro children
      refine and_congr_right' (and_congr_left' ?_)
      apply forall₂_congr
      intro index below
      rw [cell below]

/-- A demand on words of terms depends on the old cells only. -/
theorem Demand.met_iff
    (evolves : Store.Evolves table cells before larger after)
    (isTerm : ∀ word ∈ demand.words, word.IsTerm table before cells)
    (same : ∀ address ∈ cells, value address = known address) :
    demand.Met table naming after value bound ↔
      demand.Met table naming before known bound :=
  Demand.met_congr fun word member _ =>
    evolves.denotes (isTerm word member) same

end Changes

/-- Making two words equal meets a demand that comes down to that. -/
theorem Situation.Refines.of_equates {table : FunctorTable} {naming : Naming}
    {cells larger : Set Address} {before after : Store} {left right : Word}
    {demands : List Demand} {demand : Demand}
    (equates : before.Equates table cells left right larger after)
    (isTerm : ∀ other ∈ demands, ∀ word ∈ other.words,
      word.IsTerm table before cells)
    (means : ∀ (T : Type) [TreeAlgebra T] (value : Address → T)
      (bound : String → T), before.Respects table cells value →
      (∀ other ∈ demands, other.Met table naming before value bound) →
      (demand.Met table naming before value bound ↔
        ∃ tree, left.Denotes table before value tree ∧
          right.Denotes table before value tree)) :
    Refines table naming ⟨before, cells, demand :: demands⟩
      ⟨after, larger, demands⟩ where
  toOutlasts := .of_evolves equates.evolves _ _
  sound := by
    intro T _ value bound solves
    obtain ⟨respects, same⟩ := equates.sound T value solves.respects
    have met : ∀ other ∈ demands,
        other.Met table naming before value bound := by
      intro other member
      exact (Demand.met_iff equates.evolves (isTerm other member)
        (fun _ _ => rfl)).mp (solves.met other member)
    refine ⟨respects, ?_⟩
    intro other member
    rcases List.mem_cons.mp member with rfl | later
    · exact (means T value bound respects met).mpr same
    · exact met other later
  complete := by
    intro T _ known bound solves
    have met : ∀ other ∈ demands,
        other.Met table naming before known bound :=
      fun other member => solves.met other (List.mem_cons_of_mem _ member)
    have same := (means T known bound solves.respects met).mp
      (solves.met demand List.mem_cons_self)
    obtain ⟨value, respects, agree⟩ :=
      equates.complete T known solves.respects same
    refine ⟨value, ⟨respects, ?_⟩, agree⟩
    intro other member
    exact (Demand.met_iff equates.evolves (isTerm other member) agree).mpr
      (met other member)

end LogicMachine
