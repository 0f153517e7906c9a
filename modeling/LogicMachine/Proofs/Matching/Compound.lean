import LogicMachine.Proofs.Execution.Growing
import LogicMachine.Proofs.Matching.Arrangement

/-!
# Compounds and their arguments

The arguments of a compound are cells in a row.  A compound of the clause is
matched argument by argument, whether its cells are there already or are built
on the way.
-/

namespace LogicMachine

theorem Address.plus_plus (address : Address) (first second : Nat) :
    (address.plus first).plus second = address.plus (first + second) := by
  have sum (start : Int32) : start + Int32.ofNat first + Int32.ofNat second =
      start + Int32.ofNat (first + second) := by
    rw [Int32.ofNat_add, Int32.add_assoc]
  cases address <;> simp only [plus, shift?, Option.getD_some, Option.getD_none,
    sum]

theorem Address.plus_succ (address : Address) (count : Nat) :
    address.plus (count + 1) = (address.plus 1).plus count := by
  rw [plus_plus, Nat.add_comm]

/-- The word stands for a node whose children are the cells from a base on. -/
inductive Word.Spans (table : FunctorTable) (memory : Store) (word : Word) :
    Symbol → Address → Prop where
  | headed {header : Address} {functor : Functor} :
      word.cell = .compound header → header ∈ memory.allocated →
      table.functorAt memory header = .ok functor →
      Spans table memory word (.compound functor) (header.plus 1)
  | pair {pair : Address} : word.cell = .list pair →
      Spans table memory word .list pair

namespace Word.Spans

variable {table : FunctorTable} {memory : Store} {word : Word}
  {symbol : Symbol} {base : Address} {cells : Set Address}

theorem denotes_iff {T : Type} [TreeAlgebra T] {value : Address → T} {tree : T}
    (spans : word.Spans table memory symbol base) :
    word.Denotes table memory value tree ↔
      tree = TreeAlgebra.node symbol fun index => value (base.plus index) := by
  cases spans with
  | @headed header functor decoded _ found =>
      simp only [Word.Denotes, decoded, found, Except.ok.injEq,
        exists_eq_left', Address.plus_plus, Nat.add_comm 1]
  | pair decoded => simp only [Word.Denotes, decoded]

theorem notReference (spans : word.Spans table memory symbol base)
    (next : Address) : word.cell ≠ .reference next := by
  cases spans with
  | headed decoded => simp [decoded]
  | pair decoded => simp [decoded]

theorem isTerm (spans : word.Spans table memory symbol base)
    (inside : ∀ index < symbol.arity, base.plus index ∈ cells)
    (sound : word.Sound) : word.IsTerm table memory cells := by
  refine ⟨?_, sound⟩
  cases spans with
  | @headed header functor decoded inUse found =>
      simp only [Word.Formed, decoded]
      refine ⟨inUse, functor, found, fun index below => ?_⟩
      rw [Address.plus_succ]
      exact inside index below
  | pair decoded =>
      simp only [Word.Formed, decoded]
      refine ⟨?_, inside 1 (by decide)⟩
      simpa using inside 0 (by decide)

theorem inside (spans : word.Spans table memory symbol base)
    (isTerm : word.IsTerm table memory cells) :
    ∀ index < symbol.arity, base.plus index ∈ cells := by
  have formed := isTerm.formed
  cases spans with
  | @headed header functor decoded _ found =>
      simp only [Word.Formed, decoded] at formed
      obtain ⟨-, other, alsoFound, arguments⟩ := formed
      rw [found] at alsoFound
      cases alsoFound
      intro index below
      rw [← Address.plus_succ]
      exact arguments index below
  | pair decoded =>
      simp only [Word.Formed, decoded] at formed
      intro index below
      obtain rfl | rfl : index = 0 ∨ index = 1 := by
        have few : index < 2 := below
        omega
      · simpa using formed.1
      · exact formed.2

theorem later {after : Store} (spans : word.Spans table memory symbol base)
    (more : memory.allocated ⊆ after.allocated)
    (agrees : table.Agrees memory.allocated memory after) :
    word.Spans table after symbol base := by
  cases spans with
  | headed decoded inUse found =>
      exact .headed decoded (more inUse) (agrees _ inUse _ found)
  | pair decoded => exact .pair decoded

end Word.Spans

/-! ## Demands on compounds -/

/-- The cells from a base on have to be what the terms say. -/
def Demand.inRow (base : Address) : List Term → List Demand
  | [] => []
  | term :: rest => ⟨.reference base, .takes term⟩ :: inRow (base.plus 1) rest

section Demands

variable {T : Type} [TreeAlgebra T] {table : FunctorTable} {naming : Naming}
  {memory : Store} {value : Address → T} {bound : String → T} {word : Word}
  {symbol : Symbol} {base : Address} {cells : Set Address}

theorem Demand.met_reference {address : Address} {term : Term} :
    Demand.Met table naming memory value bound
        ⟨.reference address, .takes term⟩ ↔
      term.Takes naming bound (value address) := by
  simp [Demand.Met, Wish.Allows, Word.Denotes]

theorem Demand.met_inRow {terms : List Term} :
    (∀ demand ∈ inRow base terms,
        demand.Met table naming memory value bound) ↔
      Term.AllTake naming bound terms fun index => value (base.plus index) := by
  induction terms generalizing base with
  | nil => simp [inRow, Term.AllTake]
  | cons term rest ih =>
      simp only [inRow, List.forall_mem_cons, Term.AllTake, met_reference, ih,
        Address.plus_zero, ← Address.plus_succ]

theorem Demand.words_inRow {terms : List Term} {demand : Demand}
    (member : demand ∈ inRow base terms) :
    ∃ index < terms.length, demand.words = [.reference (base.plus index)] := by
  induction terms generalizing base with
  | nil => cases member
  | cons term rest ih =>
      rcases List.mem_cons.mp member with rfl | later
      · exact ⟨0, Nat.zero_lt_succ _, by rw [Address.plus_zero]; rfl⟩
      · obtain ⟨index, below, words⟩ := ih later
        exact ⟨index + 1, Nat.succ_lt_succ below, by rw [words, ← Address.plus_succ]⟩

theorem isTerm_reference {address : Address} (inside : address ∈ cells) :
    (Word.reference address).IsTerm table memory cells := by
  refine ⟨?_, Word.Sound.of_cell List.mem_cons_self rfl⟩
  simpa [Word.Formed] using inside

/-- A compound of the clause, as a wish for a node. -/
theorem Demand.met_compound {term : Term} {functor : Option Functor}
    {args : List Term}
    (decided : Shape.of term = .ok (.compound functor args)) :
    Demand.Met table naming memory value bound ⟨word, .takes term⟩ ↔
      Demand.Met table naming memory value bound
        ⟨word, .builds (.ofFunctor functor) base 0 args⟩ := by
  apply exists_congr
  intro tree
  apply and_congr_right'
  simp only [Wish.Allows, Nat.not_lt_zero, IsEmpty.forall_iff, implies_true,
    true_and, Nat.zero_add]
  exact @Term.takes_compound T _ naming bound tree term functor args decided

/-- The arguments of a node that is there have to be what the terms say. -/
theorem Demand.met_spans {terms : List Term}
    (spans : word.Spans table memory symbol base)
    (length : terms.length = symbol.arity) :
    Demand.Met table naming memory value bound
        ⟨word, .builds symbol base 0 terms⟩ ↔
      ∀ demand ∈ inRow base terms,
        demand.Met table naming memory value bound := by
  rw [met_inRow]
  simp only [Demand.Met, Wish.Allows, spans.denotes_iff, exists_eq_left,
    Nat.not_lt_zero, IsEmpty.forall_iff, implies_true, true_and, Nat.zero_add]
  constructor
  · rintro ⟨children, same, takes⟩
    apply takes.congr
    intro index below
    rw [length] at below
    exact congrFun (TreeAlgebra.children_eq same) ⟨index, below⟩
  · exact fun takes => ⟨fun index => value (base.plus index), rfl, takes⟩

/-- All arguments of the node are there. -/
theorem Demand.met_built {own : Word}
    (spans : own.Spans table memory symbol base) :
    Demand.Met table naming memory value bound
        ⟨word, .builds symbol base symbol.arity []⟩ ↔
      ∃ tree, word.Denotes table memory value tree ∧
        own.Denotes table memory value tree := by
  apply exists_congr
  intro tree
  apply and_congr_right'
  rw [spans.denotes_iff]
  constructor
  · rintro ⟨children, rfl, same, -⟩
    exact congrArg (TreeAlgebra.node symbol)
      (funext fun index => same index index.isLt)
  · rintro rfl
    exact ⟨fun index => value (base.plus index), rfl, fun _ _ => rfl, trivial⟩

/-- The next argument of the node is there, and its cell is as the term says. -/
theorem Demand.met_next {count : Nat} {term : Term} {rest : List Term} :
    Demand.Met table naming memory value bound
        ⟨word, .builds symbol base (count + 1) rest⟩ ∧
        term.Takes naming bound (value (base.plus count)) →
      Demand.Met table naming memory value bound
        ⟨word, .builds symbol base count (term :: rest)⟩ := by
  rintro ⟨⟨tree, denotes, children, shape, same, takes⟩, here⟩
  refine ⟨tree, denotes, children, shape, ?_, ?_, ?_⟩
  · exact fun index below => same index (Nat.lt_succ_of_lt below)
  · show term.Takes naming bound (children (count + 0))
    rw [Nat.add_zero, same count (Nat.lt_succ_self count)]
    exact here
  · apply takes.congr
    intro index _
    rw [Nat.add_right_comm, Nat.add_assoc]

end Demands

end LogicMachine
