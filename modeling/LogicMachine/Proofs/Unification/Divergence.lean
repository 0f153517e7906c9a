import Mathlib.Data.Set.Finite.Lattice
import LogicMachine.Proofs.Unification.Solution

/-!
# Unification that does not end

Without an occurs check unification may go on for ever, but only on cyclic
terms.  Whenever it is stopped, the pairs that it has worked on bound the sizes
of the finite trees that the cells may have.  There are only finitely many
stores that addresses can express, so beyond some number of steps a store on
which unification is stopped gives its cells no finite trees at all.
-/

namespace LogicMachine

namespace Store

variable {T : Type} [TreeAlgebra T] {table : FunctorTable} {region : Region}
  {cells larger : Set Address} {before after : Store}

/-- Binding variables and adding cells takes valuations away and adds none. -/
theorem Extends.respects_earlier (closed : before.Closed table cells)
    (extended : Extends table region cells before larger after)
    {value : Address → T} (respects : after.Respects table larger value) :
    before.Respects table cells value := by
  intro address inside word found
  rcases extended.grows.kept address with same | ⟨-, other, loaded, free⟩ | above
  · obtain ⟨other, loaded, formed⟩ := closed.formed address inside
    rw [found] at loaded
    cases loaded
    have later := respects address (extended.more inside) word
      (same.trans found)
    exact later.earlier formed extended.agrees
  · rw [found] at loaded
    cases loaded
    simp [Word.Denotes, free]
  · exact absurd above (not_above_of_allocated (closed.inside inside))

/-- A unification was stopped: finite trees of the cells are large. -/
def Endless (table : FunctorTable) (steps : Nat) (store : Store) : Prop :=
  ∃ (cells : Set Address) (address : Address), store.Closed table cells ∧
    address ∈ cells ∧ ∀ value : Address → FiniteTree,
      store.Respects table cells value → steps ≤ (value address).size

/-- Some cells hold terms that are no finite trees. -/
def Cyclic (table : FunctorTable) (store : Store) : Prop :=
  ∃ cells : Set Address, store.Closed table cells ∧
    ∀ value : Address → FiniteTree, ¬ store.Respects table cells value

end Store

/-- When unification is stopped, every step has taken away a part of the trees
of the given equations. -/
theorem unifyAll_stopped {table : FunctorTable} {cells : Set Address}
    {before : Store} {equations : List Equation} (steps : Nat)
    (wellFormed : before.WellFormed table cells)
    (small : before.capacity .retained < 2 ^ 31)
    (sides : ∀ equation ∈ equations,
      equation.left ∈ cells ∧ equation.right ∈ cells) :
    Ends (StoreM.unifyAll table steps equations before) (fun _ _ => True)
      (fun fault after => fault = .diverged → ∃ larger,
        Store.Extends table .retained cells before larger after ∧
          ∀ value : Address → FiniteTree, after.Respects table larger value →
            steps ≤ totalSize FiniteTree.size value equations) := by
  have closed := wellFormed.toClosed
  induction steps generalizing equations cells before with
  | zero =>
      cases equations with
      | nil => trivial
      | cons equation rest =>
          intro _
          exact ⟨cells, .refl _ closed, fun _ _ => Nat.zero_le _⟩
  | succ steps ih =>
      cases equations with
      | nil => trivial
      | cons equation rest =>
          obtain ⟨leftInside, rightInside⟩ := sides equation List.mem_cons_self
          have restSides : ∀ other ∈ rest,
              other.left ∈ cells ∧ other.right ∈ cells :=
            fun other member => sides other (List.mem_cons_of_mem _ member)
          unfold StoreM.unifyAll
          rw [ends_bind]
          refine (unifyPair_ends wellFormed small leftInside rightInside :
            Ends _ (PairOutcome FiniteTree table cells before equation) _).imp
            ?_ ?_
          · intro outcome middle ended
            cases outcome with
            | none => trivial
            | some arguments =>
                obtain ⟨⟨larger, extended, -, -⟩, argumentSides, less⟩ := ended
                have sidesLater : ∀ other ∈ arguments ++ rest,
                    other.left ∈ larger ∧ other.right ∈ larger := by
                  intro other member
                  have known : other.left ∈ cells ∧ other.right ∈ cells :=
                    (List.mem_append.mp member).elim (argumentSides other)
                      (restSides other)
                  exact ⟨extended.more known.1, extended.more known.2⟩
                refine (ih (extended.wellFormed wellFormed.acyclic)
                  (extended.grows.capacity .retained ▸ small) sidesLater
                  extended.closed).imp (fun _ _ => id) ?_
                intro fault after stopped diverged
                obtain ⟨largest, further, sizes⟩ := stopped diverged
                refine ⟨largest, extended.trans further, ?_⟩
                intro value respects
                have many := sizes value respects
                have now := extended.respects_earlier closed
                  (further.respects_earlier extended.closed respects)
                have fewer := less FiniteTree.size FiniteTree.measures value now
                rw [totalSize_append] at many
                rw [totalSize_cons]
                omega
          · rintro fault _ ⟨rfl, -⟩ diverged
            cases diverged

/-- A unification that was not stopped does not need more steps. -/
theorem unifyAll_more {table : FunctorTable} {before : Store}
    {equations : List Equation} {steps more : Nat} (enough : steps ≤ more)
    (ended : ∀ after, StoreM.unifyAll table steps equations before ≠
      .error .diverged after) :
    StoreM.unifyAll table more equations before =
      StoreM.unifyAll table steps equations before := by
  induction steps generalizing more equations before with
  | zero =>
      cases equations with
      | nil => cases more <;> rfl
      | cons equation rest => exact absurd rfl (ended before)
  | succ steps ih =>
      obtain ⟨more, rfl⟩ : ∃ rest, more = rest + 1 :=
        ⟨more - 1, by omega⟩
      cases equations with
      | nil => rfl
      | cons equation rest =>
          simp only [StoreM.unifyAll, bind, EStateM.bind] at ended ⊢
          cases worked : StoreM.unifyPair table equation before with
          | error fault middle => rfl
          | ok outcome middle =>
              cases outcome with
              | none => rfl
              | some arguments =>
                  simp only [worked] at ended
                  exact ih (by omega) ended

/-! ## Stores that can be told apart -/

namespace Store

/-- Valuations only look at what can be read. -/
theorem Respects.of_load {T : Type} [TreeAlgebra T] {table : FunctorTable}
    {store other : Store} {cells : Set Address} {value : Address → T}
    (respects : store.Respects table cells value)
    (same : ∀ address word, other.load address = .ok word ↔
      store.load address = .ok word) :
    other.Respects table cells value := by
  intro address inside word found
  have denotes := respects address inside word ((same address word).mp found)
  unfold Word.Denotes at denotes ⊢
  cases decoded : word.cell with
  | compound header =>
      simp only [decoded] at denotes ⊢
      obtain ⟨functor, there, tree⟩ := denotes
      obtain ⟨cell, id, loaded, isFunctor, known⟩ := load_of_functorAt there
      exact ⟨functor, functorAt_of_load ((same _ _).mpr loaded) isFunctor known,
        tree⟩
  | functor _ => simp [decoded] at denotes
  | _ => simpa only [decoded] using denotes

/-- What can be read in a store. -/
def contents (store : Store) (address : Address) : Option Word :=
  (store.load address).toOption

theorem load_iff_of_contents {store other : Store}
    (same : other.contents = store.contents) (address : Address)
    (word : Word) :
    other.load address = .ok word ↔ store.load address = .ok word := by
  have here := congrFun same address
  unfold contents at here
  cases first : other.load address <;> cases second : store.load address <;>
    simp_all [Except.toOption]

end Store

instance : Finite Word := by
  refine Finite.of_injective
    (fun word : Word => (⟨word.bits.toNat, word.bits.toNat_lt⟩ : Fin (2 ^ 64)))
    ?_
  intro word other same
  exact Word.eq_of_toNat (congrArg Fin.val same)

instance : Finite Address := by
  refine Finite.of_injective Address.pack ?_
  intro address other same
  rw [← Address.address_pack address, same, Address.address_pack]

/-- Beyond some number of steps a store on which unification is stopped holds a
cyclic term. -/
theorem exists_steps_cyclic (table : FunctorTable) :
    ∃ limit, ∀ steps ≥ limit, ∀ store : Store, store.Endless table steps →
      store.Cyclic table := by
  let Key := (Address → Option Word) × Set Address × Address
  -- Of every kind of store that has finite trees one is picked.
  have picked (key : Key) : ∃ size : Nat, ∀ (store : Store)
      (value : Address → FiniteTree), store.contents = key.1 →
        store.Respects table key.2.1 value →
        ∃ small : Address → FiniteTree, store.Respects table key.2.1 small ∧
          (small key.2.2).size ≤ size := by
    by_cases valued : ∃ (store : Store) (value : Address → FiniteTree),
        store.contents = key.1 ∧ store.Respects table key.2.1 value
    · obtain ⟨store, value, same, respects⟩ := valued
      refine ⟨(value key.2.2).size, ?_⟩
      intro other _ alike _
      refine ⟨value, respects.of_load ?_, Nat.le_refl _⟩
      exact Store.load_iff_of_contents (alike.trans same.symm)
    · refine ⟨0, ?_⟩
      intro store value same respects
      exact absurd ⟨store, value, same, respects⟩ valued
  choose size bounds using picked
  obtain ⟨limit, below⟩ := (Set.finite_range size).bddAbove
  refine ⟨limit + 1, ?_⟩
  rintro steps enough store ⟨cells, address, closed, inside, large⟩
  refine ⟨cells, closed, ?_⟩
  intro value respects
  obtain ⟨small, also, few⟩ :=
    bounds (store.contents, cells, address) store value rfl respects
  dsimp only at also few
  have many := large small also
  have most := below ⟨(store.contents, cells, address), rfl⟩
  omega

end LogicMachine
