import LogicMachine.Proofs.Unification.Solution
import LogicMachine.Proofs.Unification.Developing

/-!
# Variables may stand for anything

The unbound variables of a store can be given any opaque values; the trees of
all other cells follow from that, whether they are finite or not.  So two cells
that have the same tree under every valuation lead to the same variable, or to
nodes that agree and whose parts have the same trees again.
-/

namespace LogicMachine

/-- The tree of an opaque payload. -/
def Tree.other (payload : UInt64) : Tree :=
  TreeAlgebra.node (.other payload) Fin.elim0

namespace Store

/-- The symbol of a cell and the cells of its parts.  Unbound variables get
opaque values. -/
def spread (table : FunctorTable) (store : Store) (payload : Address → UInt64)
    (address : Address) : (symbol : Symbol) × (Fin symbol.arity → Address) :=
  match store.deref address with
  | .error _ => ⟨.other 0, Fin.elim0⟩
  | .ok root =>
      match store.load root with
      | .error _ => ⟨.other 0, Fin.elim0⟩
      | .ok word =>
          match word.cell with
          | .reference _ => ⟨.other (payload root), Fin.elim0⟩
          | .constant id => ⟨.constant id, Fin.elim0⟩
          | .other found => ⟨.other found, Fin.elim0⟩
          | .list pair => ⟨.list, fun index => pair.plus index⟩
          | .compound header =>
              match table.functorAt store header with
              | .ok functor =>
                  ⟨.compound functor, fun index => header.plus (index + 1)⟩
              | .error _ => ⟨.other 0, Fin.elim0⟩
          | .functor _ => ⟨.other 0, Fin.elim0⟩

/-- The tree that a cell unfolds to. -/
def unfolding (table : FunctorTable) (store : Store)
    (payload : Address → UInt64) : Address → Tree :=
  @PFunctor.M.corec ⟨Symbol, fun symbol => Fin symbol.arity⟩ Address
    (store.spread table payload)

variable {table : FunctorTable} {store : Store} {cells : Set Address}
  {payload : Address → UInt64} {address : Address}

theorem unfolding_eq {symbol : Symbol} {parts : Fin symbol.arity → Address}
    (shape : store.spread table payload address = ⟨symbol, parts⟩) :
    store.unfolding table payload address =
      TreeAlgebra.node symbol fun index =>
        store.unfolding table payload (parts index) := by
  have opened := @PFunctor.M.corec_def
    ⟨Symbol, fun symbol => Fin symbol.arity⟩ Address
    (store.spread table payload) address
  rw [shape] at opened
  exact opened

/-- A cell without parts unfolds to its symbol. -/
theorem unfolding_leaf {symbol : Symbol}
    (shape : (store.spread table payload address).1 = symbol)
    (noParts : symbol.arity = 0) (children : Fin symbol.arity → Tree) :
    store.unfolding table payload address =
      TreeAlgebra.node symbol children := by
  subst shape
  rw [unfolding_eq rfl]
  congr 1
  funext index
  exact (Fin.cast noParts index).elim0

/-- Cells of one chain unfold to one tree. -/
theorem Leads.unfolding_eq {root : Address} (leads : store.Leads address root) :
    store.unfolding table payload address =
      store.unfolding table payload root := by
  have same : store.spread table payload address =
      store.spread table payload root := by
    unfold spread
    rw [leads.deref_eq, (Leads.here leads.root).deref_eq]
  rw [Store.unfolding_eq (same.trans rfl), Store.unfolding_eq rfl]

/-- The unfoldings respect the store, and an unbound variable is what it was
chosen to be. -/
theorem TermCells.unfolding_respects (terms : store.TermCells table cells)
    (payload : Address → UInt64) :
    store.Respects table cells (store.unfolding table payload) := by
  intro address inside word found
  have formed := terms.word_formed inside found
  -- A cell that is no reference is its own root.
  have shape (noReference : ∀ next, word.cell ≠ .reference next) :
      store.deref address = .ok address :=
    (Leads.here ⟨word, found, fun next refers =>
      absurd refers (noReference next)⟩).deref_eq
  unfold Word.Denotes
  cases decoded : word.cell with
  | reference target =>
      by_cases self : target = address
      · rw [self]
      · have targetInside : target ∈ cells := by
          simpa only [Word.Formed, decoded] using formed
        obtain ⟨root, leads⟩ := terms.acyclic target targetInside
        exact (Leads.there found decoded self leads).unfolding_eq.trans
          leads.unfolding_eq.symm
  | compound header =>
      simp only [Word.Formed, decoded] at formed
      obtain ⟨-, functor, known, -⟩ := formed
      refine ⟨functor, known, unfolding_eq ?_⟩
      simp only [spread, shape (by simp [decoded]), found, decoded, known]
  | list pair =>
      refine unfolding_eq ?_
      simp only [spread, shape (by simp [decoded]), found, decoded]
  | functor id => simp [Word.Formed, decoded] at formed
  | constant id =>
      refine unfolding_leaf ?_ rfl _
      simp only [spread, shape (by simp [decoded]), found, decoded]
  | other found' =>
      refine unfolding_leaf ?_ rfl _
      simp only [spread, shape (by simp [decoded]), found, decoded]

theorem Unbound.unfolding_eq (unbound : store.Unbound address) :
    store.unfolding table payload address =
      Tree.other (payload address) := by
  have ending := (Leads.here unbound.isRoot).deref_eq
  obtain ⟨word, found, refers⟩ := unbound
  refine unfolding_leaf ?_ rfl _
  simp only [spread, ending, found, refers]

/-- Two cells that no valuation tells apart. -/
def Coincide (table : FunctorTable) (store : Store) (cells : Set Address)
    (left right : Address) : Prop :=
  ∀ value : Address → Tree, store.Respects table cells value →
    value left = value right

variable {left right : Address}

theorem Coincide.symm (equated : store.Coincide table cells left right) :
    store.Coincide table cells right left :=
  fun value respects => (equated value respects).symm

theorem Coincide.of_leads (equated : store.Coincide table cells left right)
    (sound : store.Sound table cells) (leftInside : left ∈ cells)
    (rightInside : right ∈ cells) {root other : Address}
    (leads : store.Leads left root) (otherLeads : store.Leads right other) :
    store.Coincide table cells root other := by
  intro value respects
  rw [← respects.leads sound.references leftInside leads,
    ← respects.leads sound.references rightInside otherLeads]
  exact equated value respects

/-- A variable differs from every other root under some valuation. -/
theorem Coincide.bound (equated : store.Coincide table cells left right)
    (terms : store.TermCells table cells) {leftWord rightWord : Word}
    (leftRoot : store.RootAt cells left leftWord)
    (rightRoot : store.RootAt cells right rightWord)
    (different : left ≠ right) : ¬ leftWord.cell.IsVariable := by
  rintro ⟨next, refers⟩
  cases leftRoot.ends next refers
  have leftFree : store.Unbound left := ⟨leftWord, leftRoot.found, refers⟩
  -- The variable at hand may be anything while all others are zero.
  have equal (chosen : UInt64) :
      store.unfolding table (fun address =>
          if address = left then chosen else 0) right =
        Tree.other chosen := by
    have same := equated _ (terms.unfolding_respects
      fun address => if address = left then chosen else 0)
    rw [← same, leftFree.unfolding_eq, if_pos rfl]
  by_cases rightFree : rightWord.cell.IsVariable
  · obtain ⟨other, rightRefers⟩ := rightFree
    cases rightRoot.ends other rightRefers
    have unbound : store.Unbound right :=
      ⟨rightWord, rightRoot.found, rightRefers⟩
    have one := equal 1
    rw [unbound.unfolding_eq, if_neg (Ne.symm different)] at one
    exact absurd (TreeAlgebra.symbol_eq one) (by simp)
  · have heads (chosen : UInt64) : rightWord.Heads (.other chosen) := by
      obtain ⟨symbol, children, tree, heads⟩ :=
        (terms.unfolding_respects _ right rightRoot.inside rightWord
          rightRoot.found).heads fun next refers => rightFree ⟨next, refers⟩
      rw [← TreeAlgebra.symbol_eq (tree.symm.trans (equal chosen))]
      exact heads
    have zero := heads 0
    have one := heads 1
    unfold Word.Heads at zero one
    cases decoded : rightWord.cell <;> simp_all

end Store

end LogicMachine
