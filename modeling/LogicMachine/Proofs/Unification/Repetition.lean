import Mathlib
import LogicMachine.Proofs.Reading.Unfolding
import LogicMachine.Proofs.Unification.Assignment
import LogicMachine.Proofs.Unification.Divergence
import LogicMachine.Proofs.Unification.Symmetry

/-!
# Unifying again changes nothing

After a unification that succeeded every valuation gives the two terms the same
tree, so all pairs that come up when they are unified again are pairs of equal
roots or of nodes that agree.  On finite terms that comes to an end, without any
change of the store.
-/

namespace LogicMachine

namespace Store

variable {table : FunctorTable} {store : Store} {cells : Set Address}

/-! ## Finite terms -/

/-- A cell of a part of the node that another cell shows. -/
def Below (table : FunctorTable) (store : Store) (part address : Address) :
    Prop :=
  ∃ node index, store.At address node ∧ store.Part table node index part

theorem exists_at_of_below {part address : Address}
    (below : Relation.TransGen (store.Below table) part address) :
    ∃ node, store.At address node := by
  cases below with
  | single direct | tail _ direct =>
      obtain ⟨node, _, found, _⟩ := direct
      exact ⟨node, found⟩

/-- What lies below a cell can be reached through a part of its node. -/
theorem reaches_of_below {part address : Address}
    (below : Relation.TransGen (store.Below table) part address)
    {node last : Cell} (shown : store.At address node)
    (partShown : store.At part last) :
    ∃ index first next, store.Part table node index first ∧
      store.At first next ∧ store.Reaches table next last := by
  induction below generalizing node with
  | @single address direct =>
      obtain ⟨other, index, found, isPart⟩ := direct
      cases shown.unique found
      exact ⟨index, part, last, isPart, partShown, .start⟩
  | @tail middle address inner direct ih =>
      obtain ⟨other, index, found, isPart⟩ := direct
      cases shown.unique found
      obtain ⟨middleNode, middleShown⟩ := exists_at_of_below inner
      obtain ⟨_, first, next, isFirst, found, reached⟩ := ih middleShown
      exact ⟨index, middle, middleNode, isPart, middleShown,
        (Reaches.part .start isFirst found).trans reached⟩

/-- On the way down a finite term no cell comes twice. -/
theorem Unfolds.not_below {start address : Address}
    (finite : ∀ node, store.At start node → store.Unfolds table node)
    (inside : Relation.ReflTransGen (store.Below table) address start) :
    ¬ Relation.TransGen (store.Below table) address address := by
  intro circle
  obtain ⟨node, shown⟩ := exists_at_of_below circle
  obtain ⟨index, first, next, isPart, found, back⟩ :=
    reaches_of_below circle shown shown
  rcases Relation.reflTransGen_iff_eq_or_transGen.mp inside with rfl | below
  · exact finite node shown node .start index first next isPart found back
  · obtain ⟨top, topShown⟩ := exists_at_of_below below
    obtain ⟨_, _, _, isFirst, firstFound, reached⟩ :=
      reaches_of_below below topShown shown
    exact finite top topShown node
      ((Reaches.part .start isFirst firstFound).trans reached) index first next
      isPart found back

/-- Induction over a finite term: what holds of a cell if it holds of the cells
of its parts. -/
theorem Unfolds.induction {start : Address}
    (finite : ∀ node, store.At start node → store.Unfolds table node)
    {motive : Address → Prop}
    (step : ∀ address, (∀ part, store.Below table part address → motive part) →
      motive address) : motive start := by
  let under (part address : Address) : Prop :=
    Relation.ReflTransGen (store.Below table) address start ∧
      Relation.TransGen (store.Below table) part address
  have isTrans : IsTrans Address under :=
    ⟨fun _ _ _ first second => ⟨second.1, first.2.trans second.2⟩⟩
  have isIrrefl : Std.Irrefl under :=
    ⟨fun _ circle => Unfolds.not_below finite circle.1 circle.2⟩
  have descends := Finite.wellFounded_of_trans_of_irrefl under
  have holds (address : Address)
      (inside : Relation.ReflTransGen (store.Below table) address start) :
      motive address := by
    induction address using descends.induction with
    | _ address ih =>
        exact step address fun part direct =>
          ih part ⟨inside, .single direct⟩ (.head direct inside)
  exact holds start .refl

/-! ## A store with another trail -/

theorem Leads.withTrail {address root : Address}
    (leads : store.Leads address root) (trail : Trail) :
    ({ store with trail } : Store).Leads address root := by
  induction leads with
  | here isRoot => exact .here isRoot
  | there found refers different _ ih => exact .there found refers different ih

theorem Sound.withTrail (sound : store.Sound table cells) (trail : Trail) :
    ({ store with trail } : Store).Sound table cells where
  formed := sound.formed
  inside := sound.inside
  acyclic := by
    intro address inside
    obtain ⟨root, leads⟩ := sound.acyclic address inside
    exact ⟨root, leads.withTrail trail⟩

end Store

/-! ## Pairs that change nothing -/

/-- Some equations can be worked off in a number of steps, whatever the trail,
and the store stays as it is. -/
def Passes (table : FunctorTable) (store : Store)
    (equations : List Equation) : Prop :=
  ∃ cost, ∀ (trail : Trail) steps rest,
    StoreM.unifyAll table (steps + cost) (equations ++ rest)
        { store with trail } =
      StoreM.unifyAll table steps rest { store with trail }

section Passing

variable {table : FunctorTable} {store : Store} {cells : Set Address}

theorem Passes.nil : Passes table store [] :=
  ⟨0, fun _ _ _ => rfl⟩

theorem Passes.append {first second : List Equation}
    (passes : Passes table store first)
    (alsoPasses : Passes table store second) :
    Passes table store (first ++ second) := by
  obtain ⟨cost, worked⟩ := passes
  obtain ⟨more, workedToo⟩ := alsoPasses
  refine ⟨more + cost, fun trail steps rest => ?_⟩
  rw [List.append_assoc, ← Nat.add_assoc, worked, workedToo]

theorem Passes.of_forall {equations : List Equation}
    (each : ∀ equation ∈ equations, Passes table store [equation]) :
    Passes table store equations := by
  induction equations with
  | nil => exact .nil
  | cons equation rest ih =>
      exact (each equation List.mem_cons_self).append
        (ih fun other member => each other (List.mem_cons_of_mem _ member))

theorem Passes.of_pair {equation : Equation} {arguments : List Equation}
    (worked : ∀ trail : Trail,
      StoreM.unifyPair table equation { store with trail } =
        .ok (some arguments) { store with trail })
    (passes : Passes table store arguments) :
    Passes table store [equation] := by
  obtain ⟨cost, workedOff⟩ := passes
  refine ⟨cost + 1, fun trail steps rest => ?_⟩
  rw [← workedOff trail steps rest]
  simp only [List.singleton_append, ← Nat.add_assoc, StoreM.unifyAll, bind,
    EStateM.bind, worked trail]

/-- The left sides of what is left of two nodes are cells of parts of the
first. -/
theorem part_of_compare {node other : Cell} {arguments : List Equation}
    (compared : Cell.compare table store node other = some arguments)
    {equation : Equation} (member : equation ∈ arguments) :
    ∃ index, store.Part table node index equation.left := by
  rcases Cell.compare_cases compared with ⟨-, rfl⟩ | ⟨pair, _, rfl, -, rfl⟩ |
    ⟨header, _, functor, rfl, -, known, -, rfl⟩
  · simp at member
  · rcases List.mem_cons.mp member with rfl | last
    · exact ⟨0, .head pair⟩
    · cases List.mem_singleton.mp last
      exact ⟨1, .tail pair⟩
  · obtain ⟨index, below, rfl⟩ := List.mem_map.mp member
    exact ⟨index, .argument known (List.mem_range.mp below)⟩

/-- A pair changes nothing if its left side is a finite term and no valuation
tells its sides apart. -/
theorem Store.Coincide.passes (terms : store.TermCells table cells)
    {left : Address}
    (finite : ∀ node, store.At left node → store.Unfolds table node)
    (leftInside : left ∈ cells) {right : Address} (rightInside : right ∈ cells)
    (equated : store.Coincide table cells left right) :
    Passes table store [⟨left, right⟩] := by
  have sound := terms.toSound
  refine Store.Unfolds.induction finite (motive := fun left => left ∈ cells →
    ∀ right ∈ cells, store.Coincide table cells left right →
      Passes table store [⟨left, right⟩]) ?_ leftInside right rightInside equated
  intro left ih leftInside right rightInside equated
  obtain ⟨root, leads⟩ := sound.acyclic left leftInside
  obtain ⟨other, otherLeads⟩ := sound.acyclic right rightInside
  by_cases same : root = other
  · subst same
    exact .of_pair (fun trail => unifyPair_same (leads.withTrail trail)
      (otherLeads.withTrail trail)) .nil
  obtain ⟨word, found, ends⟩ := leads.root
  obtain ⟨otherWord, otherFound, otherEnds⟩ := otherLeads.root
  have isRoot : store.RootAt cells root word :=
    ⟨leads.mem sound.references leftInside, found, ends⟩
  have otherRoot : store.RootAt cells other otherWord :=
    ⟨otherLeads.mem sound.references rightInside, otherFound, otherEnds⟩
  have rootsEqual := equated.of_leads sound leftInside rightInside leads
    otherLeads
  have bound := rootsEqual.bound terms isRoot otherRoot same
  have otherBound := rootsEqual.symm.bound terms otherRoot isRoot (Ne.symm same)
  -- Every valuation shows that the nodes agree, and equates their parts.
  have alike (value : Address → Tree)
      (respects : store.Respects table cells value) :=
    compare_eq_some (respects root isRoot.inside word found)
      (rootsEqual value respects ▸
        respects other otherRoot.inside otherWord otherFound) bound otherBound
  obtain ⟨arguments, compared, -⟩ :=
    alike _ (terms.unfolding_respects fun _ => 0)
  have shown : store.At left word.cell := ⟨root, word, leads, found, rfl⟩
  have formed := sound.sound_of_at leftInside shown
  have otherFormed := sound.sound_of_at rightInside
    ⟨other, otherWord, otherLeads, otherFound, rfl⟩
  have worked (trail : Trail) :
      StoreM.unifyPair table ⟨left, right⟩ { store with trail } =
        .ok (some arguments) { store with trail } := by
    rw [← compared]
    exact unifyPair_values (sound.withTrail trail) (leads.withTrail trail)
      (otherLeads.withTrail trail) same found otherFound formed otherFormed
      bound otherBound
  refine .of_pair worked (.of_forall fun equation member => ?_)
  obtain ⟨argumentInside, otherInside⟩ :=
    Store.compare_sides formed otherFormed compared equation member
  obtain ⟨index, isPart⟩ := part_of_compare compared member
  refine ih equation.left ⟨word.cell, index, shown, isPart⟩ argumentInside
    equation.right otherInside fun value respects => ?_
  obtain ⟨_, comparedAgain, holds⟩ := alike value respects
  cases compared.symm.trans comparedAgain
  exact holds equation member

end Passing

/-- A unification that succeeded and left finite terms succeeds again, from
either side, and leaves the store as it is.  It does so under any trail, so it
stores nothing that a trail might have recorded. -/
theorem StoreM.unify_again {table : FunctorTable} {store : Store}
    {cells : Set Address} (terms : store.TermCells table cells)
    (small : store.retained.size < 2 ^ 31) {left right : Address}
    (leftInside : left ∈ cells) (rightInside : right ∈ cells) {steps : Nat}
    {after : Store}
    (succeeded : unify table steps left right store = .ok true after)
    (finite : ∀ node, after.At left node → after.Unfolds table node) :
    ∃ enough, ∀ more ≥ enough, ∀ trail : Trail,
      unify table more left right { after with trail } =
          .ok true { after with trail } ∧
        unify table more right left { after with trail } =
          .ok true { after with trail } := by
  have sides {cells : Set Address} (leftInside : left ∈ cells)
      (rightInside : right ∈ cells) : ∀ equation ∈ [Equation.mk left right],
      equation.left ∈ cells ∧ equation.right ∈ cells := by
    intro equation member
    cases List.mem_singleton.mp member
    exact ⟨leftInside, rightInside⟩
  have settled := unifyAll_settles steps terms.toSound small
    (sides leftInside rightInside)
  unfold unify at succeeded
  rw [succeeded] at settled
  obtain ⟨larger, developed, -, holds⟩ := settled rfl
  have equated : after.Coincide table larger left right :=
    fun value respects => holds terms value respects nofun ⟨left, right⟩
      List.mem_cons_self
  have leftLater := developed.more leftInside
  have rightLater := developed.more rightInside
  obtain ⟨cost, passes⟩ :=
    equated.passes (developed.terms terms) finite leftLater rightLater
  refine ⟨cost, fun more enough trail => ?_⟩
  have succeeds : unify table more left right { after with trail } =
      .ok true { after with trail } := by
    have passed := passes trail (more - cost) []
    rw [Nat.sub_add_cancel enough] at passed
    refine Eq.trans passed ?_
    cases more - cost <;> rfl
  exact ⟨succeeds, (unifyAll_swap more (developed.sound.withTrail trail)
    (developed.room small) (sides leftLater rightLater)).trans succeeds⟩

/-- The partial list after it was unified with a retained variable: the list was
copied, and its end is bound to that of the copy. -/
def unifiedList : Store :=
  { partialList with
    heap := #[Word.list (.heap 1), Word.constant ⟨0⟩,
      Word.reference (.retained 2)]
    retained := #[Word.list (.retained 1), Word.constant ⟨0⟩,
      Word.reference (.retained 2), .zero]
    retainedTop := 3 }

theorem unifiedList_finite {node : Cell}
    (shown : unifiedList.At (.retained 0) node) :
    unifiedList.Unfolds .empty node := by
  have first : unifiedList.load (.retained 0) =
      .ok (.list (.retained 1)) := rfl
  have second : unifiedList.load (.retained 1) = .ok (.constant ⟨0⟩) := rfl
  have third : unifiedList.load (.retained 2) =
      .ok (.reference (.retained 2)) := rfl
  cases shown.unique (.of_load first (by simp))
  rw [Word.cell_list]
  -- The list pair ranks above its head and its tail, which have no parts.
  refine @Store.Unfolds.of_rank _ _ _
    (fun node => if node = .list (.retained 1) then 1 else 0)
    (fun node => node = .list (.retained 1) ∨ node = .constant ⟨0⟩ ∨
      node = .reference (.retained 2)) (.inl rfl) ?_
  rintro _ index address next (rfl | rfl | rfl) isPart found
  · cases isPart with
    | head =>
        cases found.unique (.of_load second (by simp))
        simp
    | tail =>
        cases found.unique (.of_load third
          (by simp [Address.plus, Address.shift?]))
        simp
  · cases isPart
  · cases isPart

theorem StoreM.unify_again_partialList :
    partialList.TermCells .empty partialListCells ∧
      unify .empty 1 (.retained 0) (.heap 0) partialList =
        .ok true unifiedList ∧
      (∀ node, unifiedList.At (.retained 0) node →
        unifiedList.Unfolds .empty node) ∧
      ∃ enough, ∀ more ≥ enough, ∀ trail : Trail,
        unify .empty more (.retained 0) (.heap 0) { unifiedList with trail } =
            .ok true { unifiedList with trail } ∧
          unify .empty more (.heap 0) (.retained 0) { unifiedList with trail } =
            .ok true { unifiedList with trail } := by
  have terms := partialList_wellFormed.termCells
  have succeeded : unify .empty 1 (.retained 0) (.heap 0) partialList =
      .ok true unifiedList := by cbv
  exact ⟨terms, succeeded, fun _ => unifiedList_finite,
    unify_again terms (by decide) (by simp [partialListCells])
      (by simp [partialListCells]) succeeded fun _ => unifiedList_finite⟩

end LogicMachine
