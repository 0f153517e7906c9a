import LogicMachine.Proofs.Matching.Subject

/-!
# Matching a constant

If the subject is a variable that is not bound, it is bound to the constant by
a plain store.  Otherwise its word is compared with that of the constant, which
has one written form.
-/

namespace LogicMachine

namespace Store

section Bound

variable {table : FunctorTable} {memory : Store} {cells : Set Address}
  {root : Address} {old : Word}

theorem allocated_put (memory : Store) (address : Address) (word : Word) :
    (memory.put address word).allocated = memory.allocated := by
  ext other
  cases other <;> simp [allocated]

theorem isTerm_constant (table : FunctorTable) (memory : Store)
    (cells : Set Address) (id : FunctorId) :
    (Word.constant id).IsTerm table memory cells := by
  refine ⟨by simp [Word.Formed], ?_⟩
  intro other decoded
  rw [Word.cell_constant] at decoded
  cases decoded
  rfl

/-- Binding a variable to a constant leaves all other cells alone. -/
theorem Terms.evolves_constant (terms : memory.Terms table cells)
    (inside : root ∈ cells) (found : memory.load root = .ok old)
    (free : old.cell = .reference root) (id : FunctorId) :
    Evolves table cells memory cells (memory.put root (.constant id)) := by
  have allocated := allocated_put memory root (.constant id)
  generalize isAfter : memory.put root (.constant id) = after at allocated ⊢
  have written : after.load root = .ok (.constant id) := by
    rw [← isAfter]
    exact load_put_self found _
  have same {address : Address} (different : address ≠ root) :
      after.load address = memory.load address := by
    rw [← isAfter]
    exact load_put_of_ne found _ different
  have agrees : table.Agrees memory.allocated memory after := by
    apply FunctorTable.Agrees.of_ne
    intro header _
    by_cases equal : header = root
    · rw [equal]
      exact .inr ⟨root, old, found, free⟩
    · exact .inl (same equal)
  have isTerm {address : Address} (member : address ∈ cells) :
      ∃ word, after.load address = .ok word ∧
        word.IsTerm table after cells := by
    by_cases equal : address = root
    · rw [equal]
      exact ⟨_, written, isTerm_constant table after cells id⟩
    · obtain ⟨word, loaded, known⟩ := terms.isTerm member
      refine ⟨word, (same equal).trans loaded, ?_, known.sound⟩
      exact known.formed.imp ⟨subset_rfl, allocated.ge, subset_rfl⟩ agrees
  obtain ⟨region, index, rfl⟩ := terms.segments root inside
  constructor
  case more => exact subset_rfl
  case agrees => exact agrees
  case top_le =>
    intro other
    rw [← isAfter, top_put]
    exact Int32.le_refl _
  case pointer => rw [← isAfter, put_pointer]
  case capacity =>
    intro other
    rw [← isAfter, capacity_put]
  case fresh => exact fun _ => .inl
  case kept =>
    intro address _ outside
    apply same
    rintro rfl
    exact outside inside
  case terms =>
    refine ⟨⟨⟨?_, ?_, ?_⟩, ?_⟩, ?_, ?_, terms.segments, ?_⟩
    · intro address member
      obtain ⟨word, loaded, known⟩ := isTerm member
      exact ⟨word, loaded, known.formed⟩
    · rw [allocated]
      exact terms.inside
    · intro address member isRetained word loaded
      by_cases equal : address = region.address index
      · rw [equal, written] at loaded
        cases loaded
        simp [Word.PointsInto]
      · rw [same equal] at loaded
        exact terms.retained address member isRetained word loaded
    · intro address member
      obtain ⟨end', leads⟩ := terms.acyclic address member
      refine leads.transfer terms.references ?_ member
      intro other _
      by_cases equal : other = region.address index
      · rw [equal]
        exact .inr ⟨_, .here ⟨_, written, by simp⟩⟩
      · exact .inl (same equal)
    · rw [← isAfter, memory_put, terms.bare]
    · intro address member word loaded
      obtain ⟨other, here, known⟩ := isTerm member
      rw [loaded] at here
      cases here
      exact known.sound
    · intro address inUse word other loaded decoded
      rw [allocated] at inUse
      by_cases equal : address = region.address index
      · rw [equal, written] at loaded
        cases loaded
        simp at decoded
      · rw [same equal] at loaded
        exact terms.canonical address inUse word other loaded decoded

theorem Terms.equates_constant (terms : memory.Terms table cells)
    (inside : root ∈ cells) (found : memory.load root = .ok old)
    (free : old.cell = .reference root) (id : FunctorId) :
    memory.Equates table cells old (.constant id) cells
      (memory.put root (.constant id)) := by
  have evolves := terms.evolves_constant inside found free id
  have written : (memory.put root (.constant id)).load root =
      .ok (.constant id) := load_put_self found _
  have same {address : Address} (different : address ≠ root) :
      (memory.put root (.constant id)).load address = memory.load address :=
    load_put_of_ne found _ different
  have denotes {T : Type} [TreeAlgebra T] {value : Address → T} {tree : T}
      {store : Store} : (Word.constant id).Denotes table store value tree ↔
        tree = TreeAlgebra.node (.constant id) Fin.elim0 := by
    simp only [Word.Denotes, Word.cell_constant]
  have refers {T : Type} [TreeAlgebra T] {value : Address → T} {tree : T} :
      old.Denotes table memory value tree ↔ tree = value root := by
    simp only [Word.Denotes, free]
  refine ⟨evolves, fun address inUse => .inl ?_, ?_, ?_⟩
  · rwa [Store.allocated_put] at inUse
  · intro T _ value respects
    have atRoot := denotes.mp (respects root inside _ written)
    refine ⟨?_, _, refers.mpr rfl, denotes.mpr atRoot⟩
    intro address member word loaded
    by_cases equal : address = root
    · rw [equal] at loaded ⊢
      rw [found] at loaded
      cases loaded
      exact refers.mpr rfl
    · obtain ⟨other, here, known⟩ := terms.isTerm member
      rw [loaded] at here
      cases here
      exact (evolves.denotes known fun _ _ => rfl).mp
        (respects address member word ((same equal).trans loaded))
  · rintro T _ known respects ⟨tree, first, second⟩
    rw [refers.mp first, denotes] at second
    refine ⟨known, ?_, fun _ _ => rfl⟩
    intro address member word loaded
    by_cases equal : address = root
    · rw [equal, written] at loaded
      cases loaded
      rw [equal]
      exact denotes.mpr second
    · rw [same equal] at loaded
      obtain ⟨other, here, isTerm⟩ := terms.isTerm member
      rw [loaded] at here
      cases here
      exact (evolves.denotes isTerm fun _ _ => rfl).mpr
        (respects address member word loaded)

end Bound

end Store

/-- A word that is neither a variable nor the constant has another tree. -/
theorem Word.IsTerm.ne_constant {T : Type} [TreeAlgebra T]
    {table : FunctorTable} {memory : Store} {cells : Set Address} {word : Word}
    (isTerm : word.IsTerm table memory cells)
    (bound : ∀ next, word.cell ≠ .reference next) {id : FunctorId}
    (different : word ≠ .constant id) {value : Address → T} {tree : T}
    (denotes : word.Denotes table memory value tree) :
    tree ≠ TreeAlgebra.node (.constant id) Fin.elim0 := by
  intro same
  obtain ⟨symbol, children, made, heads⟩ := denotes.heads bound
  rw [same] at made
  cases TreeAlgebra.symbol_eq made
  unfold Word.Heads at heads
  split at heads
  case h_1 decoded isConstant =>
    cases isConstant
    rw [← heads] at different
    exact different (isTerm.sound _ decoded)
  case h_5 => exact heads
  all_goals contradiction

namespace View.Rooted

variable {table : FunctorTable} {view : View} {cells : Set Address}
  {root : Address} {content : Word}

/-- A variable that is not bound is a cell. -/
theorem found (rooted : view.Rooted table cells root content)
    (terms : view.memory.Terms table cells) (inside : root ∈ cells) :
    view.memory.load root = .ok content := by
  rcases rooted.loads with ⟨-, found⟩ | ⟨index, rfl, -⟩
  · exact found
  · obtain ⟨region, place, same⟩ := terms.segments _ inside
    cases region <;> cases same

theorem isFree (rooted : view.Rooted table cells root content)
    (isReference : content.tag = .reference) :
    content.cell = .reference root ∧ root ∈ cells := by
  have decoded := Word.tag_eq_reference_iff.mp isReference
  obtain ⟨same, inside⟩ := rooted.free _ decoded
  rw [same] at decoded
  exact ⟨decoded, inside⟩

theorem isBound (notReference : content.tag ≠ .reference) (next : Address) :
    content.cell ≠ .reference next :=
  fun decoded => notReference (Word.tag_of_cell decoded)

end View.Rooted

namespace Scene

variable {scene : Scene} {view : View} {cells : Set Address}
  {kept : List Keep} {waiting : List Demand} {position : Nat}
  {source : Source} {address : Address} {word : Word}

/-- The label at the end of a text. -/
theorem place_last {items : List Item} {label : Label}
    (holds : scene.Holds position items)
    (last : items.getLast? = some (.mark label)) :
    scene.place label = position + textSize items := by
  rw [← List.dropLast_append_getLast? _ last] at holds ⊢
  have marked := (holds_mark (holds_append.mp holds).2).1
  rw [marked, textSize_append]
  rfl

/-- The demand in front holds in every valuation. -/
theorem Ready.met {demand : Demand}
    (ready : scene.Ready view cells kept (demand :: waiting))
    (spares : ∀ address, ¬ demand.wish.Spares address)
    (always : ∀ (T : Type) [TreeAlgebra T] (value : Address → T)
      (bound : String → T), view.memory.Respects scene.table cells value →
      demand.Met scene.table scene.naming view.memory value bound) :
    scene.Ready view cells kept waiting := by
  apply ready.rephrased
  · exact fun other member =>
      ready.awaited other (List.mem_cons_of_mem _ member)
  · intro other member address spared
    rcases List.mem_cons.mp member with rfl | waits
    · exact absurd spared (spares address)
    · exact ⟨other, waits, spared⟩
  · intro T _ value bound respects
    rw [List.forall_mem_cons, and_iff_right (always T value bound respects)]

/-- The code that matches a constant. -/
theorem matchConstant {subject : Local} {id : FunctorId} {read done : Label}
    {term : Term} {functor : Functor}
    (holds : scene.Holds position
      (Pattern.matchConstant source subject id read done))
    (ready : scene.Ready view cells kept (⟨word, .takes term⟩ :: waiting))
    (finds : source.Finds scene.table view cells address word)
    (decided : Shape.of term = .ok (.constant functor))
    (known : scene.naming.number? functor = some id)
    (inside : subject.index < scene.count)
    (free : ∀ keep ∈ kept, keep.place ≠ subject.index)
    (different : ∀ slot, source = .slot slot → slot.index ≠ subject.index)
    (next : ∀ root memory,
      scene.Ready
        (View.setLocal { view with memory } subject.index (.address root))
        cells kept waiting →
      scene.Ensures
        (position + textSize
          (Pattern.matchConstant source subject id read done))
        (View.setLocal { view with memory } subject.index
          (.address root))) :
    scene.Ensures position view := by
  rw [← place_last holds rfl] at next
  have split : Pattern.matchConstant source subject id read done =
      Pattern.takeSubject source subject ++
        (Pattern.compareTag subject .reference ++
          .branch .branchNotEqual read ::
            ((Item.onLocal .loadLocal subject ::
                (Item.constant id ++ [.plain .store])) ++
              .branch .branchAlways done :: .mark read ::
                ((Item.onLocal .loadLocal subject :: .plain .load ::
                    Item.constant id) ++
                  [.branch .branchEqual done, .plain .fail, .mark done]))) :=
    rfl
  rw [split, holds_append] at holds
  obtain ⟨taking, testing⟩ := holds
  have branches := holds_branch (holds_append.mp testing).2
  obtain ⟨writing, leaving⟩ := holds_append.mp branches
  obtain ⟨reads, comparing⟩ := holds_mark (holds_branch leaving)
  obtain ⟨loading, deciding⟩ := holds_append.mp comparing
  have means {T : Type} [TreeAlgebra T] {bound : String → T} {tree : T} :=
    @Term.takes_constant T _ scene.naming bound tree term functor id decided
      known
  apply takeSubject taking ready finds inside free different
  intro root content later rooted
  have there : (view.setLocal subject.index (.address root)).locals[
      subject.index]? = some (.address root) := by
    apply View.locals_setLocal_self
    rw [ready.length]
    exact inside
  apply testTag testing inside there rooted.loads
  · intro isReference
    obtain ⟨decoded, member⟩ := rooted.isFree isReference
    have found := rooted.found ready.terms member
    have equates := ready.terms.equates_constant member found decoded id
    have inUse := ready.terms.inside member
    have nonnegative := (Store.isCell_of_load found).2
    obtain ⟨region, index, rfl⟩ := ready.terms.segments root member
    apply scene.straight writing
    apply View.after_loadLocal (small inside) there
    refine ⟨id, rfl, .inl ⟨region, index, rfl, ?_, ?_, ?_, ?_⟩⟩
    · rwa [Region.offset_address] at nonnegative
    · rwa [Store.allocated_below] at inUse
    · intro place same
      rw [same] at inUse
      refine ⟨Store.retained_mem_allocated.mp inUse, ?_, id, rfl⟩
      exact ⟨content, found, decoded⟩
    · apply jump leaving
      apply next
      apply later.equated equates (fun _ => False.elim)
      intro T _ value bound _ _
      unfold Demand.Met
      simp only [Wish.Allows, means, Word.Denotes, Word.cell_constant]
  · intro notReference
    have bound := View.Rooted.isBound notReference
    rw [reads]
    apply scene.straight loading
    apply View.after_loadLocal (small inside) there
    refine View.after_load rfl rooted.loads ?_
    refine ⟨id, rfl, ?_⟩
    apply branch true deciding rfl
    · intro equal
      have same : Word.constant id = content := by
        simpa only [Operand.toWord, beq_iff_eq] using equal
      apply next root view.memory
      apply later.met (fun _ => False.elim)
      intro T _ value bound respects
      rw [← same]
      exact ⟨_, by simp only [Word.Denotes, Word.cell_constant], means.mpr rfl⟩
    · intro differs
      apply giveUp (holds_branch deciding)
      apply later.unsolvable
      rintro T _ value names respects - ⟨tree, denotes, takes⟩
      refine rooted.isTerm.ne_constant bound ?_ denotes (means.mp takes)
      rintro rfl
      simp only [Operand.toWord, beq_self_eq_true, ne_eq, not_true] at differs

end Scene

end LogicMachine
