import LogicMachine.Proofs.Matching.Writing

/-!
# Binding a variable to a compound of the head

The slots of the compound are written one after another.  When all arguments are
there, the cell with the word of the compound is taken in among the cells of
terms, and the variable is bound to it.
-/

namespace LogicMachine

/-- The code in front of the arguments that are written. -/
def Pattern.openCompound (cursor : Local) (functor : Option FunctorId) :
    List Item :=
  [Item.top, .plain .duplicate, .plain .increment,
      .plain (if functor.isSome then .tagCompound else .tagList),
      .plain .store, Item.top, Item.onLocal .storeLocal cursor] ++
    (match functor with
      | some functor => Item.claimHeader functor
      | none => Item.claimCell)

/-- A cell of its own, with a word that points at cells of terms, may be taken in
among these. -/
theorem Store.Terms.adopt {table : FunctorTable} {memory : Store}
    {cells : Set Address} (terms : memory.Terms table cells) {index : Int32}
    {word : Word} (inUse : .heap index ∈ memory.allocated)
    (found : memory.load (.heap index) = .ok word)
    (bound : ∀ next, word.cell ≠ .reference next)
    (isTerm : word.IsTerm table memory (insert (.heap index) cells)) :
    memory.Terms table (insert (.heap index) cells) := by
  have more : cells ⊆ insert (.heap index) cells := Set.subset_insert _ _
  have each {address : Address} (inside : address ∈ insert (.heap index) cells) :
      ∃ content, memory.load address = .ok content ∧
        content.IsTerm table memory (insert (.heap index) cells) := by
    rcases Set.mem_insert_iff.mp inside with rfl | old
    · exact ⟨word, found, isTerm⟩
    · obtain ⟨content, loaded, known⟩ := terms.isTerm old
      exact ⟨content, loaded,
        known.formed.imp ⟨more, subset_rfl, more⟩ (fun _ _ _ => id),
        known.sound⟩
  refine ⟨⟨⟨?_, ?_, ?_⟩, ?_⟩, terms.bare, ?_, ?_, terms.canonical⟩
  · intro address inside
    obtain ⟨content, loaded, known⟩ := each inside
    exact ⟨content, loaded, known.formed⟩
  · rintro address (rfl | old)
    · exact inUse
    · exact terms.inside old
  · rintro address (rfl | old) isRetained content loaded
    · cases isRetained
    · exact terms.retained address old isRetained content loaded
  · rintro address (rfl | old)
    · exact ⟨_, .here ⟨word, found, fun next refers =>
        absurd refers (bound next)⟩⟩
    · exact terms.acyclic address old
  · intro address inside content loaded
    obtain ⟨other, here, known⟩ := each inside
    rw [loaded] at here
    cases here
    exact known.sound
  · rintro address (rfl | old)
    · exact ⟨.heap, index, rfl⟩
    · exact terms.segments address old

/-- What is known while a compound is being built: the variable that will be
bound to it, the cell with its word, and the cells of its arguments so far. -/
structure Scene.Builds (scene : Scene) (view : View) (cells : Set Address)
    (subject cursor : Local) (root : Address) (pointer : Int32)
    (content own : Word) (symbol : Symbol) (base : Address) (count : Nat) :
    Prop where
  subject : view.locals[subject.index]? = some (.address root)
  cursor : view.locals[cursor.index]? = some (.address (.heap pointer))
  isRoot : view.memory.RootAt cells root content
  free : content.cell = .reference root
  claimed : .heap pointer ∈ view.memory.allocated
  apart : .heap pointer ∉ cells
  found : view.memory.load (.heap pointer) = .ok own
  spans : own.Spans scene.table view.memory symbol base
  sound : own.Sound
  spared : base = symbol.argumentsAt pointer
  filled : ∀ index < count, base.plus index ∈ cells
  next : base.plus count = .heap view.memory.heapTop

namespace Scene

variable {scene : Scene} {view : View} {cells : Set Address}
  {kept : List Keep} {waiting : List Demand} {content own word : Word}
  {symbol : Symbol} {base root : Address} {pointer : Int32} {count : Nat}
  {term : Term} {rest : List Term} {subject cursor : Local} {position : Nat}

namespace Builds

theorem setLocal
    (builds : scene.Builds view cells subject cursor root pointer content own
      symbol base count) {place : Nat} (operand : Operand)
    (notSubject : place ≠ subject.index) (notCursor : place ≠ cursor.index) :
    scene.Builds (view.setLocal place operand) cells subject cursor root pointer
      content own symbol base count where
  subject := by
    rw [View.locals_setLocal_of_ne notSubject.symm]
    exact builds.subject
  cursor := by
    rw [View.locals_setLocal_of_ne notCursor.symm]
    exact builds.cursor
  isRoot := builds.isRoot
  free := builds.free
  claimed := builds.claimed
  apart := builds.apart
  found := builds.found
  spans := builds.spans
  sound := builds.sound
  spared := builds.spared
  filled := builds.filled
  next := builds.next

/-- One more argument is there. -/
theorem grown
    (builds : scene.Builds view cells subject cursor root pointer content own
      symbol base count)
    (terms : view.memory.Terms scene.table cells)
    (growable : view.memory.Growable) (word : Word) :
    scene.Builds (view.withMemory (view.memory.grown word))
      (insert (.heap view.memory.heapTop) cells) subject cursor root pointer
      content own symbol base (count + 1) where
  subject := builds.subject
  cursor := builds.cursor
  isRoot := by
    have isRoot := builds.isRoot
    refine ⟨.inr isRoot.inside, ?_, isRoot.ends⟩
    exact (Store.load_grown_of_allocated growable
      (terms.inside isRoot.inside)).trans isRoot.found
  free := builds.free
  claimed := (growable.preserves word).allocated builds.claimed
  apart := by
    rintro (same | old)
    · have claimed := builds.claimed
      rw [same] at claimed
      exact Store.top_notMem_allocated _ claimed
    · exact builds.apart old
  found := (Store.load_grown_of_allocated growable builds.claimed).trans
    builds.found
  spans := builds.spans.later (growable.preserves word).allocated
    (Store.agrees_grown growable)
  sound := builds.sound
  spared := builds.spared
  filled := by
    intro index below
    rcases Nat.lt_succ_iff_lt_or_eq.mp below with old | rfl
    · exact .inr (builds.filled index old)
    · exact .inl builds.next
  next := by
    rw [← Address.plus_plus, builds.next]
    rfl

end Builds

/-- Cells that belong to no term make no difference. -/
theorem Ready.evolved {after : Store}
    (ready : scene.Ready view cells kept waiting)
    (evolves : Store.Evolves scene.table cells view.memory cells after)
    (same : ∀ address ∈ cells,
      after.load address = view.memory.load address)
    (covered : ∀ address ∈ after.allocated, address ∈ view.memory.allocated ∨
      after.IsHeader address ∨
        ∃ demand ∈ waiting, demand.wish.Spares address) :
    scene.Ready (view.withMemory after) cells kept waiting := by
  have respects {T : Type} [TreeAlgebra T] {value : Address → T} :
      after.Respects scene.table cells value ↔
        view.memory.Respects scene.table cells value :=
    evolves.respects_iff ready.terms same
  have met {T : Type} [TreeAlgebra T] {value : Address → T}
      {bound : String → T} {demand : Demand}
      (member : demand ∈ waiting ++ kept.map Keep.demand) :
      demand.Met scene.table scene.naming after value bound ↔
        demand.Met scene.table scene.naming view.memory value bound :=
    Demand.met_iff evolves (ready.isTerm demand member) fun _ _ => rfl
  refine ⟨evolves.terms, rfl, ready.operands, ready.below, ready.length,
    ready.continuation, ready.cutBase, ?_, ?_,
    ready.refines.trans ⟨.of_evolves evolves _ _, ?_, ?_⟩, ?_⟩
  · intro keep member
    obtain ⟨found, isTerm⟩ := ready.stored keep member
    exact ⟨found, evolves.isTerm isTerm⟩
  · exact fun demand member word isWord =>
      evolves.isTerm (ready.awaited demand member word isWord)
  · exact fun T _ value bound solves => ⟨respects.mp solves.respects,
      fun demand member => (met member).mp (solves.met demand member)⟩
  · exact fun T _ known bound solves => ⟨known, ⟨respects.mpr solves.respects,
      fun demand member => (met member).mpr (solves.met demand member)⟩,
      fun _ _ => rfl⟩
  · intro address inUse
    rcases covered address inUse with wasUsed | isHeader | spared
    · by_cases isCell : address ∈ cells
      · exact .inr (.inl isCell)
      · rcases ready.covered address wasUsed with
          old | inside | isHeader | spared
        · exact .inl old
        · exact absurd inside isCell
        · exact .inr (.inr (.inl
            (isHeader.of_load (evolves.kept address wasUsed isCell))))
        · exact .inr (.inr (.inr spared))
    · exact .inr (.inr (.inl isHeader))
    · exact .inr (.inr (.inr spared))

/-- A demand for a compound becomes a demand for its parts. -/
theorem Ready.opens {functor : Option Functor} {args : List Term}
    (ready : scene.Ready view cells kept (⟨content, .takes term⟩ :: waiting))
    (decided : Shape.of term = .ok (.compound functor args)) :
    scene.Ready view cells kept
      (⟨content, .builds (.ofFunctor functor) base 0 args⟩ :: waiting) := by
  apply ready.rephrased
  · intro demand member word isWord
    rcases List.mem_cons.mp member with rfl | waits
    · apply ready.awaited _ List.mem_cons_self word
      simpa [Demand.words] using isWord
    · exact ready.awaited demand (List.mem_cons_of_mem _ waits) word isWord
  · intro demand member address isSpared
    rcases List.mem_cons.mp member with rfl | waits
    · exact isSpared.elim
    · exact ⟨demand, List.mem_cons_of_mem _ waits, isSpared⟩
  · intro T _ value bound _
    simp only [List.forall_mem_cons]
    exact and_congr_left' (Demand.met_compound decided)

/-- The top of the heap got the word of a compound, with its functor behind it if
it has one, and no term has changed. -/
structure Opens (scene : Scene) (memory : Store) (cells : Set Address)
    (own : Word) (symbol : Symbol) (base : Address) (after : Store) :
    Prop where
  evolves : Store.Evolves scene.table cells memory cells after
  same : ∀ address ∈ cells, after.load address = memory.load address
  claimed : after.Holds (.heap memory.heapTop) own
  covered : ∀ address ∈ after.allocated, address ∈ memory.allocated ∨
    after.IsHeader address ∨ address = .heap memory.heapTop
  spans : own.Spans scene.table after symbol base
  sound : own.Sound
  spared : base = symbol.argumentsAt memory.heapTop
  next : base = .heap after.heapTop

namespace Opens

variable {memory : Store}

theorem pair (terms : memory.Terms scene.table cells)
    (growable : memory.Growable) :
    scene.Opens memory cells (.list (.heap (memory.heapTop + 1))) .list
      (.heap (memory.heapTop + 1))
      (memory.grown (.list (.heap (memory.heapTop + 1)))) where
  evolves := terms.evolves_header growable fun other decoded => by
    rw [Word.cell_list] at decoded
    cases decoded
  same := fun _ member =>
    Store.load_grown_of_allocated growable (terms.inside member)
  claimed := growable.holds _
  covered := fun _ inUse =>
    (Store.eq_or_mem_of_grown growable inUse).symm.imp_right .inr
  spans := .pair (Word.cell_list _)
  sound := .of_cell (by simp) rfl
  spared := rfl
  next := rfl

theorem headed {functor : Functor} {number : FunctorId}
    (terms : memory.Terms scene.table cells)
    (known : scene.table.functor number = .ok functor)
    (growable : memory.Growable)
    (second : (memory.grown
      (.compound (.heap (memory.heapTop + 1)))).Growable) :
    scene.Opens memory cells (.compound (.heap (memory.heapTop + 1)))
      (.compound functor) (.heap (memory.heapTop + 1 + 1))
      ((memory.grown (.compound (.heap (memory.heapTop + 1)))).grown
        (.functor number)) := by
  let own : Word := .compound (.heap (memory.heapTop + 1))
  have first : Store.Evolves scene.table cells memory cells
      (memory.grown own) :=
    terms.evolves_header growable fun other decoded => by
      rw [Word.cell_compound] at decoded
      cases decoded
  have header := second.holds (.functor number)
  exact {
    evolves := first.trans (first.terms.evolves_header second
      fun other decoded => by
        rw [Word.cell_functor] at decoded
        cases decoded
        rfl)
    same := by
      intro address member
      have inUse := terms.inside member
      have stillUsed := (growable.preserves own).allocated inUse
      exact (Store.load_grown_of_allocated second stillUsed).trans
        (Store.load_grown_of_allocated growable inUse)
    claimed := (second.preserves _).holds (growable.holds _)
    covered := by
      intro address inUse
      rcases Store.eq_or_mem_of_grown second inUse with rfl | before
      · exact .inr (.inl ⟨_, number, header.2, Word.cell_functor _⟩)
      · exact (Store.eq_or_mem_of_grown growable before).symm.imp_right .inr
    spans := .headed (Word.cell_compound _) header.1
      (functorAt_of_load header.2 (Word.cell_functor _) known)
    sound := .of_cell (by simp) rfl
    spared := rfl
    next := rfl }

/-- The slot for the cursor gets the cell with the word, and the arguments can be
built. -/
theorem builds {functor : Option Functor} {args : List Term} {after : Store}
    (opens : scene.Opens view.memory cells own (.ofFunctor functor) base after)
    (ready : scene.Ready view cells kept (⟨content, .takes term⟩ :: waiting))
    (decided : Shape.of term = .ok (.compound functor args))
    (there : view.locals[subject.index]? = some (.address root))
    (isRoot : view.memory.RootAt cells root content)
    (isFree : content.cell = .reference root)
    (length : cursor.index < view.locals.length)
    (different : cursor.index ≠ subject.index)
    (unkept : ∀ keep ∈ kept, keep.place ≠ cursor.index) :
    scene.Ready ((view.withMemory after).setLocal cursor.index
        (.address (.heap view.memory.heapTop))) cells kept
        (⟨content, .builds (.ofFunctor functor) base 0 args⟩ :: waiting) ∧
      scene.Builds ((view.withMemory after).setLocal cursor.index
          (.address (.heap view.memory.heapTop))) cells subject cursor root
        view.memory.heapTop content own (.ofFunctor functor) base 0 := by
  have apart : Address.heap view.memory.heapTop ∉ cells := fun member =>
    Store.top_notMem_allocated _ (ready.terms.inside member)
  have reached := (ready.opens decided).evolved opens.evolves opens.same
    fun address inUse => by
      rcases opens.covered address inUse with wasUsed | isHeader | rfl
      · exact .inl wasUsed
      · exact .inr (.inl isHeader)
      · exact .inr (.inr ⟨_, List.mem_cons_self, _, rfl, opens.spared⟩)
  refine ⟨reached.setLocal unkept _, ?_, View.locals_setLocal_self length, ?_,
    isFree, opens.claimed.1, apart, opens.claimed.2, opens.spans, opens.sound,
    opens.spared, fun _ below => absurd below (Nat.not_lt_zero _), ?_⟩
  · rw [View.locals_setLocal_of_ne different.symm]
    exact there
  · exact ⟨isRoot.inside, (opens.same root isRoot.inside).trans isRoot.found,
      isRoot.ends⟩
  · rw [Address.plus_zero]
    exact opens.next

end Opens

/-- The word of a compound is written, and its functor. -/
theorem openCompound {functor : Option Functor} {args : List Term}
    {id : Option FunctorId}
    (holds : scene.Holds position (Pattern.openCompound cursor id))
    (ready : scene.Ready view cells kept (⟨content, .takes term⟩ :: waiting))
    (decided : Shape.of term = .ok (.compound functor args))
    (numbered : functor.map scene.naming.number? = id.map some)
    (there : view.locals[subject.index]? = some (.address root))
    (isRoot : view.memory.RootAt cells root content)
    (isFree : content.cell = .reference root)
    (inside : cursor.index < scene.count)
    (different : cursor.index ≠ subject.index)
    (unkept : ∀ keep ∈ kept, keep.place ≠ cursor.index)
    (next : ∀ later pointer own base,
      scene.Ready later cells kept
        (⟨content, .builds (.ofFunctor functor) base 0 args⟩ :: waiting) →
      scene.Builds later cells subject cursor root pointer content own
        (.ofFunctor functor) base 0 →
      scene.Ensures (position + textSize (Pattern.openCompound cursor id))
        later) :
    scene.Ensures position view := by
  apply Context.Ensures.of_sane
  intro sane
  have room := sane.room .heap
  have fits : view.memory.heap.size < 2 ^ 31 := sane.capacity .heap
  have length : cursor.index < view.locals.length := by
    rw [ready.length]
    exact inside
  have opened {own : Word} {after : Store} {base : Address}
      (opens : scene.Opens view.memory cells own (.ofFunctor functor) base
        after) :
      scene.Ensures (position + textSize (Pattern.openCompound cursor id))
        ((view.withMemory after).setLocal cursor.index
          (.address (.heap view.memory.heapTop))) := by
    obtain ⟨readyLater, builds⟩ := opens.builds ready decided there isRoot
      isFree length different unkept
    exact next _ _ _ _ readyLater builds
  apply scene.straight holds
  cases id with
  | none =>
      cases functor with
      | some functor => cases numbered
      | none =>
          refine View.after_pointer .list (fun _ _ => id) room fits
            (small inside) length fun growable => ?_
          exact View.after_claimCell growable
            (opened (.pair ready.terms growable))
  | some number =>
      cases functor with
      | none => cases numbered
      | some functor =>
          have listed : scene.table.get? number = some functor :=
            scene.consistent.numbered functor number
              (scene.numbers functor number (Option.some.inj numbered))
          have known : scene.table.functor number = .ok functor := by
            rw [FunctorTable.functor, listed]
          refine View.after_pointer .compound (fun _ _ => id) room fits
            (small inside) length fun growable => ?_
          exact View.after_claimHeader growable fun second =>
            opened (.headed ready.terms known growable second)

/-- All arguments are there, and the cell with the word of the compound is taken
in among the cells of terms. -/
theorem Ready.adopted
    (ready : scene.Ready view cells kept waiting)
    (builds : scene.Builds view cells subject cursor root pointer content own
      symbol base symbol.arity) :
    scene.Ready view (insert (.heap pointer) cells) kept waiting := by
  have more : cells ⊆ insert (.heap pointer) cells := Set.subset_insert _ _
  have ownTerm : own.IsTerm scene.table view.memory cells :=
    builds.spans.isTerm builds.filled builds.sound
  have wider {word : Word} (isTerm : word.IsTerm scene.table view.memory cells) :
      word.IsTerm scene.table view.memory (insert (.heap pointer) cells) :=
    ⟨isTerm.formed.imp ⟨more, subset_rfl, more⟩ (fun _ _ _ => id),
      isTerm.sound⟩
  refine ⟨ready.terms.adopt builds.claimed builds.found
    builds.spans.notReference (wider ownTerm), ready.pending, ready.operands,
    ready.below, ready.length, ready.continuation, ready.cutBase, ?_, ?_,
    ready.refines.trans ⟨⟨more, fun _ => wider, fun _ => Int32.le_refl _,
      fun _ => rfl, ?_⟩, ?_, ?_⟩, ?_⟩
  · intro keep member
    obtain ⟨found, isTerm⟩ := ready.stored keep member
    exact ⟨found, wider isTerm⟩
  · exact fun demand member word isWord =>
      wider (ready.awaited demand member word isWord)
  · rintro index (same | old)
    · cases same
    · exact .inl old
  · exact fun T _ value bound solves =>
      ⟨fun address inside => solves.respects address (.inr inside), solves.met⟩
  · intro T _ known bound solves
    obtain ⟨tree, denotes⟩ := ownTerm.formed.denotes known
    have same : ∀ address ∈ cells,
        Function.update known (.heap pointer) tree address = known address := by
      intro address inside
      apply Function.update_of_ne
      rintro rfl
      exact builds.apart inside
    refine ⟨_, ⟨?_, ?_⟩, same⟩
    · rintro address (rfl | old) word found
      · rw [builds.found] at found
        cases found
        rw [Function.update_self]
        exact (ownTerm.denotes_iff same).mpr denotes
      · exact solves.respects.congr ready.terms.toClosed same address old word
          found
    · intro demand member
      exact (Demand.met_congr fun word isWord _ =>
        (ready.isTerm demand member word isWord).denotes_iff same).mpr
          (solves.met demand member)
  · intro address inUse
    rcases ready.covered address inUse with old | inside | others
    · exact .inl old
    · exact .inr (.inl (more inside))
    · exact .inr (.inr others)

/-- The variable is bound to the compound. -/
theorem bindCompound
    (holds : scene.Holds position
      [Item.onLocal .loadLocal subject, Item.onLocal .loadLocal cursor,
        .plain .bind])
    (ready : scene.Ready view cells kept
      (⟨content, .builds symbol base symbol.arity []⟩ :: waiting))
    (builds : scene.Builds view cells subject cursor root pointer content own
      symbol base symbol.arity)
    (isSubject : subject.index < scene.count)
    (isCursor : cursor.index < scene.count)
    (next : ∀ larger memory,
      scene.Ready { view with memory } larger kept waiting →
      scene.Ensures (position + 5) { view with memory }) :
    scene.Ensures position view := by
  have split : [Item.onLocal .loadLocal subject,
      Item.onLocal .loadLocal cursor, Item.plain .bind] =
        [Item.onLocal .loadLocal subject, Item.onLocal .loadLocal cursor] ++
          [.plain .bind] := rfl
  rw [split, holds_append] at holds
  have adopted := ready.adopted builds
  have isRoot := builds.isRoot
  have ownRoot : view.memory.RootAt (insert (.heap pointer) cells)
      (.heap pointer) own :=
    ⟨Set.mem_insert _ _, builds.found, fun next refers =>
      absurd refers (builds.spans.notReference next)⟩
  have different : Address.heap pointer ≠ root := by
    intro same
    exact builds.apart (same ▸ isRoot.inside)
  apply scene.straight holds.1
  apply View.after_loadLocal (small isSubject) builds.subject
  apply View.after_loadLocal (small isCursor)
  · exact builds.cursor
  refine Context.Ensures.bind scene.closes holds.2.1
    (holds.2.lt (Nat.zero_lt_succ _)) rfl adopted.terms adopted.apart ownRoot
    ⟨.inr isRoot.inside, isRoot.found, isRoot.ends⟩ different
    ⟨root, builds.free⟩ ?_
  intro larger memory equates
  apply next larger memory
  have spares : ∀ address, (Wish.builds symbol base symbol.arity []).Spares
      address → address ∈ insert (Address.heap pointer) cells := by
    rintro _ ⟨other, rfl, same⟩
    rw [builds.spared] at same
    rw [Symbol.argumentsAt_inj same]
    exact Set.mem_insert _ _
  apply adopted.equated equates spares
  intro T _ value bound respects _
  rw [Demand.met_built builds.spans]
  have denotes := respects _ (Set.mem_insert _ _) own builds.found
  constructor
  · rintro ⟨tree, first, second⟩
    simp only [Word.Denotes, builds.free] at first
    refine ⟨tree, ?_, ?_⟩
    · simp only [Word.Denotes, Word.cell_reference]
      exact second.unique denotes
    · simpa only [Word.Denotes, Word.cell_reference] using first
  · rintro ⟨tree, first, second⟩
    simp only [Word.Denotes, Word.cell_reference] at first second
    refine ⟨tree, ?_, first ▸ denotes⟩
    simpa only [Word.Denotes, builds.free] using second

end Scene

end LogicMachine
