import LogicMachine.Proofs.Backtracking.Actions
import LogicMachine.Proofs.Copy.Copied

/-!
# Shared copies stand for their sources

A shared copy is made of retained cells, and the variables of the source that
were not retained are bound to those of the copy.  The changed store means what
it meant before: it has the same valuations on the old cells, and under each of
them the source and the copy have the same tree.
-/

namespace LogicMachine

section Shared

variable {table : FunctorTable} {cells : Set Address} {before after : Store}
  {copies : Copies} {pairs : List CopyTask}

variable (twins : Twins table .retained .share cells before
  ⟨copies, none, ∅, pairs, []⟩ after)

include twins

/-- The new cells of the copy are the new term cells of the store. -/
theorem Twins.copied_eq (terms : before.TermCells table cells) :
    copiedCells copies pairs = before.addedTo after := by
  ext address
  constructor
  · intro copied
    have claimed := twins.claimed_of_copied copied
    exact ⟨(twins.sound_later terms.toSound).inside (.inr copied),
      Store.not_allocated_of_claimed claimed,
      (twins.terms_later terms).noHeader address (.inr copied)⟩
  · rintro ⟨inUse, new, isTerm⟩
    obtain ⟨index, rfl, above⟩ := twins.grows.above_of_allocated inUse new
    rcases twins.covered _ ⟨index, rfl, above, Store.allocated_below.mp inUse⟩
      with handy | paired | ⟨header, noted⟩ | noted
    · cases handy
    · exact .inl paired
    · obtain ⟨target, functor, isCopy, twin⟩ := twins.ofStructure header _ noted
      have same := congrArg Word.cell isCopy
      simp only [Word.cell_compound, Cell.compound.injEq] at same
      obtain ⟨word, id, loaded, isFunctor, -⟩ :=
        load_of_functorAt (same ▸ twin.functorAt)
      exact absurd ⟨word, id, loaded, isFunctor⟩ isTerm
    · exact .inr noted

/-- The new store is well-formed. -/
theorem Twins.wellFormed (wellFormed : before.WellFormed table cells) :
    after.WellFormed table (cells ∪ copiedCells copies pairs) where
  formed := fun _ => (twins.terms_later wellFormed.termCells).exists_word
  inside := (twins.sound_later wellFormed.sound).inside
  retained := by
    rintro address (old | ⟨pair, isPair, rfl⟩ | ⟨source, noted⟩) isRetained
      word found
    · rcases twins.cell_cases wellFormed.sound old with same |
        ⟨-, notRetained, -⟩
      · exact wellFormed.retained address old isRetained word
          (same.symm.trans found)
      · rw [notRetained] at isRetained
        cases isRetained
    · obtain ⟨node, filled, -, loaded, isTwin, -, -⟩ :=
        twins.pair_word wellFormed.sound isPair
      cases loaded.symm.trans found
      exact twins.pointsInto_twin isTwin
    · obtain ⟨_, loaded, refers⟩ := (twins.variable_of_noted noted).isUnbound
      cases loaded.symm.trans found
      simp only [Word.PointsInto, refers]
      exact isRetained_eq isRetained
  acyclic := (twins.sound_later wellFormed.sound).acyclic

/-- A pair whose target is the copy of a variable has a source that shows the
variable. -/
theorem Twins.source_shows (sound : before.Sound table cells)
    {pair : CopyTask} (isPair : pair ∈ pairs) {address : Address}
    (noted : copies.Notes .reference address (.reference pair.target)) :
    before.At pair.source (.reference address) := by
  obtain ⟨node, word, shown, loaded, isTwin, nodeSound, -⟩ :=
    twins.pair_word sound isPair
  obtain ⟨_, loaded', refers⟩ := (twins.variable_of_noted noted).isUnbound
  cases loaded.symm.trans loaded'
  rcases twins.twin_cases isTwin with ⟨isNode, -⟩ |
    ⟨other, found, rfl, isFound, noted', -⟩ | ⟨_, _, _, -, isFound, -⟩ |
    ⟨_, _, -, isFound, -⟩
  · -- New cells are no nodes of the source.
    rw [← isNode, refers] at nodeSound
    exact absurd (sound.inside nodeSound)
      (Store.not_allocated_of_claimed (twins.targets pair isPair).1)
  · cases refers.symm.trans isFound
    cases twins.injective _ _ _ _ noted noted'
    exact shown
  · simp [refers] at isFound
  · simp [refers] at isFound

/-- A cell of the copy and the cell that it stands for. -/
def StandsFor (copies : Copies) (pairs : List CopyTask)
    (address origin : Address) : Prop :=
  ⟨origin, address⟩ ∈ pairs ∨
    (∀ pair ∈ pairs, pair.target ≠ address) ∧
      copies.Notes .reference origin (.reference address)

/-- A valuation of the old store gives every new cell the tree of the cell that
it stands for. -/
theorem Twins.exists_value {T : Type} [TreeAlgebra T]
    (sound : before.Sound table cells) {known : Address → T}
    (respects : before.Respects table cells known) :
    ∃ value : Address → T,
      (∀ address ∈ before.allocated, value address = known address) ∧
      (∀ pair ∈ pairs, value pair.target = known pair.source) ∧
      ∀ address target,
        copies.Notes .reference address (.reference target) →
          value target = known address := by
  classical
  let origin (address : Address) : Address :=
    if stands : ∃ other, StandsFor copies pairs address other
    then stands.choose else address
  have ofPair {pair : CopyTask} (isPair : pair ∈ pairs) :
      origin pair.target = pair.source := by
    have stands : ∃ other, StandsFor copies pairs pair.target other :=
      ⟨pair.source, .inl isPair⟩
    have isOrigin : origin pair.target = stands.choose := dif_pos stands
    rw [isOrigin]
    rcases stands.choose_spec with inside | ⟨noPair, -⟩
    · exact congrArg CopyTask.source (twins.eq_of_target inside isPair rfl)
    · exact absurd rfl (noPair pair isPair)
  refine ⟨fun address => known (origin address), ?_, ?_, ?_⟩
  · intro address inUse
    refine congrArg known (dif_neg ?_)
    rintro ⟨other, isPair | ⟨-, noted⟩⟩
    · exact Store.not_allocated_of_claimed (twins.targets _ isPair).1 inUse
    · exact Store.not_allocated_of_claimed
        (twins.variable_of_noted noted).claimed inUse
  · exact fun pair isPair => congrArg known (ofPair isPair)
  · intro address target noted
    by_cases isTarget : ∃ pair ∈ pairs, pair.target = target
    · obtain ⟨pair, isPair, rfl⟩ := isTarget
      have shown := twins.source_shows sound isPair noted
      exact (congrArg known (ofPair isPair)).trans
        (respects.leads sound.references (twins.sources pair isPair)
          shown.unbound.2)
    · have noPair : ∀ pair ∈ pairs, pair.target ≠ target :=
        fun pair isPair same => isTarget ⟨pair, isPair, same⟩
      have stands : ∃ other, StandsFor copies pairs target other :=
        ⟨address, .inr ⟨noPair, noted⟩⟩
      have isOrigin : origin target = stands.choose := dif_pos stands
      dsimp only
      rw [isOrigin]
      rcases stands.choose_spec with inside | ⟨-, noted'⟩
      · exact absurd rfl (noPair _ inside)
      · rw [twins.injective _ _ _ _ noted noted']

/-- Every valuation of the old store goes on to one of the new store. -/
theorem Twins.respects_after {T : Type} [TreeAlgebra T]
    (terms : before.TermCells table cells) {known : Address → T}
    (respects : before.Respects table cells known) :
    ∃ value : Address → T,
      after.Respects table (cells ∪ copiedCells copies pairs) value ∧
        ∀ address ∈ before.allocated, value address = known address := by
  obtain ⟨value, ofOld, ofPair, ofVariable⟩ :=
    twins.exists_value terms.toSound respects
  have carried {word : Word}
      (formed : word.Formed table before ⟨cells, before.allocated, cells⟩)
      {tree : T} (denotes : word.Denotes table before known tree) :
      word.Denotes table after value tree :=
    denotes.congr formed
      (fun _ inUse _ named => twins.functorAt_later inUse named)
      (fun _ inside => ofOld _ (terms.inside inside))
      (fun _ inside => ofOld _ (terms.inside inside))
  refine ⟨value, ?_, ofOld⟩
  rintro address (old | copied) word found
  · have sameValue := ofOld address (terms.inside old)
    rw [sameValue]
    rcases twins.cell_cases terms.toSound old with same |
      ⟨-, -, target, bound, noted, -⟩
    · have loaded := same.symm.trans found
      exact carried (terms.word_formed old loaded)
        (respects address old word loaded)
    · cases bound.symm.trans found
      simp only [Word.Denotes, Word.cell_reference]
      exact (ofVariable address target noted).symm
  · rcases copied with ⟨pair, isPair, rfl⟩ | ⟨source, noted⟩
    · obtain ⟨node, filled, ⟨root, original, leads, present, rfl⟩, loaded,
        isTwin, -⟩ := twins.pair_word terms.toSound isPair
      cases loaded.symm.trans found
      have inside := twins.sources pair isPair
      have rootInside := leads.mem terms.references inside
      have formed := terms.word_formed rootInside present
      have denotes := respects root rootInside original present
      rw [ofPair pair isPair, respects.leads terms.references inside leads]
      rcases twins.twin_cases isTwin with ⟨same, -⟩ |
        ⟨variableCell, target, isNode, isFound, noted, twin⟩ |
        ⟨header, target, functor, isNode, isFound, -, twin⟩ |
        ⟨listPair, target, isNode, isFound, -, twin⟩
      · exact (carried formed denotes).of_cell same
      · simp only [Word.Denotes, isNode] at denotes
        simp only [Word.Denotes, isFound]
        rw [denotes, ofVariable variableCell target noted]
      · simp only [Word.Denotes, isNode] at denotes
        simp only [Word.Denotes, isFound]
        obtain ⟨named, isNamed, shape⟩ := denotes
        cases twin.known.symm.trans isNamed
        refine ⟨functor, twin.functorAt, shape.trans ?_⟩
        congr 1
        funext index
        exact (ofPair _ (twin.paired index index.isLt)).symm
      · simp only [Word.Denotes, isNode] at denotes
        simp only [Word.Denotes, isFound]
        rw [denotes]
        congr 1
        funext index
        induction index using Symbol.forall_list with
        | head => simpa using (ofPair _ twin.head).symm
        | tail => exact (ofPair _ twin.tail).symm
    · obtain ⟨_, loaded, refers⟩ := (twins.variable_of_noted noted).isUnbound
      cases loaded.symm.trans found
      simp only [Word.Denotes, refers]

/-- The old and the new store have the same valuations on the old cells. -/
theorem Twins.valuations_eq (T : Type) [TreeAlgebra T]
    (terms : before.TermCells table cells) :
    after.valuations T table (cells ∪ copiedCells copies pairs) cells =
      before.valuations T table cells cells := by
  ext known
  constructor
  · rintro ⟨value, respects, same⟩
    exact ⟨value, twins.respects_before terms respects, same⟩
  · rintro ⟨value, respects, same⟩
    obtain ⟨later, respectsLater, agrees⟩ :=
      twins.respects_after terms respects
    refine ⟨later, respectsLater, fun address => ?_⟩
    rw [same, agrees _ (terms.inside address.property)]

/-- A variable of the source that was not retained is bound to a retained one,
and the newest frame that can see it has a record of it. -/
theorem Twins.variable_bound (wellFormed : before.WellFormed table cells)
    {source target : Cell} (sourceSound : source.Sound table before cells)
    (isTwin : copies.twin .retained .share source = some target)
    {address : Address}
    (reached : before.Reaches table source (.reference address))
    (notRetained : address.isRetained = false) :
    ∃ copy, after.load address = .ok (.reference copy) ∧
      copy.isRetained ∧ after.Unbound copy ∧
      ∀ word, before.load address = .ok word →
        ∀ frame ∈ after.trail.frames.head?, frame.boundary.covers address →
          ⟨address, word⟩ ∈ frame.records := by
  obtain ⟨-, found, isFound, -⟩ := twins.reaches_twin wellFormed.sound
    (fun _ => wellFormed.retained) sourceSound isTwin reached
  rcases twins.twin_cases isFound with ⟨-, kept⟩ |
    ⟨other, copy, same, -, noted, twin⟩ | ⟨_, _, _, same, -⟩ | ⟨_, _, same, -⟩
  · simp [Cell.key?, shares_retained, notRetained] at kept
  · cases same
    exact ⟨copy, twins.bound rfl address _ noted,
      (Store.retained_of_claimed twin.claimed).1, twin.isUnbound,
      fun word loaded => twins.recorded rfl address word _ noted loaded⟩
  · cases same
  · cases same

end Shared

section Retained

variable {table : FunctorTable} {store : Store} {cells : Set Address}

/-- A word whose pointers are retained points at retained term cells and functor
cells. -/
theorem Word.Formed.retained_of_points {word : Word}
    (formed : word.Formed table store ⟨cells, store.allocated, cells⟩)
    (into : word.PointsInto .retained) {address : Address}
    (points : word.Points table store address) :
    address.isRetained ∧ (address ∈ cells ∨ store.IsHeader address) := by
  have sound := formed.sound
  unfold Word.Points at points
  unfold Word.PointsInto at into
  cases decoded : word.cell with
  | reference target =>
      simp only [decoded] at points into
      simp only [Word.Formed, decoded] at formed
      obtain ⟨index, rfl⟩ := into
      exact ⟨points ▸ rfl, .inl (points ▸ formed)⟩
  | compound header =>
      rw [decoded] at sound
      simp only [decoded] at points into
      obtain ⟨index, rfl⟩ := into
      rcases points with rfl | ⟨position, isPart⟩
      · obtain ⟨-, functor, known, -⟩ := sound
        obtain ⟨found, id, loaded, isFunctor, -⟩ := load_of_functorAt known
        exact ⟨rfl, .inr ⟨found, id, loaded, isFunctor⟩⟩
      · refine ⟨?_, .inl (sound.part_mem isPart)⟩
        cases isPart
        exact Address.isRetained_plus _ _
  | list pair =>
      rw [decoded] at sound
      simp only [decoded] at points into
      obtain ⟨index, rfl⟩ := into
      obtain ⟨position, isPart⟩ := points
      refine ⟨?_, .inl (sound.part_mem isPart)⟩
      cases isPart
      · rfl
      · exact Address.isRetained_plus _ _
  | _ => simp [decoded] at points

/-- Everything that can be reached from retained cells is retained. -/
theorem Store.WellFormed.retained_of_visits
    (wellFormed : store.WellFormed table cells) {word : Word}
    (formed : word.Formed table store ⟨cells, store.allocated, cells⟩)
    (into : word.PointsInto .retained) {address : Address}
    (visits : store.Visits table word address) : address.isRetained := by
  suffices inside : address ∈ { address | address.isRetained ∧
      (address ∈ cells ∨ store.IsHeader address) } from inside.1
  refine visits.mem ?_ fun _ => formed.retained_of_points into
  rintro cell ⟨isRetained, isTerm | isHeader⟩ found loaded next points
  · obtain ⟨_, loaded', foundFormed⟩ := wellFormed.formed cell isTerm
    cases loaded.symm.trans loaded'
    exact foundFormed.retained_of_points
      (wellFormed.retained cell isTerm isRetained found loaded) points
  · obtain ⟨_, _, loaded', isFunctor⟩ := isHeader
    cases loaded.symm.trans loaded'
    simp [Word.Points, isFunctor] at points

/-- A term whose root is retained is shared as it is. -/
theorem StoreM.copyTerm_share_retained {word : Word}
    (into : word.PointsInto .retained)
    (canonical : ∀ target, word.cell = .reference target →
      word = .reference target)
    (unbound : ∀ target, word.cell = .reference target →
      store.Unbound target) :
    copyTerm table word .retained .share store = .ok word store := by
  have stays (action : StoreM CellCopy)
      (done : action store = .ok ⟨word, {}, []⟩ store) :
      (do
        let copied ← action
        let steps := copied.tasks.length + (← get).free .retained
        copyTasks table .retained .share steps copied.copies copied.tasks
        return copied.word : StoreM Word) store = .ok word store := by
    simp only [bind, EStateM.bind, done, get_apply, copyTasks]
    rfl
  refine stays _ ?_
  unfold Word.PointsInto at into
  cases decoded : word.cell with
  | reference target =>
      simp only [decoded] at into
      obtain ⟨index, rfl⟩ := into
      obtain ⟨found, loaded, refers⟩ := unbound _ decoded
      have ends := (Store.Unbound.isRoot ⟨found, loaded, refers⟩)
      simp only [copyCell, decoded, bind, EStateM.bind, deref, load, read,
        (Store.Leads.here ends).deref_eq, loaded, refers]
      rw [canonical _ decoded]
      rfl
  | compound header =>
      simp only [decoded] at into
      obtain ⟨index, rfl⟩ := into
      simp only [copyCell, decoded, copyValue]
      rfl
  | list pair =>
      simp only [decoded] at into
      obtain ⟨index, rfl⟩ := into
      simp only [copyCell, decoded, copyValue]
      rfl
  | _ =>
      simp only [copyCell, decoded, copyValue]
      rfl

end Retained

/-- A shared copy stands for its source.  It is made of retained cells; the
valuations of the store stay what they were, and each of them gives the source
and the copy the same tree; retained nodes are not copied; the other variables
are bound to retained ones, which backtracking undoes; and a shared copy of the
copy is the copy itself.  Copying fails only if the copy does not fit. -/
theorem StoreM.copyTerm_share_standsFor (T : Type) [TreeAlgebra T]
    {table : FunctorTable} {store : Store} {cells : Set Address}
    (wellFormed : store.WellFormed table cells)
    (small : store.retained.size < 2 ^ 31) {root : Word}
    (formed : root.Formed table store ⟨cells, store.allocated, cells⟩) :
    Ends (copyTerm table root .retained .share store)
      (fun copy after =>
        (∀ address, after.Visits table copy address → address.isRetained) ∧
        after.WellFormed table (cells ∪ store.addedTo after) ∧
        after.valuations T table (cells ∪ store.addedTo after) cells =
          store.valuations T table cells cells ∧
        (∀ value : Address → T,
          after.Respects table (cells ∪ store.addedTo after) value →
          ∃ tree, root.Denotes table store value tree ∧
            copy.Denotes table after value tree) ∧
        (∃ source target image, store.Resolves root source ∧
          after.Resolves copy target ∧
          Homomorphic table store after image source target ∧
          (∀ node key, node.key? = some key → key.2.isRetained →
            image node = node) ∧
          ∀ address, store.Reaches table source (.reference address) →
            address.isRetained = false →
            ∃ bound, after.load address = .ok (.reference bound) ∧
              bound.isRetained ∧ after.Unbound bound ∧
              ∀ word, store.load address = .ok word →
                ∀ frame ∈ after.trail.frames.head?,
                  frame.boundary.covers address →
                    ⟨address, word⟩ ∈ frame.records) ∧
        (∀ checkpoints base, store.Follows checkpoints base →
          after.Follows checkpoints base) ∧
        copyTerm table copy .retained .share after = .ok copy after)
      (fun fault _ =>
        fault = .exhausted .retained store.retained.size ∧
          store.Exceeds table .retained .share root) := by
  have sound := wellFormed.sound
  have follows (checkpoints : List Checkpoint) (base : List Frame) :
      KeepsFollowing checkpoints base
        (copyTerm table root .retained .share) :=
    copyTerm_keeps table root .retained .share
  have made : Ends (copyTerm table root .retained .share store)
      (fun copy after => ∃ node copies pairs,
        TermCopied table .retained .share cells store root copy node copies
          pairs after)
      (fun fault _ =>
        fault = .exhausted .retained store.retained.size ∧
          store.Exceeds table .retained .share root) :=
    copyTerm_twins sound (.inr rfl) small formed.sound
  cases outcome : copyTerm table root .retained .share store with
  | error fault after =>
      rw [outcome] at made
      exact made
  | ok copy after =>
      rw [outcome] at made
      obtain ⟨node, copies, pairs, copied⟩ := made
      have twins := copied.twins
      have unbound (address : Address) (isReference : node = .reference address) :
          store.Unbound address :=
        (isReference ▸ copied.resolves).unbound
      have terms := wellFormed.termCells
      have later := twins.wellFormed wellFormed
      have into := twins.pointsInto_twin copied.twin
      have copyFormed := twins.formed_twin terms formed copied.resolves
        copied.twin
      rw [ends_ok, ← twins.copied_eq terms]
      refine ⟨fun _ => later.retained_of_visits copyFormed into, later,
        twins.valuations_eq T terms, ?_, ⟨node, copy.cell, _,
          copied.resolves, twins.resolves_twin sound copied.sound unbound
            copied.twin, twins.homomorphic sound (fun _ => wellFormed.retained)
              copied.sound copied.twin, ?_, ?_⟩, ?_, ?_⟩
      · exact fun value respects =>
          twins.root_denotes terms respects formed copied.resolves
            copied.twin
      · intro other key isKey isRetained
        rw [Copies.twin_of_shares isKey
          ((shares_retained key.2).trans isRetained), Option.getD_some]
      · exact fun address => twins.variable_bound wellFormed copied.sound
          copied.twin
      · intro checkpoints base following
        have kept := follows checkpoints base store following
        rw [outcome] at kept
        exact kept
      · refine copyTerm_share_retained into copied.canonical ?_
        intro target isReference
        exact twins.unbound_twin sound copied.sound unbound
          (copied.twin.trans (congrArg some isReference))

theorem StoreM.copyTerm_share_standsFor_partialList :
    partialList.WellFormed .empty partialListCells ∧
      (Word.list (.heap 1)).Formed .empty partialList
        ⟨partialListCells, partialList.allocated, partialListCells⟩ ∧
      ∃ copy after,
        copyTerm .empty (.list (.heap 1)) .retained .share partialList =
          .ok copy after ∧
        (∀ address, after.Visits .empty copy address →
          address.isRetained) ∧
        after.valuations Tree .empty
            (partialListCells ∪ partialList.addedTo after) partialListCells =
          partialList.valuations Tree .empty partialListCells
            partialListCells ∧
        copyTerm .empty copy .retained .share after = .ok copy after := by
  have formed : (Word.list (.heap 1)).Formed .empty partialList
      ⟨partialListCells, partialList.allocated, partialListCells⟩ := by
    simp [Word.Formed, partialListCells, Address.plus, Address.shift?]
  refine ⟨partialList_wellFormed, formed, ?_⟩
  have copied := copyTerm_share_standsFor Tree partialList_wellFormed
    (by decide) formed
  cases outcome : copyTerm .empty (.list (.heap 1)) .retained .share
      partialList with
  | ok copy after =>
      rw [outcome] at copied
      exact ⟨copy, after, rfl, copied.1, copied.2.2.1, copied.2.2.2.2.2.2⟩
  | error fault after =>
      rw [outcome] at copied
      exact absurd copied.2 (partialList_not_exceeds .share)

end LogicMachine
