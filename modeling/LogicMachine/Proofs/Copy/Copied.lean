import LogicMachine.Proofs.Copy.Isomorphism

/-!
# What a shared copy leaves behind

A shared copy binds variables of its source to new cells.  The old cells and
the new ones together are sound again.  If none of the old cells holds a
functor, then every valuation of the changed store is one of the store before
it, and it gives the source and the copy the same tree.
-/

namespace LogicMachine

/-- A word of a term is sound and holds no functor. -/
theorem Word.formed_iff {table : FunctorTable} {store : Store}
    {cells : Set Address} {word : Word} :
    word.Formed table store ⟨cells, store.allocated, cells⟩ ↔
      word.cell.Sound table store cells ∧ ∀ id, word.cell ≠ .functor id := by
  unfold Word.Formed Cell.Sound
  cases word.cell <;> simp

namespace Store

/-- Sound cells none of which holds a functor. -/
structure TermCells (table : FunctorTable) (store : Store)
    (cells : Set Address) : Prop extends Sound table store cells where
  noHeader : ∀ address ∈ cells, ¬ store.IsHeader address

variable {table : FunctorTable} {store : Store} {cells : Set Address}

theorem TermCells.exists_word (terms : store.TermCells table cells)
    {address : Address} (inside : address ∈ cells) :
    ∃ word, store.load address = .ok word ∧
      word.Formed table store ⟨cells, store.allocated, cells⟩ := by
  obtain ⟨word, found, formed⟩ := terms.formed address inside
  refine ⟨word, found, Word.formed_iff.mpr ⟨formed, fun id isFunctor => ?_⟩⟩
  exact terms.noHeader address inside ⟨word, id, found, isFunctor⟩

theorem TermCells.word_formed (terms : store.TermCells table cells)
    {address : Address} (inside : address ∈ cells) {word : Word}
    (found : store.load address = .ok word) :
    word.Formed table store ⟨cells, store.allocated, cells⟩ := by
  obtain ⟨_, loaded, formed⟩ := terms.exists_word inside
  cases found.symm.trans loaded
  exact formed

/-- No node of a term is a functor. -/
theorem TermCells.ne_functor (terms : store.TermCells table cells)
    {address : Address} (inside : address ∈ cells) {node : Cell}
    (shown : store.At address node) (id : FunctorId) : node ≠ .functor id := by
  obtain ⟨root, word, leads, loaded, rfl⟩ := shown
  exact fun isFunctor => terms.noHeader root
    (leads.mem terms.references inside) ⟨word, id, loaded, isFunctor⟩

theorem WellFormed.termCells (wellFormed : store.WellFormed table cells) :
    store.TermCells table cells where
  toSound := wellFormed.sound
  noHeader := fun _ inside => wellFormed.not_isHeader inside

end Store

/-- The new cells of a copy: the targets of the pairs and the copies of
variables. -/
def copiedCells (copies : Copies) (pairs : List CopyTask) : Set Address :=
  { address | (∃ pair ∈ pairs, pair.target = address) ∨
    ∃ source, copies.Notes .reference source (.reference address) }

section Copied

variable {table : FunctorTable} {cells : Set Address} {before after : Store}
  {copies : Copies} {pairs : List CopyTask}

theorem shares_retained (address : Address) :
    StoreM.shares .retained .share address = address.isRetained := by
  simp [StoreM.shares]

/-- Claimed cells are in use and retained. -/
theorem Store.retained_of_claimed {store : Store} {address : Address}
    (inside : address ∈ Store.claimed .retained before store) :
    address.isRetained ∧ address ∈ store.allocated := by
  obtain ⟨index, rfl, -, below⟩ := inside
  exact ⟨rfl, below⟩

variable (twins : Twins table .retained .share cells before
  ⟨copies, none, ∅, pairs, []⟩ after)

include twins

theorem Twins.allocated : before.allocated ⊆ after.allocated :=
  (Store.Grows.refl _ _ _).allocated_subset twins.grows twins.grows.top_le

theorem Twins.agrees : table.Agrees before.allocated before after :=
  fun _ inUse _ known => twins.functorAt_later inUse known

/-- The cell of a pair holds the twin of a sound node. -/
theorem Twins.pair_word (sound : before.Sound table cells) {pair : CopyTask}
    (isPair : pair ∈ pairs) :
    ∃ node word, before.At pair.source node ∧
      after.load pair.target = .ok word ∧
      copies.twin .retained .share node = some word.cell ∧
      node.Sound table before cells ∧ word.TakenOver cells before := by
  rcases twins.finished pair isPair with waiting | active |
    ⟨node, word, shown, loaded, isTwin, taken⟩
  · cases waiting
  · cases active
  · exact ⟨node, word, shown, loaded, isTwin,
      sound.sound_of_at (twins.sources pair isPair) shown, taken⟩

/-- A copied variable is unbound. -/
theorem Twins.variable_of_noted {address target : Address}
    (noted : copies.Notes .reference address (.reference target)) :
    VariableTwin .retained cells before ⟨copies, none, ∅, pairs, []⟩ after
      address target := by
  obtain ⟨other, isCopy, twin⟩ := twins.ofVariable address _ noted
  have same := congrArg Word.cell isCopy
  simp only [Word.cell_reference, Cell.reference.injEq] at same
  exact same ▸ twin

theorem Twins.claimed_of_copied {address : Address}
    (copied : address ∈ copiedCells copies pairs) :
    address ∈ Store.claimed .retained before after := by
  rcases copied with ⟨pair, isPair, rfl⟩ | ⟨source, noted⟩
  · exact (twins.targets pair isPair).1
  · exact (twins.variable_of_noted noted).claimed

/-- A cell of the source is unchanged, or it was an unbound variable outside of
the retained segment and is bound to its copy. -/
theorem Twins.cell_cases (sound : before.Sound table cells)
    {address : Address} (inside : address ∈ cells) :
    after.load address = before.load address ∨
      before.Unbound address ∧ address.isRetained = false ∧
        ∃ target, after.load address = .ok (.reference target) ∧
          copies.Notes .reference address (.reference target) ∧
          VariableTwin .retained cells before ⟨copies, none, ∅, pairs, []⟩
            after address target := by
  rcases twins.kept address (sound.inside inside) with same |
    ⟨-, unbound, copy, noted, bound⟩
  · exact .inl same
  · obtain ⟨target, rfl, twin⟩ := twins.ofVariable address copy noted
    have unshared := twins.copied _ _ _ noted
    rw [shares_retained] at unshared
    exact .inr ⟨unbound, unshared, target, bound, noted, twin⟩

/-- The twin of a sound node is sound among the old and the new cells. -/
theorem Twins.sound_twin {node found : Cell}
    (nodeSound : node.Sound table before cells)
    (isTwin : copies.twin .retained .share node = some found) :
    found.Sound table after (cells ∪ copiedCells copies pairs) := by
  rcases twins.twin_cases isTwin with ⟨rfl, -⟩ |
    ⟨address, target, -, rfl, noted, -⟩ |
    ⟨_, target, functor, -, rfl, -, twin⟩ | ⟨_, target, -, rfl, -, twin⟩
  · exact nodeSound.imp Set.subset_union_left twins.allocated twins.agrees
  · exact .inr (.inr ⟨address, noted⟩)
  · exact ⟨(Store.retained_of_claimed twin.claimed).2, functor, twin.functorAt,
      fun index below => .inr (.inl ⟨_, twin.paired index below, rfl⟩)⟩
  · exact ⟨.inr (.inl ⟨_, twin.head, rfl⟩), .inr (.inl ⟨_, twin.tail, rfl⟩)⟩

/-- The twin of a node that is no functor is none. -/
theorem Twins.twin_ne_functor {node found : Cell}
    (isTwin : copies.twin .retained .share node = some found)
    (isTerm : ∀ id, node ≠ .functor id) (id : FunctorId) :
    found ≠ .functor id := by
  rintro rfl
  have sameTag := twins.tag_twin isTwin
  cases node with
  | functor other => exact isTerm other rfl
  | _ => cases sameTag

/-- The old and the new cells are sound. -/
theorem Twins.sound_later (sound : before.Sound table cells) :
    after.Sound table (cells ∪ copiedCells copies pairs) where
  formed := by
    rintro address (old | ⟨pair, isPair, rfl⟩ | ⟨source, noted⟩)
    · rcases twins.cell_cases sound old with same |
        ⟨-, -, target, bound, noted, -⟩
      · obtain ⟨word, found, formed⟩ := sound.formed address old
        exact ⟨word, same.trans found, formed.imp Set.subset_union_left
          twins.allocated twins.agrees⟩
      · refine ⟨_, bound, ?_⟩
        rw [Word.cell_reference]
        exact .inr (.inr ⟨address, noted⟩)
    · obtain ⟨node, word, -, loaded, isTwin, nodeSound, -⟩ :=
        twins.pair_word sound isPair
      exact ⟨word, loaded, twins.sound_twin nodeSound isTwin⟩
    · obtain ⟨word, loaded, refers⟩ :=
        (twins.variable_of_noted noted).isUnbound
      refine ⟨word, loaded, ?_⟩
      rw [refers]
      exact .inr (.inr ⟨source, noted⟩)
  inside := by
    rintro address (old | copied)
    · exact twins.allocated (sound.inside old)
    · exact (Store.retained_of_claimed (twins.claimed_of_copied copied)).2
  acyclic := by
    rintro address (old | ⟨pair, isPair, rfl⟩ | ⟨source, noted⟩)
    · obtain ⟨node, shown⟩ := sound.exists_at old
      obtain ⟨root, -, leads, -⟩ := twins.at_later sound old shown
      exact ⟨root, leads⟩
    · obtain ⟨_, _, -, ⟨root, -, leads, -⟩, -⟩ := twins.pair_at sound isPair
      exact ⟨root, leads⟩
    · exact ⟨address, .here (twins.variable_of_noted noted).isUnbound.isRoot⟩

/-- Copying terms leaves terms. -/
theorem Twins.terms_later (terms : before.TermCells table cells) :
    after.TermCells table (cells ∪ copiedCells copies pairs) where
  toSound := twins.sound_later terms.toSound
  noHeader := by
    rintro address inside ⟨word, id, found, isFunctor⟩
    rcases inside with old | ⟨pair, isPair, rfl⟩ | ⟨source, noted⟩
    · rcases twins.cell_cases terms.toSound old with same |
        ⟨-, -, target, bound, -⟩
      · exact terms.noHeader address old
          ⟨word, id, same.symm.trans found, isFunctor⟩
      · cases found.symm.trans bound
        simp at isFunctor
    · obtain ⟨node, filled, shown, loaded, isTwin, -, -⟩ :=
        twins.pair_word terms.toSound isPair
      cases found.symm.trans loaded
      exact twins.twin_ne_functor isTwin
        (terms.ne_functor (twins.sources pair isPair) shown) id isFunctor
    · obtain ⟨_, loaded, refers⟩ := (twins.variable_of_noted noted).isUnbound
      cases found.symm.trans loaded
      simp [isFunctor] at refers

/-- A word that shows a twin points at retained cells. -/
theorem Twins.pointsInto_twin {node : Cell} {word : Word}
    (isTwin : copies.twin .retained .share node = some word.cell) :
    word.PointsInto .retained := by
  unfold Word.PointsInto
  rcases twins.twin_cases isTwin with ⟨rfl, kept⟩ |
    ⟨_, target, -, isFound, -, twin⟩ | ⟨_, target, _, -, isFound, -, twin⟩ |
    ⟨_, target, -, isFound, -, twin⟩
  · cases decoded : word.cell with
    | reference target | compound target | list target =>
        have isRetained : target.isRetained := by
          simpa [decoded, Cell.key?, shares_retained] using kept
        exact isRetained_eq isRetained
    | _ => trivial
  all_goals
    obtain ⟨index, rfl, -⟩ := twin.claimed
    simp only [isFound]
    exact ⟨index, rfl⟩

/-- Words of the source denote the same in both stores. -/
theorem Twins.denotes_later {T : Type} [TreeAlgebra T] {word : Word}
    (formed : word.Formed table before ⟨cells, before.allocated, cells⟩)
    {value : Address → T} {tree : T}
    (denotes : word.Denotes table before value tree) :
    word.Denotes table after value tree :=
  denotes.congr formed twins.agrees (fun _ _ => rfl) (fun _ _ => rfl)

/-- A valuation of the new store is one of the old store. -/
theorem Twins.respects_before {T : Type} [TreeAlgebra T]
    (terms : before.TermCells table cells) {value : Address → T}
    (respects : after.Respects table (cells ∪ copiedCells copies pairs)
      value) : before.Respects table cells value := by
  intro address inside word found
  have formed := terms.word_formed inside found
  rcases twins.cell_cases terms.toSound inside with same |
    ⟨⟨_, found', refers⟩, -⟩
  · obtain ⟨tree, denotes⟩ := formed.denotes value
    have later := respects address (.inl inside) word (same.trans found)
    rwa [later.unique (twins.denotes_later formed denotes)]
  · cases found.symm.trans found'
    simp only [Word.Denotes, refers]

/-- The tree of a node and that of its twin are equal, or they have the same
symbol and their children are the trees of pairs. -/
theorem Twins.unfolds {T : Type} [TreeAlgebra T] {value : Address → T}
    (respects : after.Respects table (cells ∪ copiedCells copies pairs) value)
    {original copy : Word}
    (formed : original.Formed table before ⟨cells, before.allocated, cells⟩)
    (isTwin : copies.twin .retained .share original.cell = some copy.cell)
    {left right : T} (denotes : original.Denotes table before value left)
    (copyDenotes : copy.Denotes table after value right) :
    left = right ∨ ∃ symbol children others,
      left = TreeAlgebra.node symbol children ∧
      right = TreeAlgebra.node symbol others ∧
      ∀ index, ∃ pair ∈ pairs, children index = value pair.source ∧
        others index = value pair.target := by
  rcases twins.twin_cases isTwin with ⟨same, -⟩ |
    ⟨address, target, isNode, isFound, noted, twin⟩ |
    ⟨header, target, functor, isNode, isFound, -, twin⟩ |
    ⟨pair, target, isNode, isFound, -, twin⟩
  · exact .inl ((twins.denotes_later formed denotes).unique
      (copyDenotes.of_cell same.symm))
  · -- The variable was bound to its copy.
    have bound := respects address (.inl twin.inside) _
      (twins.bound rfl address _ noted)
    simp only [Word.Denotes, Word.cell_reference] at bound
    simp only [Word.Denotes, isNode] at denotes
    simp only [Word.Denotes, isFound] at copyDenotes
    exact .inl (by rw [denotes, copyDenotes, bound])
  · simp only [Word.Denotes, isNode] at denotes
    simp only [Word.Denotes, isFound] at copyDenotes
    obtain ⟨named, known, rfl⟩ := denotes
    obtain ⟨copied, alsoKnown, rfl⟩ := copyDenotes
    cases twin.known.symm.trans known
    cases twin.functorAt.symm.trans alsoKnown
    exact .inr ⟨_, _, _, rfl, rfl, fun index =>
      ⟨_, twin.paired index index.isLt, rfl, rfl⟩⟩
  · simp only [Word.Denotes, isNode] at denotes
    simp only [Word.Denotes, isFound] at copyDenotes
    refine .inr ⟨_, _, _, denotes, copyDenotes, fun index => ?_⟩
    induction index using Symbol.forall_list with
    | head => exact ⟨_, twin.head, by simp, by simp⟩
    | tail => exact ⟨_, twin.tail, rfl, rfl⟩

/-- Both cells of a pair have the same tree. -/
theorem Twins.pair_value {T : Type} [TreeAlgebra T]
    (terms : before.TermCells table cells) {value : Address → T}
    (respects : after.Respects table (cells ∪ copiedCells copies pairs) value)
    {pair : CopyTask} (isPair : pair ∈ pairs) :
    value pair.source = value pair.target := by
  refine TreeAlgebra.bisimilar_eq
    (fun left right => ∃ pair ∈ pairs, left = value pair.source ∧
      right = value pair.target) ?_ _ _ ⟨pair, isPair, rfl, rfl⟩
  rintro _ _ ⟨pair, isPair, rfl, rfl⟩
  obtain ⟨node, filled, ⟨root, word, leads, loaded, rfl⟩, found, isTwin, -, -⟩ :=
    twins.pair_word terms.toSound isPair
  have inside := twins.sources pair isPair
  have rootInside := leads.mem terms.references inside
  have old := twins.respects_before terms respects
  rw [old.leads terms.references inside leads]
  exact twins.unfolds respects (terms.word_formed rootInside loaded) isTwin
    (old root rootInside word loaded)
    (respects pair.target (.inr (.inl ⟨pair, isPair, rfl⟩)) filled found)

/-- The word of a copy is one of a term. -/
theorem Twins.formed_twin (terms : before.TermCells table cells)
    {root copy : Word} {node : Cell}
    (formed : root.Formed table before ⟨cells, before.allocated, cells⟩)
    (resolves : before.Resolves root node)
    (isTwin : copies.twin .retained .share node = some copy.cell) :
    copy.Formed table after ⟨cells ∪ copiedCells copies pairs, after.allocated,
      cells ∪ copiedCells copies pairs⟩ := by
  have ofNode (nodeSound : node.Sound table before cells)
      (isTerm : ∀ id, node ≠ .functor id) :
      copy.Formed table after ⟨cells ∪ copiedCells copies pairs,
        after.allocated, cells ∪ copiedCells copies pairs⟩ :=
    Word.formed_iff.mpr ⟨twins.sound_twin nodeSound isTwin,
      twins.twin_ne_functor isTwin isTerm⟩
  unfold Store.Resolves at resolves
  cases decoded : root.cell with
  | reference target =>
      simp only [decoded] at resolves
      simp only [Word.Formed, decoded] at formed
      exact ofNode (terms.sound_of_at formed resolves)
        (terms.ne_functor formed resolves)
  | _ =>
      simp only [decoded] at resolves
      have isNode : root.cell = node := decoded.trans resolves.symm
      obtain ⟨rootSound, notFunctor⟩ := Word.formed_iff.mp formed
      exact ofNode (isNode ▸ rootSound) (isNode ▸ notFunctor)

/-- The source and its copy denote the same tree. -/
theorem Twins.root_denotes {T : Type} [TreeAlgebra T]
    (terms : before.TermCells table cells) {value : Address → T}
    (respects : after.Respects table (cells ∪ copiedCells copies pairs) value)
    {root copy : Word} {node : Cell}
    (formed : root.Formed table before ⟨cells, before.allocated, cells⟩)
    (resolves : before.Resolves root node)
    (isTwin : copies.twin .retained .share node = some copy.cell) :
    ∃ tree, root.Denotes table before value tree ∧
      copy.Denotes table after value tree := by
  have same {original : Word} (isNode : original.cell = node)
      (originalFormed : original.Formed table before
        ⟨cells, before.allocated, cells⟩) {tree : T}
      (denotes : original.Denotes table before value tree) :
      copy.Denotes table after value tree := by
    subst isNode
    obtain ⟨originalSound, notFunctor⟩ := Word.formed_iff.mp originalFormed
    obtain ⟨other, copyDenotes⟩ := (Word.formed_iff.mpr
      ⟨twins.sound_twin originalSound isTwin,
        twins.twin_ne_functor isTwin notFunctor⟩).denotes value
    rcases twins.unfolds respects originalFormed isTwin denotes copyDenotes with
      rfl | ⟨symbol, children, others, rfl, rfl, arePairs⟩
    · exact copyDenotes
    · have equal : children = others := by
        funext index
        obtain ⟨pair, isPair, isSource, isTarget⟩ := arePairs index
        rw [isSource, isTarget, twins.pair_value terms respects isPair]
      exact equal ▸ copyDenotes
  have old := twins.respects_before terms respects
  unfold Store.Resolves at resolves
  cases decoded : root.cell with
  | reference target =>
      simp only [decoded] at resolves
      have inside : target ∈ cells := by
        simpa only [Word.Formed, decoded] using formed
      obtain ⟨last, word, leads, loaded, isNode⟩ := resolves
      have lastInside := leads.mem terms.references inside
      refine ⟨value last, ?_, same isNode (terms.word_formed lastInside loaded)
        (old last lastInside word loaded)⟩
      simp only [Word.Denotes, decoded]
      exact (old.leads terms.references inside leads).symm
  | _ =>
      simp only [decoded] at resolves
      obtain ⟨tree, denotes⟩ := formed.denotes value
      exact ⟨tree, denotes, same (decoded.trans resolves.symm) formed denotes⟩

end Copied

end LogicMachine
