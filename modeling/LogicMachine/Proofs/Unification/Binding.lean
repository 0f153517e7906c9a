import LogicMachine.Proofs.Copy.Sharing
import LogicMachine.Proofs.Unification.Pair

/-!
# Binding variables

Binding a variable adds one equation to those that a store stands for: the tree
of the variable is the tree of the word that it is bound to.  A retained
variable that meets a term of another segment is bound to a copy of the term,
which has the same tree.
-/

namespace LogicMachine

namespace Store

variable {table : FunctorTable} {region : Region} {cells larger : Set Address}
  {before after : Store}

theorem Extends.refl (region : Region) (closed : before.Closed table cells) :
    Extends table region cells before cells before where
  more := subset_rfl
  closed := closed
  grows := .refl _ _ _
  fresh := fun _ => .inl
  covered := fun _ above below => absurd below (Int32.not_lt.mpr above)
  stems := fun address inside _ found => .inl ⟨address, inside, found⟩
  acyclic := id
  agrees := fun _ _ _ => id

theorem Extends.allocated (extended : Extends table region cells before larger
    after) : before.allocated ⊆ after.allocated :=
  (Grows.refl region cells before).allocated_subset extended.grows
    extended.grows.top_le

theorem Extends.wellFormed (extended : Extends table region cells before larger
    after) (straight : before.Acyclic cells) :
    after.WellFormed table larger :=
  ⟨extended.closed, extended.acyclic straight⟩

/-- What is copied from the extended store is copied from the store before
it. -/
theorem Extends.headerCopy
    (extended : Extends table region cells before larger after)
    {final : Store} {address : Address}
    (copy : HeaderCopy region larger after final address) :
    HeaderCopy region cells before final address := by
  obtain ⟨middle, inUse, isHeader, loaded, named⟩ := copy
  by_cases old : middle ∈ before.allocated
  · have same : after.load middle = before.load middle := by
      rcases extended.grows.kept middle with same | ⟨inside, -⟩ | above
      · exact same
      · exact absurd isHeader
          (extended.closed.not_isHeader (extended.more inside))
      · exact absurd above (not_above_of_allocated old)
    refine ⟨middle, old, isHeader.of_load same.symm, loaded.trans same, ?_⟩
    rcases named with inRegion | ⟨cell, inside, word, found, decoded⟩
    · exact .inl inRegion
    · exact (extended.stems cell inside word found).header decoded
  · obtain ⟨index, rfl, up⟩ := extended.grows.above_of_allocated inUse old
    rw [allocated_below] at inUse
    obtain ⟨source, inUseThere, isOld, same, named⟩ :=
      (extended.covered index up inUse).resolve_left
        fun inside => extended.closed.not_isHeader inside isHeader
    exact ⟨source, inUseThere, isOld, loaded.trans same, named⟩

theorem Extends.trans {largest : Set Address} {final : Store}
    (first : Extends table region cells before larger after)
    (second : Extends table region larger after largest final) :
    Extends table region cells before largest final where
  more := first.more.trans second.more
  closed := second.closed
  grows := first.grows.trans second.grows first.fresh
  fresh := by
    intro address inside
    rcases second.fresh address inside with old | new
    · exact first.fresh address old
    · exact .inr (above_subset first.grows.top_le new)
  covered := by
    intro index above below
    by_cases old : index < after.top region
    · rcases first.covered index above old with inside | isHeader
      · exact .inl (second.more inside)
      · -- A functor cell is no variable, so it was not overwritten.
        rcases second.grows.kept (region.address index) with
          same | ⟨-, word, found, refers⟩ | ⟨place, equal, higher⟩
        · exact .inr (isHeader.of_load same)
        · obtain ⟨other, id, loaded, decoded⟩ := isHeader.isHeader
          rw [found] at loaded
          cases loaded
          rw [refers] at decoded
          cases decoded
        · have sameIndex : index = place := by
            simpa using congrArg Address.offset equal
          rw [sameIndex] at old
          exact absurd old (Int32.not_lt.mpr higher)
    · rcases second.covered index (Int32.not_lt.mp old) below with
        inside | copy
      · exact .inl inside
      · exact .inr (first.headerCopy copy)
  stems := by
    intro address inside word found
    rcases second.stems address inside word found with
      ⟨origin, member, loaded⟩ | new
    · exact first.stems origin member word loaded
    · exact .inr new
  acyclic := fun straight => second.acyclic (first.acyclic straight)
  agrees := fun header inside functor found =>
    second.agrees header (first.allocated inside) functor
      (first.agrees header inside functor found)

variable {T : Type} [TreeAlgebra T] {given middle remaining : List Equation}

theorem Reduces.refl : Reduces T table cells before cells before given given
    where
  sound := fun _ respects holds => ⟨respects, holds⟩
  complete := fun known respects holds =>
    ⟨known, respects, holds, fun _ _ => rfl⟩

theorem Reduces.trans {largest : Set Address} {final : Store}
    (more : cells ⊆ larger)
    (first : Reduces T table cells before larger after given middle)
    (second : Reduces T table larger after largest final middle remaining) :
    Reduces T table cells before largest final given remaining where
  sound := by
    intro value respects holds
    obtain ⟨respected, held⟩ := second.sound value respects holds
    exact first.sound value respected held
  complete := by
    intro known respects holds
    obtain ⟨value, respected, held, same⟩ :=
      first.complete known respects holds
    obtain ⟨last, lastRespects, lastHolds, lastSame⟩ :=
      second.complete value respected held
    refine ⟨last, lastRespects, lastHolds, ?_⟩
    intro address inside
    rw [lastSame address (more inside), same address inside]

/-- Equations between old cells may wait while others are worked on. -/
theorem Reduces.frame {waiting : List Equation}
    (reduces : Reduces T table cells before larger after given remaining)
    (inside : ∀ equation ∈ waiting,
      equation.left ∈ cells ∧ equation.right ∈ cells) :
    Reduces T table cells before larger after (given ++ waiting)
      (remaining ++ waiting) where
  sound := by
    intro value respects holds
    obtain ⟨respected, held⟩ := reduces.sound value respects
      fun equation member => holds equation (List.mem_append_left _ member)
    refine ⟨respected, ?_⟩
    intro equation member
    rcases List.mem_append.mp member with first | second
    · exact held equation first
    · exact holds equation (List.mem_append_right _ second)
  complete := by
    intro known respects holds
    obtain ⟨value, respected, held, same⟩ := reduces.complete known respects
      fun equation member => holds equation (List.mem_append_left _ member)
    refine ⟨value, respected, ?_, same⟩
    intro equation member
    rcases List.mem_append.mp member with first | second
    · exact held equation first
    · obtain ⟨left, right⟩ := inside equation second
      unfold Equation.Holds
      rw [same _ left, same _ right]
      exact holds equation (List.mem_append_right _ second)

/-- Binds a variable to a word. -/
theorem Extends.bind {target : Address} {word old : Word}
    (closed : before.Closed table cells) (inside : target ∈ cells)
    (found : before.load target = .ok old)
    (free : old.cell = .reference target)
    (formed : word.Formed table before ⟨cells, before.allocated, cells⟩)
    (stems : word.Stems region cells before)
    (points : target.isRetained → word.PointsInto .retained)
    (onward : before.Acyclic cells →
      ∀ next, word.cell = .reference next →
        next ≠ target ∧ before.IsRoot next) :
    Extends table region cells before cells
      ((before.record target old).put target word) := by
  have recorded : (before.record target old).load target = .ok old := found
  generalize hafter : (before.record target old).put target word = after
  have written : after.load target = .ok word := by
    rw [← hafter]
    exact load_put_self recorded word
  have same : ∀ address, address ≠ target →
      after.load address = before.load address := by
    intro address different
    rw [← hafter, load_put_of_ne recorded word different, load_record]
  have agrees (headers : Set Address) : table.Agrees headers before after := by
    apply FunctorTable.Agrees.of_ne
    intro header _
    by_cases equal : header = target
    · rw [equal]
      exact .inr ⟨target, old, found, free⟩
    · exact .inl (same header equal)
  have grows : Grows region cells before after := by
    rw [← hafter]
    exact ((Grows.refl region cells before).record target old).put recorded word
      (.inl ⟨inside, old, found, free⟩)
  have sameTop : after.top region = before.top region := by
    rw [← hafter]
    simp
  have grown : before.allocated ⊆ after.allocated :=
    (Grows.refl region cells before).allocated_subset grows grows.top_le
  constructor
  case more => exact subset_rfl
  case closed =>
    refine ⟨?_, closed.inside.trans grown, ?_⟩
    · intro address member
      by_cases equal : address = target
      · rw [equal]
        exact ⟨word, written, formed.imp ⟨subset_rfl, grown, subset_rfl⟩
          (agrees _)⟩
      · obtain ⟨other, loaded, shape⟩ := closed.formed address member
        exact ⟨other, (same _ equal).trans loaded,
          shape.imp ⟨subset_rfl, grown, subset_rfl⟩ (agrees _)⟩
    · intro address member isRetained other loaded
      by_cases equal : address = target
      · rw [equal, written] at loaded
        cases loaded
        exact points (equal ▸ isRetained)
      · rw [same _ equal] at loaded
        exact closed.retained address member isRetained other loaded
  case grows => exact grows
  case fresh => exact fun _ => .inl
  case covered =>
    rw [sameTop]
    exact fun _ above below => absurd below (Int32.not_lt.mpr above)
  case stems =>
    intro address member other loaded
    by_cases equal : address = target
    · rw [equal, written] at loaded
      cases loaded
      exact stems
    · rw [same _ equal] at loaded
      exact .inl ⟨address, member, loaded⟩
  case acyclic =>
    intro straight address member
    have ending : ∃ root, after.Leads target root := by
      by_cases isRoot : after.IsRoot target
      · exact ⟨target, .here isRoot⟩
      · have refers : ∃ next, word.cell = .reference next := by
          by_contra none
          exact isRoot ⟨word, written, fun next known =>
            absurd ⟨next, known⟩ none⟩
        obtain ⟨next, refers⟩ := refers
        obtain ⟨different, nextWord, nextFound, ends⟩ :=
          onward straight next refers
        exact ⟨next, .there written refers different
          (.here ⟨nextWord, (same _ different).trans nextFound, ends⟩)⟩
    obtain ⟨root, leads⟩ := straight address member
    refine leads.transfer closed.references ?_ member
    intro other _
    by_cases equal : other = target
    · exact .inr (equal ▸ ending)
    · exact .inl (same other equal)
  case agrees => exact agrees _

/-- Binding a variable to the word of a cell makes the two cells equal. -/
theorem Reduces.bind {target source : Address} {word old : Word}
    (closed : before.Closed table cells) (inside : target ∈ cells)
    (found : before.load target = .ok old)
    (free : old.cell = .reference target)
    (formed : word.Formed table before ⟨cells, before.allocated, cells⟩)
    (denotes : ∀ value : Address → T, before.Respects table cells value →
      word.Denotes table before value (value source)) :
    Reduces T table cells before cells
      ((before.record target old).put target word) [⟨target, source⟩] [] := by
  have recorded : (before.record target old).load target = .ok old := found
  generalize hafter : (before.record target old).put target word = after
  have written : after.load target = .ok word := by
    rw [← hafter]
    exact load_put_self recorded word
  have same : ∀ address, address ≠ target →
      after.load address = before.load address := by
    intro address different
    rw [← hafter, load_put_of_ne recorded word different, load_record]
  have agrees (headers : Set Address) : table.Agrees headers before after := by
    apply FunctorTable.Agrees.of_ne
    intro header _
    by_cases equal : header = target
    · rw [equal]
      exact .inr ⟨target, old, found, free⟩
    · exact .inl (same header equal)
  constructor
  · intro value respects _
    have earlier : before.Respects table cells value := by
      intro address member other loaded
      by_cases equal : address = target
      · rw [equal, found] at loaded
        cases loaded
        simp [Word.Denotes, free, equal]
      · obtain ⟨shape, shapeFound, shapeFormed⟩ := closed.formed address member
        rw [loaded] at shapeFound
        cases shapeFound
        exact (respects address member other
          ((same _ equal).trans loaded)).earlier shapeFormed (agrees _)
    refine ⟨earlier, ?_⟩
    intro equation member
    cases List.mem_singleton.mp member
    have atTarget := (respects target inside word written).earlier formed
      (agrees _)
    exact atTarget.unique (denotes value earlier)
  · intro known respects holds
    have equal : known target = known source := holds _ List.mem_cons_self
    refine ⟨known, ?_, by simp, fun _ _ => rfl⟩
    intro address member other loaded
    by_cases isTarget : address = target
    · rw [isTarget, written] at loaded
      cases loaded
      rw [isTarget, equal]
      exact (denotes known respects).congr formed (agrees _) (fun _ _ => rfl)
        (fun _ _ => rfl)
    · rw [same _ isTarget] at loaded
      obtain ⟨shape, shapeFound, shapeFormed⟩ := closed.formed address member
      rw [loaded] at shapeFound
      cases shapeFound
      exact (respects address member other loaded).congr shapeFormed (agrees _)
        (fun _ _ => rfl) (fun _ _ => rfl)

end Store

section Copied

variable {table : FunctorTable} {cells : Set Address} {before after : Store}
  {copies : Copies} {pairs : List CopyTask}

/-- The nodes of a term are the words of its cells, the root apart. -/
theorem Store.Sound.exists_cell (sound : before.Sound table cells)
    {source node : Cell} (sourceSound : source.Sound table before cells)
    (reached : before.Reaches table source node) :
    node.Sound table before cells ∧ (node = source ∨
      ∃ cell ∈ cells, ∃ word, before.load cell = .ok word ∧
        word.cell = node) := by
  induction reached with
  | start => exact ⟨sourceSound, .inl rfl⟩
  | part _ isPart found ih =>
      have inside := ih.1.part_mem isPart
      refine ⟨sound.sound_of_at inside found, .inr ?_⟩
      obtain ⟨root, word, leads, loaded, isNode⟩ := found
      exact ⟨root, leads.mem sound.references inside, word, loaded, isNode⟩

theorem Word.PointsInto.exists_index {word : Word} {region : Region}
    {key : Tag × Address} (into : word.PointsInto region)
    (isKey : word.cell.key? = some key) :
    ∃ tag index, some key = some (tag, region.address index) := by
  unfold Word.PointsInto at into
  cases decoded : word.cell <;> simp only [decoded, Cell.key?] at into isKey
  all_goals
    cases isKey
  all_goals
    obtain ⟨index, rfl⟩ := into
    exact ⟨_, index, rfl⟩

/-- A word that was taken over, or points at retained cells. -/
theorem Word.TakenOver.stems {word : Word}
    (taken : word.TakenOver cells before) (into : word.PointsInto .retained) :
    word.Stems .retained cells before := by
  cases isKey : word.cell.key? with
  | none => exact .inl (taken isKey)
  | some key => exact .inr (isKey ▸ into.exists_index isKey)

variable (twins : Twins table .retained .share cells before
  ⟨copies, none, ∅, pairs, []⟩ after)

include twins

/-- A copied functor cell is named by a word of the source. -/
theorem Twins.headerCopy (wellFormed : before.WellFormed table cells)
    {source : Cell} (sourceSound : source.Sound table before cells)
    (named : ∀ header, source = .compound header →
      ∃ cell ∈ cells, ∃ word, before.load cell = .ok word ∧
        word.cell = .compound header)
    (known : ∀ key copy, copies[key]? = some copy →
      ∃ other, other.key? = some key ∧ before.Reaches table source other)
    {header address : Address}
    (noted : copies.Notes .compound header (.compound address)) :
    Store.HeaderCopy .retained cells before after address := by
  obtain ⟨target, functor, isCopy, twin⟩ := twins.ofStructure header _ noted
  have same := congrArg Word.cell isCopy
  simp only [Word.cell_compound, Cell.compound.injEq] at same
  subst same
  obtain ⟨word, id, loaded, isFunctor, -⟩ := load_of_functorAt twin.known
  obtain ⟨other, isKey, reached⟩ := known _ _ noted
  have isNode : other = .compound header := by
    cases other <;> cases isKey
    rfl
  subst isNode
  refine ⟨header, twin.inside, ⟨word, id, loaded, isFunctor⟩, twin.same,
    .inr ?_⟩
  rcases (wellFormed.sound.exists_cell sourceSound reached).2 with isSource |
    found
  · exact named header isSource.symm
  · exact found

/-- A shared copy extends the store by retained cells. -/
theorem Twins.extends (wellFormed : before.WellFormed table cells)
    {source : Cell} (sourceSound : source.Sound table before cells)
    (named : ∀ header, source = .compound header →
      ∃ cell ∈ cells, ∃ word, before.load cell = .ok word ∧
        word.cell = .compound header)
    (known : ∀ key copy, copies[key]? = some copy →
      ∃ other, other.key? = some key ∧ before.Reaches table source other) :
    Store.Extends table .retained cells before
      (cells ∪ copiedCells copies pairs) after where
  more := Set.subset_union_left
  closed := (twins.wellFormed wellFormed).toClosed
  grows := twins.grows
  fresh := by
    rintro address (old | copied)
    · exact .inl old
    · exact .inr (Store.above_of_claimed (twins.claimed_of_copied copied))
  covered := by
    intro index above below
    rcases twins.covered _ ⟨index, rfl, above, below⟩ with handy | paired |
      ⟨header, noted⟩ | noted
    · cases handy
    · exact .inl (.inr (.inl paired))
    · exact .inr (twins.headerCopy wellFormed sourceSound named known noted)
    · exact .inl (.inr (.inr noted))
  stems := by
    rintro address (old | ⟨pair, isPair, rfl⟩ | ⟨source, noted⟩) word found
    · rcases twins.cell_cases wellFormed.sound old with same |
        ⟨-, -, target, bound, -, twin⟩
      · exact .inl ⟨address, old, same.symm.trans found⟩
      · cases bound.symm.trans found
        obtain ⟨index, rfl, -⟩ := twin.claimed
        exact .inr ⟨.reference, index, by simp [Cell.key?]⟩
    · obtain ⟨node, filled, -, loaded, isTwin, -, taken⟩ :=
        twins.pair_word wellFormed.sound isPair
      cases loaded.symm.trans found
      exact taken.stems (twins.pointsInto_twin isTwin)
    · have twin := twins.variable_of_noted noted
      obtain ⟨index, rfl, -⟩ := twin.claimed
      obtain ⟨_, loaded, refers⟩ := twin.isUnbound
      cases loaded.symm.trans found
      exact .inr ⟨.reference, index, by simp [refers, Cell.key?]⟩
  acyclic := fun _ => (twins.sound_later wellFormed.sound).acyclic
  agrees := twins.agrees

/-- A shared copy keeps the valuations. -/
theorem Twins.reduces (T : Type) [TreeAlgebra T]
    (terms : before.TermCells table cells) :
    Store.Reduces T table cells before (cells ∪ copiedCells copies pairs) after
      [] [] where
  sound := fun _ respects _ => ⟨twins.respects_before terms respects, by simp⟩
  complete := by
    intro known respects _
    obtain ⟨value, respected, same⟩ := twins.respects_after terms respects
    exact ⟨value, respected, by simp,
      fun address inside => same address (terms.inside inside)⟩

omit twins

/-- A word that is no variable is the node that it stands for. -/
theorem Store.Resolves.eq_of_bound {root : Word} {node : Cell}
    (resolves : before.Resolves root node) (bound : ¬ root.cell.IsVariable) :
    node = root.cell := by
  unfold Store.Resolves at resolves
  cases decoded : root.cell with
  | reference next => exact absurd ⟨next, decoded⟩ bound
  | _ => simpa only [decoded] using resolves

section Copy

variable {root copy : Word} {node : Cell}
  (copied : TermCopied table .retained .share cells before root copy node copies
    pairs after)
  (bound : ¬ root.cell.IsVariable)

include copied bound

theorem TermCopied.not_isVariable : ¬ copy.cell.IsVariable := by
  rintro ⟨next, refers⟩
  have sameTag := copied.twins.tag_twin copied.twin
  rw [refers, copied.resolves.eq_of_bound bound] at sameTag
  exact bound ⟨_, Word.tag_eq_reference_iff.mp
    ((Word.tag_of_cell rfl).trans sameTag.symm)⟩

/-- A copy that points nowhere is the word that was copied. -/
theorem TermCopied.eq_of_atom (isAtom : copy.cell.key? = none) :
    copy = root := by
  have ends := copied.atomic isAtom
  unfold Store.EndsIn at ends
  cases decoded : root.cell with
  | reference next => exact absurd ⟨next, decoded⟩ bound
  | _ => simpa only [decoded] using ends

variable {address : Address} (inside : address ∈ cells)
  (found : before.load address = .ok root)

include inside found

theorem TermCopied.extends (wellFormed : before.WellFormed table cells) :
    Store.Extends table .retained cells before
      (cells ∪ copiedCells copies pairs) after := by
  refine copied.twins.extends wellFormed copied.sound ?_ copied.known
  intro header isNode
  exact ⟨address, inside, root, found,
    (copied.resolves.eq_of_bound bound).symm.trans isNode⟩

theorem TermCopied.stems (sound : before.Sound table cells) :
    copy.Stems .retained (cells ∪ copiedCells copies pairs) after := by
  cases isKey : copy.cell.key? with
  | none =>
      refine .inl ⟨address, .inl inside, ?_⟩
      rw [copied.eq_of_atom bound isKey]
      rcases copied.twins.cell_cases sound inside with same |
        ⟨⟨other, loaded, refers⟩, -⟩
      · exact same.trans found
      · cases found.symm.trans loaded
        exact absurd ⟨_, refers⟩ bound
  | some key =>
      exact .inr (isKey ▸
        (copied.twins.pointsInto_twin copied.twin).exists_index isKey)

end Copy

end Copied

section Bind

variable {T : Type} [TreeAlgebra T] {table : FunctorTable}
  {cells : Set Address} {before : Store}

/-- What is left when a list of equations was worked on: fewer equations in a
store that may have more cells. -/
def Reduced (T : Type) [TreeAlgebra T] (table : FunctorTable)
    (cells : Set Address) (before : Store) (given remaining : List Equation)
    (after : Store) : Prop :=
  ∃ larger, Store.Extends table .retained cells before larger after ∧
    Store.Reduces T table cells before larger after given remaining ∧
    ∀ equation ∈ remaining, equation.left ∈ larger ∧ equation.right ∈ larger

/-- The end of a chain of references. -/
structure Store.RootAt (store : Store) (cells : Set Address)
    (address : Address) (word : Word) : Prop where
  inside : address ∈ cells
  found : store.load address = .ok word
  ends : ∀ next, word.cell = .reference next → next = address

/-- A variable cannot be bound to a term, because the term would have to be
copied and its copy does not fit. -/
structure Store.Crowded (table : FunctorTable) (store : Store)
    (target source : Address) : Prop where
  isRetained : target.isRetained
  unbound : store.Unbound target
  notRetained : source.isRetained = false
  exceeds : ∃ word, store.load source = .ok word ∧ ¬ word.cell.IsVariable ∧
    store.Exceeds table .retained .share word

variable {target source : Address} {old value : Word}

theorem Store.RootAt.eq_self {address : Address} {word : Word}
    (root : before.RootAt cells address word) (free : word.cell.IsVariable) :
    word.cell = .reference address := by
  obtain ⟨next, refers⟩ := free
  rw [refers, root.ends next refers]

/-- A variable was bound to the copy of a term. -/
theorem TermCopied.reduced (wellFormed : before.WellFormed table cells)
    {copy : Word} {node : Cell} {copies : Copies} {pairs : List CopyTask}
    {middle : Store}
    (copied : TermCopied table .retained .share cells before value copy node
      copies pairs middle)
    (bound : ¬ value.cell.IsVariable)
    (sourceInside : source ∈ cells) (sourceFound : before.load source = .ok value)
    (targetInside : target ∈ cells) (targetFound : middle.load target = .ok old)
    (self : old.cell = .reference target) :
    Reduced T table cells before [⟨target, source⟩] []
      ((middle.record target old).put target copy) := by
  have twins := copied.twins
  have terms := wellFormed.termCells
  have formed := terms.word_formed sourceInside sourceFound
  have extended := copied.extends bound sourceInside sourceFound wellFormed
  have copyFormed := twins.formed_twin terms formed copied.resolves copied.twin
  have copyBound := copied.not_isVariable bound
  have inLarger := extended.more targetInside
  have stored := Store.Extends.bind extended.closed inLarger targetFound self
    copyFormed (copied.stems bound sourceInside sourceFound wellFormed.sound)
    (fun _ => twins.pointsInto_twin copied.twin)
    fun _ next refers => absurd ⟨next, refers⟩ copyBound
  have denotes (assignment : Address → T)
      (respects : middle.Respects table (cells ∪ copiedCells copies pairs)
        assignment) :
      copy.Denotes table middle assignment (assignment source) := by
    obtain ⟨tree, ofSource, ofCopy⟩ := twins.root_denotes terms respects formed
      copied.resolves copied.twin
    have atSource := twins.respects_before terms respects source sourceInside
      value sourceFound
    exact atSource.unique ofSource ▸ ofCopy
  have framed := @Store.Reduces.frame _ _ _ _ _ _ _ _ _ [⟨target, source⟩]
    (twins.reduces T terms) (by simp [targetInside, sourceInside])
  exact ⟨_, extended.trans stored, framed.trans extended.more (.bind
    extended.closed inLarger targetFound self copyFormed denotes), nofun⟩

theorem bindTo_ends (wellFormed : before.WellFormed table cells)
    (small : before.capacity .retained < 2 ^ 31)
    (targetRoot : before.RootAt cells target old)
    (free : old.cell.IsVariable)
    (sourceRoot : before.RootAt cells source value)
    (different : source ≠ target)
    (order : target.isRetained → value.cell.IsVariable → source.isRetained) :
    Ends (StoreM.bindTo table target source value before)
      (fun _ => Reduced T table cells before [⟨target, source⟩] [])
      (fun fault _ =>
        fault = .exhausted .retained (before.capacity .retained) ∧
          before.Crowded table target source) := by
  have self := targetRoot.eq_self free
  have formed := wellFormed.termCells.word_formed sourceRoot.inside
    sourceRoot.found
  unfold StoreM.bindTo
  by_cases copies : (target.isRetained && !source.isRetained) = true
  · rw [if_pos copies, ends_bind]
    simp only [Bool.and_eq_true, Bool.not_eq_true'] at copies
    obtain ⟨isRetained, notRetained⟩ := copies
    have bound : ¬ value.cell.IsVariable := by
      intro refers
      rw [order isRetained refers] at notRetained
      cases notRetained
    refine (copyTerm_twins wellFormed.sound (.inr rfl) small formed.sound).imp
      ?_ ?_
    · rintro copy middle ⟨node, copies, pairs, copied⟩
      have targetFound : middle.load target = .ok old := by
        rcases copied.twins.cell_cases wellFormed.sound targetRoot.inside with
          same | ⟨-, unretained, -⟩
        · exact same.trans targetRoot.found
        · rw [isRetained] at unretained
          cases unretained
      rw [StoreM.store_eq targetFound, ends_ok]
      exact copied.reduced wellFormed bound sourceRoot.inside sourceRoot.found
        targetRoot.inside targetFound self
    · rintro fault _ ⟨rfl, exceeds⟩
      exact ⟨rfl, isRetained, ⟨old, targetRoot.found, self⟩, notRetained, value,
        sourceRoot.found, bound, exceeds⟩
  · rw [if_neg copies, StoreM.store_eq targetRoot.found, ends_ok]
    refine ⟨cells, ?_, ?_, nofun⟩
    · refine .bind wellFormed.toClosed targetRoot.inside targetRoot.found self
        formed (.inl ⟨source, sourceRoot.inside, sourceRoot.found⟩) ?_ ?_
      · intro isRetained
        have sourceRetained : source.isRetained = true := by
          simpa [isRetained] using copies
        exact wellFormed.retained source sourceRoot.inside sourceRetained value
          sourceRoot.found
      · intro _ next refers
        rw [sourceRoot.ends next refers]
        exact ⟨different, value, sourceRoot.found, sourceRoot.ends⟩
    · refine .bind wellFormed.toClosed targetRoot.inside targetRoot.found self
        formed ?_
      intro assignment respects
      exact respects source sourceRoot.inside value sourceRoot.found

/-- The sides of an equation may change places. -/
theorem Reduced.swap {left right : Address} {after : Store}
    (reduced : Reduced T table cells before [⟨left, right⟩] [] after) :
    Reduced T table cells before [⟨right, left⟩] [] after := by
  obtain ⟨larger, extended, reduces, sides⟩ := reduced
  refine ⟨larger, extended, ⟨?_, ?_⟩, sides⟩
  · intro value respects holds
    obtain ⟨respected, held⟩ := reduces.sound value respects holds
    refine ⟨respected, ?_⟩
    intro equation member
    cases List.mem_singleton.mp member
    exact (held _ List.mem_cons_self).symm
  · intro known respects holds
    refine reduces.complete known respects ?_
    intro equation member
    cases List.mem_singleton.mp member
    exact (holds _ List.mem_cons_self).symm

/-- References between variables never leave the retained segment. -/
theorem isRetained_of_before {left right : Address}
    (isRetained : right.isRetained = true) (isCell : left.IsCell)
    (order : left.before right = true) : left.isRetained = true := by
  cases left with
  | retained _ => rfl
  | heap _ | stack _ =>
      cases right with
      | retained _ => simp [Address.before, Address.segment] at order
      | _ => cases isRetained
  | _ => cases isCell

theorem isRetained_of_not_before {left right : Address}
    (isRetained : left.isRetained = true) (isCell : right.IsCell)
    (order : ¬ left.before right = true) : right.isRetained = true := by
  cases right with
  | retained _ => rfl
  | heap _ | stack _ =>
      cases left with
      | retained _ => simp [Address.before, Address.segment] at order
      | _ => cases isRetained
  | _ => cases isCell

/-- Of two roots one that is a variable is bound to the other.  A retained
variable is never bound to a variable of another segment. -/
theorem bindVariable_cases {first second : Address}
    {firstWord secondWord : Word}
    (firstRoot : before.RootAt cells first firstWord)
    (secondRoot : before.RootAt cells second secondWord)
    (free : firstWord.cell.IsVariable ∨ secondWord.cell.IsVariable) :
    (StoreM.bindVariable table first second before =
        StoreM.bindTo table first second secondWord before ∧
      firstWord.cell.IsVariable ∧ (first.isRetained →
        secondWord.cell.IsVariable → second.isRetained)) ∨
    (StoreM.bindVariable table first second before =
        StoreM.bindTo table second first firstWord before ∧
      secondWord.cell.IsVariable ∧ (second.isRetained →
        firstWord.cell.IsVariable → first.isRetained)) := by
  have isReference {word : Word} : word.tag = .reference ↔
      word.cell.IsVariable :=
    ⟨fun tagged => ⟨_, Word.tag_eq_reference_iff.mp tagged⟩,
      fun ⟨_, refers⟩ => Word.tag_of_cell refers⟩
  simp only [StoreM.bindVariable, StoreM.load, bind, EStateM.bind, StoreM.read,
    firstRoot.found, secondRoot.found]
  by_cases forward : (firstWord.tag == .reference &&
      (secondWord.tag != .reference || second.before first)) = true
  · rw [if_pos forward]
    simp only [Bool.and_eq_true, Bool.or_eq_true, beq_iff_eq, bne_iff_ne]
      at forward
    obtain ⟨isFree, orders⟩ := forward
    refine .inl ⟨rfl, isReference.mp isFree, fun isRetained refers => ?_⟩
    rcases orders with bound | older
    · exact absurd (isReference.mpr refers) bound
    · exact isRetained_of_before isRetained
        (Store.isCell_of_load secondRoot.found).1 older
  · rw [if_neg forward]
    simp only [Bool.and_eq_true, Bool.or_eq_true, beq_iff_eq, bne_iff_ne,
      not_and, not_or, not_not] at forward
    refine .inr ⟨rfl, ?_, fun isRetained refers => ?_⟩
    · rcases free with firstFree | known
      · exact isReference.mp (forward (isReference.mpr firstFree)).1
      · exact known
    · exact isRetained_of_not_before isRetained
        (Store.isCell_of_load firstRoot.found).1
        (forward (isReference.mpr refers)).2

variable (T) in
theorem bindVariable_ends (wellFormed : before.WellFormed table cells)
    (small : before.capacity .retained < 2 ^ 31)
    {first second : Address} {firstWord secondWord : Word}
    (firstRoot : before.RootAt cells first firstWord)
    (secondRoot : before.RootAt cells second secondWord)
    (different : first ≠ second)
    (free : firstWord.cell.IsVariable ∨ secondWord.cell.IsVariable) :
    Ends (StoreM.bindVariable table first second before)
      (fun _ => Reduced T table cells before [⟨first, second⟩] [])
      (fun fault _ =>
        fault = .exhausted .retained (before.capacity .retained) ∧
          (before.Crowded table first second ∨
            before.Crowded table second first)) := by
  rcases bindVariable_cases firstRoot secondRoot free with
    ⟨binds, isFree, order⟩ | ⟨binds, isFree, order⟩
  · rw [binds]
    exact (bindTo_ends wellFormed small firstRoot isFree secondRoot
      different.symm order).imp (fun _ _ => id)
      (fun _ _ full => ⟨full.1, .inl full.2⟩)
  · rw [binds]
    exact (bindTo_ends wellFormed small secondRoot isFree firstRoot different
      order).imp (fun _ _ => Reduced.swap)
      (fun _ _ full => ⟨full.1, .inr full.2⟩)

end Bind

end LogicMachine
