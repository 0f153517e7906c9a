import Mathlib.Data.Set.Function
import LogicMachine.Proofs.Copy.Following

/-!
# Fresh copies are isomorphic

The graph of a fresh copy is the graph of its source with other cells.  Nodes
and twins correspond one to one, with the same symbols and with corresponding
parts at the same positions.  All cells of the copy are new, and nothing else
has changed.
-/

namespace LogicMachine

/-- A map of the nodes of one term to the nodes of another that keeps symbols
and the positions of parts. -/
structure Homomorphic (table : FunctorTable) (before after : Store)
    (image : Cell → Cell) (source target : Cell) : Prop where
  root : image source = target
  tags : ∀ node, before.Reaches table source node →
    (image node).tag = node.tag
  /-- Constants and opaque payloads are themselves. -/
  atoms : ∀ node, before.Reaches table source node → node.key? = none →
    image node = node
  functors : ∀ header, before.Reaches table source (.compound header) →
    ∃ other functor, image (.compound header) = .compound other ∧
      table.functorAt before header = .ok functor ∧
      table.functorAt after other = .ok functor
  parts : ∀ node index address next, before.Reaches table source node →
    before.Part table node index address → before.At address next →
    ∃ other, after.Part table (image node) index other ∧
      after.At other (image next)

/-- A correspondence between the nodes of two terms. -/
structure Isomorphic (table : FunctorTable) (before after : Store)
    (image : Cell → Cell) (source target : Cell) : Prop extends
    Homomorphic table before after image source target where
  bijective : Set.BijOn image { node | before.Reaches table source node }
    { node | after.Reaches table target node }

/-- Retained cells point at retained cells only, because they outlive all
others. -/
def Store.Outlives (store : Store) (cells : Set Address) : Prop :=
  ∀ address ∈ cells, address.isRetained → ∀ word,
    store.load address = .ok word → word.PointsInto .retained

/-- A node that is found at retained cells, or one that points nowhere. -/
def Cell.IsKept (region : Region) (mode : CopyMode) (node : Cell) : Prop :=
  ∀ key, node.key? = some key → StoreM.shares region mode key.2 = true

section Twins

variable {table : FunctorTable} {region : Region} {mode : CopyMode}
  {cells : Set Address} {before after : Store} {copies : Copies}
  {pairs : List CopyTask}

theorem shares_iff {address : Address} :
    StoreM.shares region mode address = true ↔
      mode = .share ∧ region = .retained ∧ address.isRetained = true := by
  simp [StoreM.shares, and_assoc]

theorem isRetained_eq {address : Address} (isRetained : address.isRetained) :
    ∃ index, address = Region.retained.address index := by
  cases address with
  | retained index => exact ⟨index, rfl⟩
  | _ => cases isRetained

/-- The kinds of twins. -/
theorem Twins.twin_cases {stage : CopyStage}
    (twins : Twins table region mode cells before stage after)
    {node found : Cell}
    (isTwin : stage.copies.twin region mode node = some found) :
    (found = node ∧ (node.key? = none ∨ ∃ key, node.key? = some key ∧
      StoreM.shares region mode key.2 = true)) ∨
    (∃ address target, node = .reference address ∧
      found = .reference target ∧
      stage.copies.Notes .reference address (.reference target) ∧
      VariableTwin region cells before stage after address target) ∨
    (∃ header target functor, node = .compound header ∧
      found = .compound target ∧
      stage.copies.Notes .compound header (.compound target) ∧
      StructureTwin table region before stage after header target functor) ∨
    (∃ pair target, node = .list pair ∧ found = .list target ∧
      stage.copies.Notes .list pair (.list target) ∧
      ListTwin region before stage after pair target) := by
  cases isKey : node.key? with
  | none =>
      rw [Copies.twin_of_no_key isKey] at isTwin
      exact .inl ⟨(Option.some.inj isTwin).symm, .inl rfl⟩
  | some key =>
      by_cases shared : StoreM.shares region mode key.2 = true
      · rw [Copies.twin_of_shares isKey shared] at isTwin
        exact .inl ⟨(Option.some.inj isTwin).symm, .inr ⟨key, rfl, shared⟩⟩
      · simp only [Copies.twin, isKey, shared, Bool.false_eq_true, if_false,
          Option.map_eq_some_iff] at isTwin
        obtain ⟨copy, noted, rfl⟩ := isTwin
        cases node with
        | reference address =>
            cases isKey
            obtain ⟨target, rfl, twin⟩ := twins.ofVariable address copy noted
            exact .inr (.inl ⟨address, target, rfl, by simp, noted, twin⟩)
        | compound header =>
            cases isKey
            obtain ⟨target, functor, rfl, twin⟩ :=
              twins.ofStructure header copy noted
            exact .inr (.inr (.inl ⟨header, target, functor, rfl, by simp,
              noted, twin⟩))
        | list pair =>
            cases isKey
            obtain ⟨target, rfl, twin⟩ := twins.ofList pair copy noted
            exact .inr (.inr (.inr ⟨pair, target, rfl, by simp, noted, twin⟩))
        | _ => cases isKey

/-- The copied functor cell names the functor of its source. -/
theorem StructureTwin.functorAt {stage : CopyStage} {header target : Address}
    {functor : Functor}
    (twin : StructureTwin table region before stage after header target
      functor) : table.functorAt after target = .ok functor := by
  obtain ⟨word, id, found, decoded, known⟩ := load_of_functorAt twin.known
  exact functorAt_of_load (twin.same.trans found) decoded known

/-- The twin of an unbound variable is one. -/
theorem Twins.unbound_twin {stage : CopyStage}
    (twins : Twins table region mode cells before stage after)
    (sound : before.Sound table cells) {node : Cell}
    (nodeSound : node.Sound table before cells)
    (unbound : ∀ address, node = .reference address → before.Unbound address)
    {target : Address}
    (isTwin : stage.copies.twin region mode node = some (.reference target)) :
    after.Unbound target := by
  rcases twins.twin_cases isTwin with ⟨rfl, shared⟩ |
    ⟨_, other, -, isFound, -, twin⟩ | ⟨_, _, _, -, isFound, -⟩ |
    ⟨_, _, -, isFound, -⟩
  · -- A shared variable was not bound.
    have isShared : StoreM.shares region mode target = true := by
      simpa [Cell.key?] using shared
    rcases twins.kept target (sound.inside nodeSound) with unchanged |
      ⟨-, -, copy, noted, -⟩
    · unfold Store.Unbound
      rw [unchanged]
      exact unbound target rfl
    · rw [twins.copied _ _ _ noted] at isShared
      cases isShared
  · cases isFound
    exact twin.isUnbound
  · cases isFound
  · cases isFound

/-- A word that shows a twin resolves to it. -/
theorem Twins.resolves_twin {stage : CopyStage}
    (twins : Twins table region mode cells before stage after)
    (sound : before.Sound table cells) {node : Cell}
    (nodeSound : node.Sound table before cells)
    (unbound : ∀ address, node = .reference address → before.Unbound address)
    {word : Word}
    (isTwin : stage.copies.twin region mode node = some word.cell) :
    after.Resolves word word.cell := by
  unfold Store.Resolves
  cases refers : word.cell with
  | reference target =>
      obtain ⟨last, present, isLast⟩ := twins.unbound_twin sound nodeSound
        unbound (isTwin.trans (congrArg some refers))
      have shown := Store.At.of_load present (by simp [isLast])
      rwa [isLast] at shown
  | _ => rfl

/-- A cell that holds the twin of a node shows it. -/
theorem Twins.at_twin {stage : CopyStage}
    (twins : Twins table region mode cells before stage after)
    (sound : before.Sound table cells) {node : Cell}
    (nodeSound : node.Sound table before cells)
    (unbound : ∀ address, node = .reference address → before.Unbound address)
    {address : Address} {word : Word} (found : after.load address = .ok word)
    (isTwin : stage.copies.twin region mode node = some word.cell) :
    after.At address word.cell := by
  cases refers : word.cell with
  | reference target =>
      obtain ⟨last, present, isLast⟩ := twins.unbound_twin sound nodeSound
        unbound (isTwin.trans (congrArg some refers))
      by_cases same : target = address
      · exact refers ▸ .of_load found (by simp [refers, same])
      · exact ⟨target, last, .there found refers same
          (.here ⟨last, present, by simp [isLast]⟩), present, isLast⟩
  | _ => exact refers ▸ .of_load found (by simp [refers])

/-- When nothing is queued any more, every pair shows a node and its twin. -/
theorem Twins.pair_at
    (twins : Twins table region mode cells before
      ⟨copies, none, ∅, pairs, []⟩ after)
    (sound : before.Sound table cells) {pair : CopyTask}
    (inside : pair ∈ pairs) :
    ∃ node found, before.At pair.source node ∧ after.At pair.target found ∧
      copies.twin region mode node = some found := by
  rcases twins.finished pair inside with waiting | active |
    ⟨node, word, shown, loaded, isTwin, -⟩
  · cases waiting
  · cases active
  · have inCells := twins.sources pair inside
    exact ⟨node, word.cell, shown, twins.at_twin sound
      (sound.sound_of_at inCells shown)
      (fun address isReference => (isReference ▸ shown).unbound.1) loaded
      isTwin, isTwin⟩

/-- Kept nodes are their own twins. -/
theorem Copies.twin_of_isKept {node : Cell} (isKept : node.IsKept region mode) :
    copies.twin region mode node = some node := by
  cases isKey : node.key? with
  | none => exact twin_of_no_key isKey
  | some key => exact twin_of_shares isKey (isKept key isKey)

/-- The functor cells of the source have not changed. -/
theorem Twins.functorAt_later {stage : CopyStage}
    (twins : Twins table region mode cells before stage after)
    {header : Address} (inUse : header ∈ before.allocated) {functor : Functor}
    (known : table.functorAt before header = .ok functor) :
    table.functorAt after header = .ok functor := by
  obtain ⟨word, id, found, isFunctor, named⟩ := load_of_functorAt known
  rcases twins.kept header inUse with same | ⟨-, ⟨_, found', refers⟩, -⟩
  · exact functorAt_of_load (same.trans found) isFunctor named
  · cases found.symm.trans found'
    simp [isFunctor] at refers

/-- A chain that starts in retained cells stays there. -/
theorem Store.Sound.isKept_of_at (sound : before.Sound table cells)
    (outlives : before.Outlives cells) {address : Address} (inside : address ∈ cells)
    (isRetained : address.isRetained) {node : Cell}
    (shown : before.At address node) : node.IsKept .retained .share := by
  obtain ⟨root, word, leads, loaded, rfl⟩ := shown
  induction leads with
  | @here address isRoot =>
      have points := outlives address inside isRetained word loaded
      unfold Word.PointsInto at points
      intro key isKey
      cases decoded : word.cell <;> rw [decoded] at isKey <;>
        simp only [decoded] at points <;> cases isKey
      all_goals
        obtain ⟨index, rfl⟩ := points
        rfl
  | @there address next root first found refers _ _ ih =>
      have points := outlives address inside isRetained first found
      unfold Word.PointsInto at points
      simp only [refers] at points
      obtain ⟨index, rfl⟩ := points
      exact ih (sound.references _ inside _ found _ refers) rfl loaded

/-- A part of a node and the part of its twin at the same position show a node
and its twin. -/
theorem Twins.part_at
    (twins : Twins table region mode cells before
      ⟨copies, none, ∅, pairs, []⟩ after)
    (sound : before.Sound table cells)
    (outlives : mode = .share → before.Outlives cells)
    {node found next : Cell} (nodeSound : node.Sound table before cells)
    (isTwin : copies.twin region mode node = some found)
    {index : Nat} {address : Address}
    (isPart : before.Part table node index address)
    (shown : before.At address next) :
    ∃ other last, after.Part table found index other ∧ after.At other last ∧
      copies.twin region mode next = some last := by
  have paired {other : Address} (inside : ⟨address, other⟩ ∈ pairs)
      (isOther : after.Part table found index other) :
      ∃ other last, after.Part table found index other ∧ after.At other last ∧
        copies.twin region mode next = some last := by
    obtain ⟨shownNode, last, shown', later, isLast⟩ :=
      twins.pair_at sound inside
    cases shown.unique shown'
    exact ⟨other, last, isOther, later, isLast⟩
  rcases twins.twin_cases isTwin with ⟨rfl, noKey | ⟨key, isKey, shared⟩⟩ |
    ⟨_, _, rfl, rfl, -⟩ | ⟨header, target, functor, rfl, rfl, -, twin⟩ |
    ⟨pair, target, rfl, rfl, -, twin⟩
  · cases isPart <;> cases noKey
  · -- The parts of a retained node are retained and have not changed.
    obtain ⟨rfl, rfl, isRetained⟩ := shares_iff.mp shared
    have inside := nodeSound.part_mem isPart
    have partRetained : address.isRetained := by
      cases isPart <;> cases isKey <;>
        simpa only [Address.isRetained_plus] using isRetained
    have isKept := sound.isKept_of_at (outlives rfl) inside partRetained shown
    have unchanged : Twins.shownAs .share copies next = next := by
      cases next with
      | reference target =>
          cases noted : copies[(Tag.reference, target)]? with
          | none => simp [Twins.shownAs, noted]
          | some copy =>
              have unshared := twins.copied _ _ _ noted
              rw [isKept _ rfl] at unshared
              cases unshared
      | _ => rfl
    refine ⟨address, next, ?_, unchanged ▸ twins.at_later sound inside shown,
      Copies.twin_of_isKept isKept⟩
    cases isPart with
    | argument known below =>
        exact .argument (twins.functorAt_later nodeSound.1 known) below
    | head => exact .head _
    | tail => exact .tail _
  · cases isPart
  · cases isPart with
    | argument known below =>
        cases twin.known.symm.trans known
        exact paired (twin.paired _ below) (.argument twin.functorAt below)
  · cases isPart with
    | head => exact paired twin.head (.head target)
    | tail => exact paired twin.tail (.tail target)

/-- Every node of the source is sound and has a twin. -/
theorem Twins.reaches_twin
    (twins : Twins table region mode cells before
      ⟨copies, none, ∅, pairs, []⟩ after)
    (sound : before.Sound table cells)
    (outlives : mode = .share → before.Outlives cells)
    {source target : Cell} (sourceSound : source.Sound table before cells)
    (isTwin : copies.twin region mode source = some target) {node : Cell}
    (reached : before.Reaches table source node) :
    node.Sound table before cells ∧
      ∃ found, copies.twin region mode node = some found ∧
        after.Reaches table target found := by
  induction reached with
  | start => exact ⟨sourceSound, target, isTwin, .start⟩
  | part _ isPart found ih =>
      obtain ⟨nodeSound, twin, isNodeTwin, reachesTwin⟩ := ih
      obtain ⟨other, last, isOther, later, isNextTwin⟩ :=
        twins.part_at sound outlives nodeSound isNodeTwin isPart found
      exact ⟨sound.sound_of_at (nodeSound.part_mem isPart) found, last,
        isNextTwin, .part reachesTwin isOther later⟩

/-- Twins keep the symbols of their nodes. -/
theorem Twins.tag_twin {stage : CopyStage}
    (twins : Twins table region mode cells before stage after)
    {node found : Cell}
    (isTwin : stage.copies.twin region mode node = some found) :
    found.tag = node.tag := by
  rcases twins.twin_cases isTwin with ⟨rfl, -⟩ | ⟨_, _, rfl, rfl, -⟩ |
    ⟨_, _, _, rfl, rfl, -⟩ | ⟨_, _, rfl, rfl, -⟩ <;> rfl

/-- The twins of the nodes of a term form a term with the same symbols and
positions. -/
theorem Twins.homomorphic
    (twins : Twins table region mode cells before
      ⟨copies, none, ∅, pairs, []⟩ after)
    (sound : before.Sound table cells)
    (outlives : mode = .share → before.Outlives cells)
    {source target : Cell} (sourceSound : source.Sound table before cells)
    (isTwin : copies.twin region mode source = some target) :
    Homomorphic table before after
      (fun node => (copies.twin region mode node).getD node) source
      target := by
  have reaches {node : Cell} (reached : before.Reaches table source node) :
      node.Sound table before cells ∧ copies.twin region mode node =
        some ((copies.twin region mode node).getD node) := by
    obtain ⟨nodeSound, found, isFound, -⟩ :=
      twins.reaches_twin sound outlives sourceSound isTwin reached
    rw [isFound, Option.getD_some]
    exact ⟨nodeSound, rfl⟩
  refine ⟨by rw [isTwin, Option.getD_some], ?_, ?_, ?_, ?_⟩
  · intro node reached
    exact twins.tag_twin (reaches reached).2
  · intro node _ noKey
    simp only [Copies.twin_of_no_key noKey, Option.getD_some]
  · intro header reached
    obtain ⟨⟨inUse, functor, known, -⟩, isImage⟩ := reaches reached
    rcases twins.twin_cases isImage with ⟨same, -⟩ | ⟨_, _, isReference, -⟩ |
      ⟨other, found, functor, isHeader, isFound, -, twin⟩ | ⟨_, _, isList, -⟩
    · exact ⟨header, functor, same, known, twins.functorAt_later inUse known⟩
    · cases isReference
    · cases isHeader
      exact ⟨found, functor, isFound, twin.known, twin.functorAt⟩
    · cases isList
  · intro node index address next reached isPart found
    obtain ⟨nodeSound, isImage⟩ := reaches reached
    obtain ⟨other, last, isOther, later, isNextTwin⟩ :=
      twins.part_at sound outlives nodeSound isImage isPart found
    refine ⟨other, isOther, ?_⟩
    simpa only [isNextTwin, Option.getD_some] using later

end Twins

section Fresh

variable {table : FunctorTable} {region : Region} {cells : Set Address}
  {before after : Store} {copies : Copies} {pairs : List CopyTask}

theorem shares_fresh (address : Address) :
    StoreM.shares region .fresh address = false := by
  simp [StoreM.shares]

/-- The parts of a twin come from the parts of the node. -/
theorem Twins.part_of_twin
    (twins : Twins table region .fresh cells before
      ⟨copies, none, ∅, pairs, []⟩ after)
    {node found : Cell} (isTwin : copies.twin region .fresh node = some found)
    {index : Nat} {other : Address}
    (isPart : after.Part table found index other) :
    ∃ address, before.Part table node index address ∧
      ⟨address, other⟩ ∈ pairs := by
  rcases twins.twin_cases isTwin with ⟨same, noKey | ⟨_, _, shared⟩⟩ |
    ⟨_, _, rfl, rfl, -⟩ | ⟨header, target, functor, rfl, rfl, -, twin⟩ |
    ⟨pair, target, rfl, rfl, -, twin⟩
  · subst same
    cases isPart <;> cases noKey
  · rw [shares_fresh] at shared
    cases shared
  · cases isPart
  · cases isPart with
    | argument known below =>
        cases twin.functorAt.symm.trans known
        exact ⟨_, .argument twin.known below, twin.paired _ below⟩
  · cases isPart with
    | head => exact ⟨_, .head pair, twin.head⟩
    | tail => exact ⟨_, .tail pair, twin.tail⟩

/-- Different nodes have different twins. -/
theorem Twins.twin_injective
    (twins : Twins table region .fresh cells before
      ⟨copies, none, ∅, pairs, []⟩ after)
    {node other found : Cell}
    (isTwin : copies.twin region .fresh node = some found)
    (again : copies.twin region .fresh other = some found) : node = other := by
  rcases twins.twin_cases isTwin with ⟨rfl, noKey | ⟨_, _, shared⟩⟩ |
    ⟨_, _, rfl, rfl, noted, -⟩ | ⟨_, _, _, rfl, rfl, noted, -⟩ |
    ⟨_, _, rfl, rfl, noted, -⟩
  · rcases twins.twin_cases again with ⟨same, -⟩ | ⟨_, _, -, rfl, -⟩ |
      ⟨_, _, _, -, rfl, -⟩ | ⟨_, _, -, rfl, -⟩
    · exact same
    all_goals cases noKey
  · rw [shares_fresh] at shared
    cases shared
  all_goals
    rcases twins.twin_cases again with ⟨rfl, noKey | ⟨_, _, shared⟩⟩ |
      ⟨_, _, rfl, isFound, noted', -⟩ | ⟨_, _, _, rfl, isFound, noted', -⟩ |
      ⟨_, _, rfl, isFound, noted', -⟩
    · cases noKey
    · rw [shares_fresh] at shared
      cases shared
    all_goals cases isFound
    cases twins.injective _ _ _ _ noted noted'
    rfl

/-- Every node of the copy is the twin of a node of the source. -/
theorem Twins.reaches_of_twin
    (twins : Twins table region .fresh cells before
      ⟨copies, none, ∅, pairs, []⟩ after)
    (sound : before.Sound table cells) {source target : Cell}
    (isTwin : copies.twin region .fresh source = some target) {found : Cell}
    (reached : after.Reaches table target found) :
    ∃ node, copies.twin region .fresh node = some found ∧
      before.Reaches table source node := by
  induction reached with
  | start => exact ⟨source, isTwin, .start⟩
  | part _ isPart found ih =>
      obtain ⟨node, isNodeTwin, reaches⟩ := ih
      obtain ⟨address, isAddress, paired⟩ :=
        twins.part_of_twin isNodeTwin isPart
      obtain ⟨next, last, shown, shownLater, isNextTwin⟩ :=
        twins.pair_at sound paired
      cases shownLater.unique found
      exact ⟨next, isNextTwin, .part reaches isAddress shown⟩

/-- Nodes and twins correspond. -/
theorem Twins.isomorphic
    (twins : Twins table region .fresh cells before
      ⟨copies, none, ∅, pairs, []⟩ after)
    (sound : before.Sound table cells) {source target : Cell}
    (sourceSound : source.Sound table before cells)
    (isTwin : copies.twin region .fresh source = some target) :
    Isomorphic table before after
      (fun node => (copies.twin region .fresh node).getD node) source
      target := by
  have image {node : Cell} (reached : before.Reaches table source node) :
      copies.twin region .fresh node =
          some ((copies.twin region .fresh node).getD node) ∧
        after.Reaches table target
          ((copies.twin region .fresh node).getD node) := by
    obtain ⟨-, found, isFound, reachesTwin⟩ :=
      twins.reaches_twin sound nofun sourceSound isTwin reached
    rw [isFound, Option.getD_some]
    exact ⟨rfl, reachesTwin⟩
  refine ⟨twins.homomorphic sound nofun sourceSound isTwin, ?_, ?_, ?_⟩
  · exact fun node reached => (image reached).2
  · intro node reached other otherReached same
    refine twins.twin_injective (image reached).1 ?_
    dsimp only at same
    rw [same]
    exact (image otherReached).1
  · intro found reached
    obtain ⟨node, isFound, reachedNode⟩ :=
      twins.reaches_of_twin sound isTwin reached
    exact ⟨node, reachedNode, by simp only [isFound, Option.getD_some]⟩

/-- A word that shows a twin points at claimed cells. -/
theorem Twins.claimed_of_points
    (twins : Twins table region .fresh cells before
      ⟨copies, none, ∅, pairs, []⟩ after)
    {node : Cell} {word : Word}
    (isTwin : copies.twin region .fresh node = some word.cell)
    {address : Address} (points : word.Points table after address) :
    address ∈ Store.claimed region before after := by
  have parts {index : Nat} {part : Address}
      (isPart : after.Part table word.cell index part) :
      part ∈ Store.claimed region before after := by
    obtain ⟨source, -, paired⟩ := twins.part_of_twin isTwin isPart
    exact (twins.targets _ paired).1
  unfold Word.Points at points
  rcases twins.twin_cases isTwin with ⟨same, noKey | ⟨_, _, shared⟩⟩ |
    ⟨_, target, -, isFound, -, twin⟩ | ⟨_, target, _, -, isFound, -, twin⟩ |
    ⟨_, _, -, isFound, -⟩
  · cases decoded : word.cell with
    | reference | compound | list =>
        rw [← same, decoded] at noKey
        cases noKey
    | _ => simp [decoded] at points
  · rw [shares_fresh] at shared
    cases shared
  · simp only [isFound] at points
    exact points ▸ twin.claimed
  · simp only [isFound] at points parts
    rcases points with rfl | ⟨index, isPart⟩
    · exact twin.claimed
    · exact parts isPart
  · simp only [isFound] at points parts
    obtain ⟨index, isPart⟩ := points
    exact parts isPart

/-- All cells of the copy are claimed. -/
theorem Twins.claimed_of_visits
    (twins : Twins table region .fresh cells before
      ⟨copies, none, ∅, pairs, []⟩ after)
    {node : Cell} {word : Word}
    (isTwin : copies.twin region .fresh node = some word.cell)
    {address : Address} (visits : after.Visits table word address) :
    address ∈ Store.claimed region before after := by
  refine visits.mem ?_ fun _ => twins.claimed_of_points isTwin
  -- The words of claimed cells show twins, are functors or are variables.
  intro address inside word found next points
  rcases twins.covered address inside with handy | ⟨pair, isPair, rfl⟩ |
    ⟨header, noted⟩ | ⟨source, noted⟩
  · cases handy
  · rcases twins.finished pair isPair with waiting | active |
      ⟨shownNode, filled, -, loaded, isShownTwin, -⟩
    · cases waiting
    · cases active
    · cases loaded.symm.trans found
      exact twins.claimed_of_points isShownTwin points
  · obtain ⟨target, functor, isCopy, twin⟩ := twins.ofStructure header _ noted
    have same := congrArg Word.cell isCopy
    simp only [Word.cell_compound, Cell.compound.injEq] at same
    subst same
    obtain ⟨headerWord, id, loaded, isFunctor, -⟩ :=
      load_of_functorAt twin.functorAt
    cases loaded.symm.trans found
    simp [Word.Points, isFunctor] at points
  · obtain ⟨target, isCopy, twin⟩ := twins.ofVariable source _ noted
    have same := congrArg Word.cell isCopy
    simp only [Word.cell_reference, Cell.reference.injEq] at same
    subst same
    obtain ⟨variableWord, loaded, refers⟩ := twin.isUnbound
    cases loaded.symm.trans found
    simp only [Word.Points, refers] at points
    exact points ▸ twin.claimed

end Fresh

/-- A fresh copy is isomorphic to its source and made of new cells, and nothing
else changes.  Copying always ends, and fails only if the copy does not fit. -/
theorem StoreM.copyTerm_fresh_isomorphic {table : FunctorTable}
    {store : Store} {cells : Set Address} (sound : store.Sound table cells)
    {region : Region} (small : store.capacity region < 2 ^ 31) {root : Word}
    (formed : root.cell.Sound table store cells) :
    Ends (copyTerm table root region .fresh store)
      (fun copy after =>
        (∃ source target image, store.Resolves root source ∧
          after.Resolves copy target ∧
          Isomorphic table store after image source target) ∧
        (∀ address, after.Visits table copy address →
          address ∈ Store.claimed region store after) ∧
        (∀ address ∈ store.allocated,
          after.load address = store.load address) ∧
        after.trail = store.trail)
      (fun fault _ =>
        fault = .exhausted region.segment (store.capacity region) ∧
          store.Exceeds table region .fresh root) := by
  refine (copyTerm_twins sound (.inl rfl) small formed).imp ?_
    (fun _ _ full => full)
  rintro copy after ⟨node, copies, pairs, copied⟩
  refine ⟨⟨node, copy.cell, _, copied.resolves, ?_,
    copied.twins.isomorphic sound copied.sound copied.twin⟩,
    fun address => copied.twins.claimed_of_visits copied.twin, ?_,
    copied.twins.trail rfl⟩
  · exact copied.twins.resolves_twin sound copied.sound
      (fun address isReference => (isReference ▸ copied.resolves).unbound)
      copied.twin
  · intro address inUse
    rcases copied.twins.kept address inUse with same | ⟨sharing, -⟩
    · exact same
    · cases sharing

/-- Terms of well-formed cells are sound. -/
theorem Word.Formed.sound {table : FunctorTable} {store : Store}
    {cells : Set Address} {word : Word}
    (formed : word.Formed table store ⟨cells, store.allocated, cells⟩) :
    word.cell.Sound table store cells := by
  unfold Word.Formed at formed
  unfold Cell.Sound
  cases decoded : word.cell <;> simp_all

theorem Store.WellFormed.sound {table : FunctorTable} {store : Store}
    {cells : Set Address} (wellFormed : store.WellFormed table cells) :
    store.Sound table cells where
  formed := by
    intro address inside
    obtain ⟨word, found, formed⟩ := wellFormed.formed address inside
    exact ⟨word, found, formed.sound⟩
  inside := wellFormed.inside
  acyclic := wellFormed.acyclic

/-- A retained variable and a list pair on the heap that ends in a variable. -/
def partialList : Store where
  heap := #[Word.list (.heap 1), Word.constant ⟨0⟩, Word.reference (.heap 2)]
  heapTop := 3
  retained := #[Word.reference (.retained 0), .zero, .zero, .zero]
  retainedTop := 1
  stack := #[]
  pointer := -1
  trail := .empty

/-- The term cells of the partial list. -/
def partialListCells : Set Address :=
  {.heap 0, .heap 1, .heap 2, .retained 0}

theorem partialList_wellFormed :
    partialList.WellFormed .empty partialListCells := by
  have first : partialList.load (.heap 0) = .ok (Word.list (.heap 1)) := rfl
  have second : partialList.load (.heap 1) = .ok (Word.constant ⟨0⟩) := rfl
  have third : partialList.load (.heap 2) =
      .ok (Word.reference (.heap 2)) := rfl
  have fourth : partialList.load (.retained 0) =
      .ok (Word.reference (.retained 0)) := rfl
  refine ⟨⟨?_, ?_, ?_⟩, ?_⟩
  · rintro address (rfl | rfl | rfl | rfl)
    · refine ⟨_, first, ?_⟩
      simp [Word.Formed, partialListCells, Address.plus, Address.shift?]
    · exact ⟨_, second, by simp [Word.Formed]⟩
    · exact ⟨_, third, by simp [Word.Formed, partialListCells]⟩
    · exact ⟨_, fourth, by simp [Word.Formed, partialListCells]⟩
  · rintro address (rfl | rfl | rfl | rfl) <;>
      simp [Store.allocated, partialList]
  · rintro address (rfl | rfl | rfl | rfl) isRetained word found
    · cases isRetained
    · cases isRetained
    · cases isRetained
    · rw [fourth] at found
      cases found
      simp only [Word.PointsInto, Word.cell_reference]
      exact ⟨0, rfl⟩
  · rintro address (rfl | rfl | rfl | rfl)
    · exact ⟨_, .here ⟨_, first, by simp⟩⟩
    · exact ⟨_, .here ⟨_, second, by simp⟩⟩
    · exact ⟨_, .here ⟨_, third, by simp⟩⟩
    · exact ⟨_, .here ⟨_, fourth, by simp⟩⟩

/-- The nodes of the list pair. -/
theorem partialList_reaches {node : Cell}
    (reached : partialList.Reaches .empty (.list (.heap 1)) node) :
    node = .list (.heap 1) ∨ node = .constant ⟨0⟩ ∨
      node = .reference (.heap 2) := by
  have head : partialList.At (.heap 1) (Word.constant ⟨0⟩).cell :=
    .of_load rfl (by simp)
  have tail : partialList.At (.heap 2) (Word.reference (.heap 2)).cell :=
    .of_load rfl (by simp)
  induction reached with
  | start => exact .inl rfl
  | part _ isPart found ih =>
      rcases ih with rfl | rfl | rfl
      · cases isPart with
        | head => exact .inr (.inl (by simpa using found.unique head))
        | tail => exact .inr (.inr (by simpa using found.unique tail))
      · cases isPart
      · cases isPart

/-- There is room for a copy of the list pair. -/
theorem partialList_not_exceeds (mode : CopyMode) :
    ¬ partialList.Exceeds .empty .retained mode (.list (.heap 1)) := by
  rintro ⟨source, resolves, nodes, claiming, full⟩
  have isSource : source = .list (.heap 1) := by
    simpa [Store.Resolves] using resolves
  subst isSource
  have only : ∀ node ∈ nodes, node = .list (.heap 1) := by
    intro node member
    rcases partialList_reaches (claiming.reached node member) with
      rfl | rfl | rfl
    · rfl
    · obtain ⟨key, isKey, -⟩ := claiming.copied _ member
      cases isKey
    · cases claiming.variable_root _ member
  refine full ⟨by decide, ?_⟩
  have once := claiming.distinct
  cases nodes with
  | nil => decide
  | cons node rest =>
      cases only node List.mem_cons_self
      cases rest with
      | nil => decide
      | cons second rest =>
          cases only second (by simp)
          simp at once

theorem StoreM.copyTerm_fresh_isomorphic_partialList :
    partialList.Sound .empty partialListCells ∧
      (Word.list (.heap 1)).cell.Sound .empty partialList partialListCells ∧
      ∃ copy after,
        copyTerm .empty (.list (.heap 1)) .retained .fresh partialList =
          .ok copy after ∧
        ∃ source target image,
          partialList.Resolves (.list (.heap 1)) source ∧
            after.Resolves copy target ∧
            Isomorphic .empty partialList after image source target := by
  have formed : (Word.list (.heap 1)).cell.Sound .empty partialList
      partialListCells := by
    rw [Word.cell_list]
    exact ⟨by simp [partialListCells],
      by simp [partialListCells, Address.plus, Address.shift?]⟩
  have sound := partialList_wellFormed.sound
  refine ⟨sound, formed, ?_⟩
  have copied := @copyTerm_fresh_isomorphic _ _ _ sound .retained
    (by decide) _ formed
  cases outcome : copyTerm .empty (.list (.heap 1)) .retained .fresh
      partialList with
  | ok copy after =>
      rw [outcome] at copied
      exact ⟨copy, after, rfl, copied.1⟩
  | error fault after =>
      rw [outcome] at copied
      exact absurd copied.2 (partialList_not_exceeds .fresh)

end LogicMachine
