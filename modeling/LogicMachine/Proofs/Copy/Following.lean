import LogicMachine.Proofs.Copy.Twins

/-!
# Copying gives every node its twin

The copying functions of the store are followed one by one.  Each of them keeps
the invariant and returns a word that shows the twin of the node at hand.  They
fail only for want of room.
-/

namespace LogicMachine

/-! ## Counting claimed cells -/

section Tally

variable (table : FunctorTable) (region : Region) (mode : CopyMode)
  (before : Store) (source : Cell)

/-- The nodes that have cells of their own in the copy take up what was claimed,
and whatever was noted down or queued is part of the term. -/
structure Tally (copies : Copies) (pairs : List CopyTask) (store : Store)
    (nodes : List Cell) : Prop extends
    before.Claiming table region mode source nodes where
  noted : ∀ node ∈ nodes, ∀ key, node.key? = some key →
    ∃ copy, copies[key]? = some copy
  room : ∀ count, store.Fits region count ↔
    before.Fits region ((nodes.map (Cell.extent table before)).sum + count)
  known : ∀ key copy, copies[key]? = some copy →
    ∃ node, node.key? = some key ∧ before.Reaches table source node
  shown : ∀ pair ∈ pairs, ∀ node, before.At pair.source node →
    before.Reaches table source node

/-- Copying fails only for want of room. -/
def CopyFault (fault : Fault) : Prop :=
  fault = .exhausted region.segment (before.capacity region) ∧
    before.Overfills table region mode source

end Tally

namespace Tally

variable {table : FunctorTable} {region : Region} {mode : CopyMode}
  {before : Store} {source : Cell} {copies : Copies} {pairs : List CopyTask}
  {store later : Store} {nodes : List Cell}

theorem start (table : FunctorTable) (region : Region) (mode : CopyMode)
    (before : Store) (source : Cell) :
    Tally table region mode before source {} [] before [] where
  distinct := List.nodup_nil
  reached := by simp
  copied := by simp
  variable_root := by simp
  noted := by simp
  room := by simp
  known := by simp
  shown := by simp

/-- Only the room that is left matters. -/
theorem of_fits (tally : Tally table region mode before source copies pairs
    store nodes) (same : ∀ count, later.Fits region count ↔
      store.Fits region count) :
    Tally table region mode before source copies pairs later nodes :=
  { tally with room := fun count => (same count).trans (tally.room count) }

variable {node : Cell} {key : Tag × Address}
  (tally : Tally table region mode before source copies pairs store nodes)
  (isKey : node.key? = some key) (new : copies[key]? = none)

include tally isKey new

theorem not_mem : node ∉ nodes := by
  intro member
  obtain ⟨copy, noted⟩ := tally.noted node member key isKey
  rw [new] at noted
  cases noted

variable (reached : before.Reaches table source node)

include reached

/-- A variable is noted down whose copy takes no cell of its own. -/
theorem skip (copy : Word) :
    Tally table region mode before source (copies.insert key copy) pairs store
      nodes :=
  { tally with
    noted := by
      intro other member otherKey isOther
      obtain ⟨found, noted⟩ := tally.noted other member otherKey isOther
      exact ⟨found, Copies.getElem?_insert_of_some new noted⟩
    known := by
      intro otherKey found noted
      rw [Std.HashMap.getElem?_insert] at noted
      split at noted
      case isTrue same =>
        cases eq_of_beq same
        exact ⟨node, isKey, reached⟩
      case isFalse => exact tally.known otherKey found noted }

variable (copied : StoreM.shares region mode key.2 = false)
  (isRoot : ∀ address, node = .reference address →
    source = .reference address)

include copied isRoot

theorem claiming_cons :
    before.Claiming table region mode source (node :: nodes) where
  distinct := List.nodup_cons.mpr ⟨tally.not_mem isKey new, tally.distinct⟩
  reached := by
    intro other member
    rcases List.mem_cons.mp member with rfl | old
    · exact reached
    · exact tally.reached other old
  copied := by
    intro other member
    rcases List.mem_cons.mp member with rfl | old
    · exact ⟨key, isKey, copied⟩
    · exact tally.copied other old
  variable_root := by
    intro address member
    rcases List.mem_cons.mp member with isNode | old
    · exact isRoot address isNode.symm
    · exact tally.variable_root address old

/-- There is no room for one more node. -/
theorem overfills (full : ¬ store.Fits region (node.extent table before)) :
    before.Overfills table region mode source := by
  refine ⟨node :: nodes,
    tally.claiming_cons isKey new reached copied isRoot, ?_⟩
  rw [tally.room] at full
  rwa [List.map_cons, List.sum_cons, Nat.add_comm]

/-- Cells were claimed for one more node. -/
theorem note (copy : Word) {block : List CopyTask}
    (room : ∀ count, later.Fits region count ↔
      store.Fits region (node.extent table before + count))
    (parts : ∀ pair ∈ block, ∃ index,
      before.Part table node index pair.source) :
    Tally table region mode before source (copies.insert key copy)
      (block ++ pairs) later (node :: nodes) where
  toClaiming := tally.claiming_cons isKey new reached copied isRoot
  noted := by
    intro other member otherKey isOther
    rcases List.mem_cons.mp member with rfl | old
    · cases isKey.symm.trans isOther
      exact ⟨copy, Std.HashMap.getElem?_insert_self⟩
    · exact (tally.skip isKey new reached copy).noted other old otherKey isOther
  known := (tally.skip isKey new reached copy).known
  room := by
    intro count
    rw [room, tally.room, List.map_cons, List.sum_cons]
    exact iff_of_eq (congrArg _ (by omega))
  shown := by
    intro pair inside other found
    rcases List.mem_append.mp inside with inBlock | old
    · obtain ⟨index, isPart⟩ := parts pair inBlock
      exact .part reached isPart found
    · exact tally.shown pair old other found

end Tally

/-! ## One cell -/

section Copying

variable {table : FunctorTable} {region : Region} {mode : CopyMode}
  {cells : Set Address} {before store : Store} {source : Cell}
  {copies : Copies} {atWork : Option CopyTask} {pairs tasks : List CopyTask}

variable (table region mode cells before source copies atWork pairs tasks) in
/-- The state between the copies of two cells. -/
structure CopyState (store : Store) : Prop where
  twins : Twins table region mode cells before
    ⟨copies, atWork, ∅, pairs, tasks⟩ store
  tally : ∃ nodes, Tally table region mode before source copies pairs store
    nodes

variable (table region mode cells before source copies atWork pairs tasks) in
/-- One cell was copied: the word shows the twin of the node, and each queued
pair has a claimed cell of its own. -/
structure NodeCopied (store : Store) (node : Cell) (last : Word)
    (copied : CellCopy) (later : Store) : Prop extends
    CopyState table region mode cells before source copied.copies atWork
      (copied.tasks ++ pairs) (copied.tasks ++ tasks) later where
  twin : copied.copies.twin region mode node = some copied.word.cell
  canonical : ∀ target, copied.word.cell = .reference target →
    copied.word = .reference target
  atomic : copied.word.cell.key? = none → copied.word = last
  more : ∀ other found, copies.twin region mode other = some found →
    copied.copies.twin region mode other = some found
  room : copied.tasks.length + later.free region ≤ store.free region

/-- Nothing has to be done for a node that has its twin. -/
theorem NodeCopied.stays
    (state : CopyState table region mode cells before source copies atWork pairs
      tasks store) {node : Cell} {word last : Word}
    (twin : copies.twin region mode node = some word.cell)
    (canonical : ∀ target, word.cell = .reference target →
      word = .reference target)
    (atomic : word.cell.key? = none → word = last) :
    NodeCopied table region mode cells before source copies atWork pairs tasks
      store node last ⟨word, copies, []⟩ store :=
  ⟨state, twin, canonical, atomic, fun _ _ known => known, by simp⟩

theorem Twins.small
    (twins : Twins table region mode cells before
      ⟨copies, atWork, ∅, pairs, tasks⟩ store)
    (small : before.capacity region < 2 ^ 31) :
    store.capacity region < 2 ^ 31 := by
  rw [twins.grows.capacity]
  exact small

/-- A variable without a copy gets one in a spare cell. -/
theorem linkVariable_ends {atHand : Set Address}
    (twins : Twins table region mode cells before
      ⟨copies, atWork, atHand, pairs, tasks⟩ store)
    {address target : Address} {nodes : List Cell}
    (tally : Tally table region mode before source
      (copies.insert (.reference, address) (.reference target)) pairs store
      nodes)
    (inside : address ∈ cells)
    (inUse : address ∈ before.allocated) (unbound : before.Unbound address)
    (new : copies[(Tag.reference, address)]? = none)
    (copied : StoreM.shares region mode address = false)
    (spare : Twins.Spare ⟨copies, atWork, atHand, pairs, tasks⟩ target)
    (shown : ∀ pair ∈ atWork, pair.target = target →
      before.At pair.source (.reference address))
    (nothingElse : atHand \ {target} = ∅) (last : Word) :
    Ends
      ((do
        let copy := Word.reference target
        StoreM.storeFresh target copy
        if mode = .share then
          StoreM.store address copy
        return ⟨copy, copies.insert (.reference, address) copy, []⟩ :
          StoreM CellCopy) store)
      (NodeCopied table region mode cells before source copies atWork pairs
        tasks store (.reference address) last)
      (fun _ _ => False) := by
  obtain ⟨index, rfl, above, below⟩ := twins.claimed_of_spare spare
  obtain ⟨old, found⟩ :=
    twins.readable _ (twins.claimed_of_spare spare)
  obtain ⟨word, loaded, refers⟩ := unbound
  have filled : Twins table region mode cells before
      ⟨copies, atWork, atHand, pairs, tasks⟩
      (store.put (region.address index)
        (.reference (region.address index))) :=
    twins.fill spare fun source noted =>
      absurd noted (twins.unnoted_of_spare new spare shown source)
  have isUnbound : (store.put (region.address index)
      (.reference (region.address index))).Unbound (region.address index) :=
    ⟨_, Store.load_put_self found _, by simp⟩
  have final := filled.link inside inUse loaded refers new copied spare
    isUnbound shown
  rw [nothingElse] at final
  have present := filled.present_of_new inUse loaded new
  have isTwin : Copies.twin region mode (copies.insert (.reference, address)
      (.reference (region.address index))) (.reference address) =
        some (Word.reference (region.address index)).cell :=
    Copies.twin_of_key rfl copied Std.HashMap.getElem?_insert_self
  have canonical (target : Address)
      (refers : (Word.reference (region.address index)).cell =
        .reference target) :
      Word.reference (region.address index) = .reference target := by
    rw [Word.cell_reference] at refers
    cases refers
    rfl
  have pointer : (Word.reference (region.address index)).cell.key? = none →
      Word.reference (region.address index) = last := by
    simp [Cell.key?]
  have more (other found : Cell)
      (known : copies.twin region mode other = some found) :=
    @Copies.twin_insert _ _ _ _ _ _ (.reference (region.address index)) new
      known
  simp only [ends_bind, StoreM.storeFresh_eq found, ends_ok]
  cases mode with
  | share =>
      simp only [if_true, ends_bind, StoreM.store_eq present, ends_ok,
        ends_pure]
      exact ⟨⟨final, nodes, tally.of_fits (by simp)⟩, isTwin, canonical,
        pointer, more, by simp⟩
  | fresh =>
      simp only [reduceCtorEq, if_false, ends_pure]
      exact ⟨⟨final, nodes, tally.of_fits (by simp)⟩, isTwin, canonical,
        pointer, more, by simp⟩

/-- Variables are shown as variables. -/
theorem Twins.shownAs_reference
    (twins : Twins table region mode cells before
      ⟨copies, atWork, ∅, pairs, tasks⟩ store) {node : Cell} {root : Address}
    (isRoot : Twins.shownAs mode copies node = .reference root) :
    node = .reference root ∧
        (mode = .fresh ∨ copies[(Tag.reference, root)]? = none) ∨
      mode = .share ∧ ∃ address, node = .reference address ∧
        copies.Notes .reference address (.reference root) ∧
        root ∈ Store.claimed region before store := by
  unfold Twins.shownAs at isRoot
  split at isRoot
  case h_1 address =>
    cases noted : copies[(Tag.reference, address)]? with
    | none =>
        rw [noted] at isRoot
        cases isRoot
        exact .inl ⟨rfl, .inr noted⟩
    | some copy =>
        obtain ⟨target, rfl, twin⟩ := twins.ofVariable address copy noted
        rw [noted] at isRoot
        simp only [Option.map_some, Option.getD_some, Word.cell_reference,
          Cell.reference.injEq] at isRoot
        subst isRoot
        exact .inr ⟨rfl, address, rfl, noted, twin.claimed⟩
  case h_2 other =>
    cases mode with
    | fresh => exact .inl ⟨isRoot, .inl rfl⟩
    | share => exact absurd isRoot (other root rfl)

/-- Anything but a variable is shown as it is. -/
theorem Twins.eq_of_shownAs
    (twins : Twins table region mode cells before
      ⟨copies, atWork, ∅, pairs, tasks⟩ store) {node found : Cell}
    (isFound : Twins.shownAs mode copies node = found)
    (isValue : ∀ target, found ≠ .reference target) : node = found := by
  unfold Twins.shownAs at isFound
  split at isFound
  case h_1 address =>
    cases noted : copies[(Tag.reference, address)]? with
    | none =>
        rw [noted] at isFound
        exact isFound
    | some copy =>
        obtain ⟨target, rfl, -⟩ := twins.ofVariable address copy noted
        rw [noted] at isFound
        simp only [Option.map_some, Option.getD_some, Word.cell_reference] at isFound
        exact absurd isFound.symm (isValue target)
  case h_2 => exact isFound

theorem copyVariable_twins (sound : before.Sound table cells)
    (proper : mode = .fresh ∨ region = .retained)
    (small : before.capacity region < 2 ^ 31)
    (state : CopyState table region mode cells before source copies atWork pairs
      tasks store)
    {node : Cell} {root : Address} (formed : node.Sound table before cells)
    (reached : before.Reaches table source node)
    (unbound : ∀ address, node = .reference address → before.Unbound address)
    (shown : ∀ pair ∈ atWork, before.At pair.source node)
    (alone : atWork = none → source = node)
    (isRoot : Twins.shownAs mode copies node = .reference root)
    (last : Word) :
    Ends (StoreM.copyVariable region mode copies root
        (atWork.map CopyTask.target) store)
      (NodeCopied table region mode cells before source copies atWork pairs
        tasks store node last)
      (fun fault _ => CopyFault table region mode before source fault) := by
  have canonical {root : Address} (target : Address)
      (refers : (Word.reference root).cell = .reference target) :
      Word.reference root = .reference target := by
    rw [Word.cell_reference] at refers
    cases refers
    rfl
  have pointer {root : Address}
      (isAtom : (Word.reference root).cell.key? = none) :
      Word.reference root = last := by
    simp [Cell.key?] at isAtom
  obtain ⟨twins, nodes, tally⟩ := state
  have stays {word : Word} := @NodeCopied.stays _ _ _ _ _ _ _ _ _ _ _
    ⟨twins, nodes, tally⟩ node word last
  unfold StoreM.copyVariable
  rcases twins.shownAs_reference isRoot with ⟨rfl, unnoted⟩ |
    ⟨rfl, address, rfl, noted, claimed⟩
  · by_cases shared : StoreM.shares region mode root = true
    · rw [if_pos shared]
      refine stays ?_ canonical pointer
      rw [Word.cell_reference]
      exact Copies.twin_of_shares rfl shared
    · rw [if_neg shared]
      have copied : StoreM.shares region mode root = false := by
        simpa using shared
      cases noted : copies[(Tag.reference, root)]? with
      | some copy =>
          obtain ⟨target, rfl, -⟩ := twins.ofVariable root copy noted
          exact stays (Copies.twin_of_key rfl copied noted) canonical pointer
      | none =>
          have inside : root ∈ cells := formed
          have inUse := sound.inside inside
          have isUnbound := unbound root rfl
          cases atWork with
          | some pair =>
              exact (linkVariable_ends twins (tally.skip rfl noted reached _)
                inside inUse isUnbound noted copied (.inr ⟨pair, rfl, rfl⟩)
                (fun other active _ => shown other active) (Set.empty_sdiff _)
                last).imp (fun _ _ copied => copied) (fun _ _ => False.elim)
          | none =>
              have isSource {address : Address}
                  (isNode : Cell.reference root = .reference address) :
                  source = .reference address :=
                (alone rfl).trans isNode
              refine ends_bind.mpr (StoreM.ends_allocate ?_ ?_)
              · intro fits
                have claimed := twins.claim fits (twins.small small)
                have only : region.block (store.top region) 1 =
                    {region.address (store.top region)} := by
                  ext address
                  simp [Region.block]
                rw [only] at claimed
                have less := Store.free_setTop fits (twins.small small)
                have counted := @Tally.note _ _ _ _ _ _ _ _ _ _
                  (.reference root) _ tally rfl noted reached copied
                  (fun _ => isSource)
                  (.reference (region.address (store.top region))) []
                  (Store.fits_setTop fits (twins.small small)) (by simp)
                refine (linkVariable_ends claimed counted inside inUse isUnbound
                  noted copied (.inl rfl) nofun Set.sdiff_self last).imp ?_
                  (fun _ _ => False.elim)
                intro copied later made
                exact { made with
                  room := Nat.le_trans made.room (by omega) }
              · intro full
                refine ⟨by rw [twins.grows.capacity], ?_⟩
                exact tally.overfills rfl noted reached copied
                  (fun _ => isSource) full
  · -- The variable was bound to its copy, and copies are shared.
    have isRetained : StoreM.shares region .share root = true := by
      obtain rfl : region = .retained := by simpa using proper
      obtain ⟨index, rfl, -⟩ := claimed
      rfl
    rw [if_pos isRetained]
    exact stays (Copies.twin_of_key rfl (twins.copied _ _ _ noted) noted)
      canonical pointer

namespace Region

variable (region : Region) {top : Int32} {count index other : Nat}

theorem plus_mem_block (below : index < count) :
    (region.address top).plus index ∈ region.block top count :=
  ⟨index, below, Address.plus_address region top index⟩

theorem plus_inj (nonnegative : 0 ≤ top)
    (range : top.toNatClampNeg + count < 2 ^ 31) (below : index < count)
    (otherBelow : other < count)
    (same : (region.address top).plus index =
      (region.address top).plus other) : index = other := by
  have offsets := congrArg Address.offset same
  simp only [Address.plus_address, Region.offset_address] at offsets
  exact claimed_inj nonnegative range below otherBelow offsets

end Region

/-- The cell of a copied variable is not at hand. -/
theorem Twins.variable_notAtHand {stage : CopyStage}
    (twins : Twins table region mode cells before stage store)
    {source target : Address}
    (noted : stage.copies.Notes .reference source (.reference target)) :
    target ∉ stage.atHand := by
  obtain ⟨other, isCopy, twin⟩ := twins.ofVariable source _ noted
  have same := congrArg Word.cell isCopy
  simp only [Word.cell_reference, Cell.reference.injEq] at same
  exact same ▸ twin.notAtHand

/-- The functor cell of a copied structure is not at hand. -/
theorem Twins.structure_notAtHand {stage : CopyStage}
    (twins : Twins table region mode cells before stage store)
    {header target : Address}
    (noted : stage.copies.Notes .compound header (.compound target)) :
    target ∉ stage.atHand := by
  obtain ⟨other, functor, isCopy, twin⟩ := twins.ofStructure header _ noted
  have same := congrArg Word.cell isCopy
  simp only [Word.cell_compound, Cell.compound.injEq] at same
  exact same ▸ twin.notAtHand

/-- The copy of a structure is noted down once its functor cell is filled. -/
theorem Twins.noteStructure {top : Int32} {header : Address}
    {functor : Functor}
    (twins : Twins table region mode cells before
      ⟨copies, atWork, region.block top (functor.arity + 1), pairs, tasks⟩
      store)
    (nonnegative : 0 ≤ top)
    (range : top.toNatClampNeg + (functor.arity + 1) < 2 ^ 31)
    (inUse : header ∈ before.allocated)
    (known : table.functorAt before header = .ok functor)
    (arguments : ∀ index < functor.arity, header.plus (index + 1) ∈ cells)
    (new : copies[(Tag.compound, header)]? = none)
    (copied : StoreM.shares region mode header = false)
    (same : store.load (region.address top) = before.load header) :
    Twins table region mode cells before
      ⟨copies.insert (.compound, header) (.compound (region.address top)),
        atWork, ∅, (List.range functor.arity).map (fun index =>
          ⟨header.plus (index + 1), (region.address top).plus (index + 1)⟩) ++
            pairs,
        (List.range functor.arity).map (fun index =>
          ⟨header.plus (index + 1), (region.address top).plus (index + 1)⟩) ++
            tasks⟩ store := by
  have first : region.address top ∈
      region.block top (functor.arity + 1) :=
    ⟨0, by omega, by simp⟩
  refine twins.note ?_ (by decide) new copied ?_ ?_ ?_ ?_ (by simp) ?_
  · intro pair inBlock
    obtain ⟨index, below, rfl⟩ := List.mem_map.mp inBlock
    have less := List.mem_range.mp below
    exact region.plus_mem_block (by omega)
  · intro other noted
    exact twins.structure_notAtHand noted first
  · intro pair inBlock
    obtain ⟨index, below, rfl⟩ := List.mem_map.mp inBlock
    exact arguments index (List.mem_range.mp below)
  · rw [List.map_map]
    refine List.Nodup.map_on ?_ List.nodup_range
    intro index below other otherBelow same
    have less := List.mem_range.mp below
    have otherLess := List.mem_range.mp otherBelow
    have equal : index + 1 = other + 1 :=
      region.plus_inj nonnegative range (by omega) (by omega) same
    omega
  · intro _
    refine ⟨_, functor, rfl, inUse, known, twins.handy first, same, ?_,
      Set.notMem_empty _, ?_⟩
    · intro pair inside
      rcases List.mem_append.mp inside with inBlock | old
      · obtain ⟨index, below, rfl⟩ := List.mem_map.mp inBlock
        have less := List.mem_range.mp below
        intro same
        have equal : index + 1 = 0 :=
          region.plus_inj nonnegative range (by omega) (by omega)
            (by simpa using same)
        omega
      · intro same
        exact (twins.targets pair old).2 (same ▸ first)
    · intro index below
      exact List.mem_append_left _ (List.mem_map.mpr
        ⟨index, List.mem_range.mpr below, rfl⟩)
  · rintro address ⟨index, below, rfl⟩
    cases index with
    | zero => exact .inr ⟨rfl, by simp⟩
    | succ index =>
        refine .inl ⟨_, List.mem_map.mpr ⟨index,
          List.mem_range.mpr (by omega), rfl⟩, ?_⟩
        exact Address.plus_address region _ _

/-- The copy of a list pair is noted down. -/
theorem Twins.noteList {top : Int32} {pair : Address}
    (twins : Twins table region mode cells before
      ⟨copies, atWork, region.block top 2, pairs, tasks⟩ store)
    (nonnegative : 0 ≤ top) (range : top.toNatClampNeg + 2 < 2 ^ 31)
    (head : pair ∈ cells) (tail : pair.plus 1 ∈ cells)
    (new : copies[(Tag.list, pair)]? = none)
    (copied : StoreM.shares region mode pair = false) :
    Twins table region mode cells before
      ⟨copies.insert (.list, pair) (.list (region.address top)), atWork, ∅,
        [⟨pair, region.address top⟩,
          ⟨pair.plus 1, (region.address top).plus 1⟩] ++ pairs,
        [⟨pair, region.address top⟩,
          ⟨pair.plus 1, (region.address top).plus 1⟩] ++ tasks⟩ store := by
  have first : region.address top ∈ region.block top 2 :=
    ⟨0, by omega, by simp⟩
  have second : (region.address top).plus 1 ∈ region.block top 2 :=
    region.plus_mem_block (by omega)
  refine twins.note ?_ (by decide) new copied ?_ ?_ ?_ (by simp) ?_ ?_
  · intro task inBlock
    simp only [List.mem_cons, List.not_mem_nil, or_false] at inBlock
    rcases inBlock with rfl | rfl
    · exact first
    · exact second
  · intro other noted
    obtain ⟨target, isCopy, twin⟩ := twins.ofList other _ noted
    have same := congrArg Word.cell isCopy
    simp only [Word.cell_list, Cell.list.injEq] at same
    exact (twins.targets _ twin.head).2 (same ▸ first)
  · intro task inBlock
    simp only [List.mem_cons, List.not_mem_nil, or_false] at inBlock
    rcases inBlock with rfl | rfl
    · exact head
    · exact tail
  · have apart : region.address top ≠ (region.address top).plus 1 := by
      intro same
      have equal : 0 = 1 := region.plus_inj nonnegative range (by omega)
        (by omega) (by simpa using same)
      omega
    simpa using apart
  · intro _
    exact ⟨_, rfl, twins.handy first, by simp, by simp⟩
  · rintro address ⟨index, below, rfl⟩
    obtain rfl | rfl : index = 0 ∨ index = 1 := by omega
    · exact .inl ⟨_, List.mem_cons_self, by simp⟩
    · exact .inl ⟨⟨pair.plus 1, (region.address top).plus 1⟩, by simp,
        Address.plus_address region _ _⟩

theorem copyStructure_twins (sound : before.Sound table cells)
    (small : before.capacity region < 2 ^ 31)
    (state : CopyState table region mode cells before source copies atWork pairs
      tasks store)
    {word : Word} {header : Address} (decoded : word.cell = .compound header)
    (formed : (Cell.compound header).Sound table before cells)
    (reached : before.Reaches table source (.compound header)) :
    Ends (StoreM.copyStructure table region mode copies word header store)
      (NodeCopied table region mode cells before source copies atWork pairs
        tasks store (.compound header) word)
      (fun fault _ => CopyFault table region mode before source fault) := by
  obtain ⟨twins, nodes, tally⟩ := state
  obtain ⟨inUse, functor, known, arguments⟩ := formed
  unfold StoreM.copyStructure
  by_cases shared : StoreM.shares region mode header = true
  · rw [if_pos shared]
    refine .stays ⟨twins, nodes, tally⟩ ?_ (by simp [decoded]) fun _ => rfl
    rw [decoded]
    exact Copies.twin_of_shares rfl shared
  · rw [if_neg shared]
    have copied : StoreM.shares region mode header = false := by
      simpa using shared
    cases noted : copies[(Tag.compound, header)]? with
    | some copy =>
        obtain ⟨target, _, rfl, -⟩ := twins.ofStructure header copy noted
        exact .stays ⟨twins, nodes, tally⟩ (Copies.twin_of_key rfl copied noted)
          (by simp) (by simp [Cell.key?])
    | none =>
        obtain ⟨headerWord, id, found, isFunctor, named⟩ :=
          load_of_functorAt known
        -- A functor cell is no variable, so it was not changed.
        have present : store.load header = .ok headerWord := by
          rcases twins.kept header inUse with same | ⟨-, ⟨_, found', refers⟩, -⟩
          · rw [same, found]
          · cases found.symm.trans found'
            simp [isFunctor] at refers
        have stillKnown := functorAt_of_load present isFunctor named
        have smallArity : functor.arity < 2 ^ 31 := Store.arity_lt found
          fun index below => by
            obtain ⟨word, loaded, -⟩ :=
              sound.formed _ (arguments index below)
            exact ⟨word, loaded⟩
        have size : (Cell.compound header).extent table before =
            functor.arity + 1 := by
          simp only [Cell.extent, known]
        have noRoot (address : Address)
            (isNode : Cell.compound header = .reference address) :
            source = .reference address := by
          cases isNode
        simp only [ends_bind, StoreM.ends_read, stillKnown]
        refine StoreM.ends_allocate ?_ ?_
        · intro fits
          have claimed := twins.claim fits (twins.small small)
          have less := Store.free_setTop fits (twins.small small)
          have range : (store.top region).toNatClampNeg + (functor.arity + 1) <
              2 ^ 31 := Nat.lt_of_le_of_lt fits.2 (twins.small small)
          have first : region.address (store.top region) ∈
              region.block (store.top region) (functor.arity + 1) :=
            ⟨0, by omega, by simp⟩
          have listed := Store.arguments_eq (Store.isCell_of_load found).1
            smallArity
          obtain ⟨old, spare⟩ := claimed.readable _ (claimed.handy first)
          have isCell := (Store.isCell_of_load spare).1
          have filled : Twins table region mode cells before _
              ((store.setTop region (store.top region +
                Int32.ofNat (functor.arity + 1))).put
                  (region.address (store.top region)) headerWord) :=
            claimed.fill (.inl first) fun source noted =>
              absurd first (claimed.variable_notAtHand noted)
          simp only [StoreM.load, StoreM.ends_read, Store.load_setTop,
            present, StoreM.storeFresh_eq spare, ends_ok, StoreM.ofExcept,
            listed, Store.arguments_eq isCell smallArity, ends_pure]
          rw [List.zipWith_map, List.zipWith_self]
          refine ⟨⟨?_, _, tally.note rfl noted reached copied noRoot _ ?_ ?_⟩,
            ?_, by simp, by simp [Cell.key?],
            fun _ _ => Copies.twin_insert noted, ?_⟩
          · refine filled.noteStructure fits.1 range inUse known arguments
              noted copied ?_
            rw [Store.load_put_self spare, found]
          · intro count
            rw [Store.fits_put, Store.fits_setTop fits (twins.small small),
              size]
          · intro pair inBlock
            obtain ⟨index, below, rfl⟩ := List.mem_map.mp inBlock
            exact ⟨index, .argument known (List.mem_range.mp below)⟩
          · exact Copies.twin_of_key rfl copied
              Std.HashMap.getElem?_insert_self
          · simp only [List.length_map, List.length_range, Store.free_put]
            omega
        · intro full
          refine ⟨by rw [twins.grows.capacity], ?_⟩
          exact tally.overfills rfl noted reached copied noRoot (size ▸ full)

theorem copyPair_twins (sound : before.Sound table cells)
    (small : before.capacity region < 2 ^ 31)
    (state : CopyState table region mode cells before source copies atWork pairs
      tasks store)
    {word : Word} {pair : Address} (decoded : word.cell = .list pair)
    (formed : (Cell.list pair).Sound table before cells)
    (reached : before.Reaches table source (.list pair)) :
    Ends (StoreM.copyPair region mode copies word pair store)
      (NodeCopied table region mode cells before source copies atWork pairs
        tasks store (.list pair) word)
      (fun fault _ => CopyFault table region mode before source fault) := by
  obtain ⟨twins, nodes, tally⟩ := state
  unfold StoreM.copyPair
  by_cases shared : StoreM.shares region mode pair = true
  · rw [if_pos shared]
    refine .stays ⟨twins, nodes, tally⟩ ?_ (by simp [decoded]) fun _ => rfl
    rw [decoded]
    exact Copies.twin_of_shares rfl shared
  · rw [if_neg shared]
    have copied : StoreM.shares region mode pair = false := by
      simpa using shared
    cases noted : copies[(Tag.list, pair)]? with
    | some copy =>
        obtain ⟨target, rfl, -⟩ := twins.ofList pair copy noted
        exact .stays ⟨twins, nodes, tally⟩ (Copies.twin_of_key rfl copied noted)
          (by simp) (by simp [Cell.key?])
    | none =>
        obtain ⟨_, loaded, -⟩ := sound.formed pair formed.1
        have sourceTail := (Store.isCell_of_load loaded).1.shift_eq 1
        have noRoot (address : Address)
            (isNode : Cell.list pair = .reference address) :
            source = .reference address := by
          cases isNode
        refine ends_bind.mpr (StoreM.ends_allocate ?_ ?_)
        · intro fits
          have claimed := twins.claim fits (twins.small small)
          have less := Store.free_setTop fits (twins.small small)
          have range := Nat.lt_of_le_of_lt fits.2 (twins.small small)
          have targetTail : (region.address (store.top region)).shift 1 =
              .ok ((region.address (store.top region)).plus 1) := by
            rw [Region.shift_address, Address.plus_address]
            rfl
          have parts : ∀ task ∈ [CopyTask.mk pair
                (region.address (store.top region)),
              ⟨pair.plus 1, (region.address (store.top region)).plus 1⟩],
              ∃ index, before.Part table (.list pair) index task.source := by
            intro task inBlock
            simp only [List.mem_cons, List.not_mem_nil, or_false] at inBlock
            rcases inBlock with rfl | rfl
            · exact ⟨0, .head pair⟩
            · exact ⟨1, .tail pair⟩
          simp only [StoreM.ofExcept, ends_bind, StoreM.ends_read,
            show pair.shift 1 = .ok (pair.plus 1) from sourceTail, targetTail,
            ends_pure]
          exact ⟨⟨claimed.noteList fits.1 range formed.1 formed.2 noted copied,
              _, tally.note rfl noted reached copied noRoot _
                (Store.fits_setTop fits (twins.small small)) parts⟩,
            Copies.twin_of_key rfl copied Std.HashMap.getElem?_insert_self,
            by simp, by simp [Cell.key?],
            fun _ _ => Copies.twin_insert noted,
            by simp only [List.length_cons, List.length_nil]; omega⟩
        · intro full
          refine ⟨by rw [twins.grows.capacity], ?_⟩
          exact tally.overfills rfl noted reached copied noRoot full

theorem copyValue_twins (sound : before.Sound table cells)
    (small : before.capacity region < 2 ^ 31)
    (state : CopyState table region mode cells before source copies atWork pairs
      tasks store)
    {word : Word} (formed : word.cell.Sound table before cells)
    (reached : before.Reaches table source word.cell)
    (isValue : ∀ target, word.cell ≠ .reference target) :
    Ends (StoreM.copyValue table region mode copies word store)
      (NodeCopied table region mode cells before source copies atWork pairs
        tasks store word.cell word)
      (fun fault _ => CopyFault table region mode before source fault) := by
  unfold StoreM.copyValue
  have canonical (target : Address) (refers : word.cell = .reference target) :
      word = .reference target :=
    absurd refers (isValue target)
  cases decoded : word.cell with
  | compound header =>
      rw [decoded] at formed reached
      exact copyStructure_twins sound small state decoded formed reached
  | list pair =>
      rw [decoded] at formed reached
      exact copyPair_twins sound small state decoded formed reached
  | reference target => exact absurd decoded (isValue target)
  | constant | functor | other =>
      exact .stays state (by rw [decoded]; exact Copies.twin_of_no_key rfl)
        canonical fun _ => rfl

/-- The word at the end of the references that a word starts. -/
def Store.EndsIn (store : Store) (word last : Word) : Prop :=
  match word.cell with
  | .reference target =>
      ∃ root, store.Leads target root ∧ store.load root = .ok last
  | _ => last = word

theorem Store.Resolves.exists_last {store : Store} {word : Word} {node : Cell}
    (resolves : store.Resolves word node) :
    ∃ last, store.EndsIn word last ∧ last.cell = node := by
  unfold Resolves at resolves
  unfold EndsIn
  cases decoded : word.cell with
  | reference target =>
      simp only [decoded] at resolves
      obtain ⟨root, last, leads, loaded, isNode⟩ := resolves
      exact ⟨last, ⟨root, leads, loaded⟩, isNode⟩
  | _ =>
      simp only [decoded] at resolves
      exact ⟨word, rfl, decoded.trans resolves.symm⟩

/-- A cell starts the references of its word. -/
theorem Store.Leads.endsIn {store : Store} {address root : Address}
    {word last : Word} (leads : store.Leads address root)
    (present : store.load root = .ok last)
    (loaded : store.load address = .ok word) : store.EndsIn word last := by
  unfold EndsIn
  cases leads with
  | here isRoot =>
      cases present.symm.trans loaded
      cases decoded : word.cell with
      | reference target =>
          obtain ⟨_, again, ends⟩ := isRoot
          cases loaded.symm.trans again
          cases ends _ decoded
          exact ⟨_, .here ⟨word, loaded, ends⟩, loaded⟩
      | _ => rfl
  | there found refers _ rest =>
      cases found.symm.trans loaded
      simp only [refers]
      exact ⟨root, rest, present⟩

/-- Copying one cell gives its node a twin. -/
theorem copyCell_twins (sound : before.Sound table cells)
    (proper : mode = .fresh ∨ region = .retained)
    (small : before.capacity region < 2 ^ 31)
    (state : CopyState table region mode cells before source copies atWork pairs
      tasks store)
    {word last : Word} {node : Cell} (formed : node.Sound table before cells)
    (reached : before.Reaches table source node)
    (unbound : ∀ address, node = .reference address → before.Unbound address)
    (shown : ∀ pair ∈ atWork, before.At pair.source node)
    (alone : atWork = none → source = node)
    (ends : store.EndsIn word last)
    (isShown : last.cell = Twins.shownAs mode copies node) :
    Ends (StoreM.copyCell table region mode copies word
        (atWork.map CopyTask.target) store)
      (NodeCopied table region mode cells before source copies atWork pairs
        tasks store node last)
      (fun fault _ => CopyFault table region mode before source fault) := by
  have value (isValue : ∀ target, last.cell ≠ .reference target) :
      Ends (StoreM.copyValue table region mode copies last store)
        (NodeCopied table region mode cells before source copies atWork pairs
          tasks store node last)
        (fun fault _ => CopyFault table region mode before source fault) := by
    have same : node = last.cell :=
      state.twins.eq_of_shownAs isShown.symm isValue
    subst same
    exact copyValue_twins sound small state formed reached isValue
  unfold StoreM.copyCell
  unfold Store.EndsIn at ends
  cases decoded : word.cell with
  | reference address =>
      simp only [decoded] at ends
      obtain ⟨root, leads, loaded⟩ := ends
      simp only [StoreM.deref, StoreM.load, ends_bind, StoreM.ends_read,
        leads.deref_eq, loaded]
      cases refers : last.cell with
      | reference next =>
          obtain ⟨_, loaded', ends⟩ := leads.root
          cases loaded.symm.trans loaded'
          cases ends next refers
          exact copyVariable_twins sound proper small state formed reached
            unbound shown alone (isShown.symm.trans refers) last
      | _ => exact value (by simp [refers])
  | _ =>
      simp only [decoded] at ends
      subst ends
      exact value (by simp [decoded])

/-! ## All cells -/

/-- The next queued cell is taken up and copied. -/
theorem copyTask_twins (sound : before.Sound table cells)
    (proper : mode = .fresh ∨ region = .retained)
    (small : before.capacity region < 2 ^ 31) {task : CopyTask}
    (state : CopyState table region mode cells before source copies none pairs
      (task :: tasks) store) :
    Ends
      ((do
        let word ← StoreM.load task.source
        let copied ← StoreM.copyCell table region mode copies word
          (some task.target)
        StoreM.storeFresh task.target copied.word
        return copied : StoreM CellCopy) store)
      (fun copied later =>
        CopyState table region mode cells before source copied.copies none
          (copied.tasks ++ pairs) (copied.tasks ++ tasks) later ∧
        (∀ node found, copies.twin region mode node = some found →
          copied.copies.twin region mode node = some found) ∧
        copied.tasks.length + later.free region ≤ store.free region)
      (fun fault _ => CopyFault table region mode before source fault) := by
  obtain ⟨twins, nodes, tally⟩ := state
  have taken := twins.take
  have isPair := (taken.working task rfl).1
  have inside := twins.sources task isPair
  obtain ⟨node, shown⟩ := sound.exists_at inside
  obtain ⟨root, last, leads, present, isShown, takenOver⟩ :=
    twins.leads_later sound inside shown
  obtain ⟨word, loaded⟩ := Store.At.load ⟨root, last, leads, present, isShown⟩
  simp only [StoreM.load, ends_bind, StoreM.ends_read, loaded]
  refine (copyCell_twins sound proper small ⟨taken, nodes, tally⟩
    (sound.sound_of_at inside shown) (tally.shown task isPair node shown)
    (fun address isReference => (isReference ▸ shown).unbound.1)
    (fun pair active => by
      cases Option.some.inj active
      exact shown) (by simp) (leads.endsIn present loaded) isShown).imp ?_
    (fun _ _ full => full)
  intro copied later made
  have working := (made.twins.working task rfl).1
  have finished := made.twins.finish shown made.twin fun isAtom => by
    have same := made.atomic isAtom
    rw [same] at isAtom ⊢
    exact takenOver isAtom
  obtain ⟨index, isTarget, -, -⟩ := (made.twins.targets task working).1
  obtain ⟨old, there⟩ := made.twins.readable _
    (made.twins.targets task working).1
  obtain ⟨more, counted⟩ := made.tally
  rw [isTarget] at there finished ⊢
  rw [StoreM.storeFresh_eq there, ends_ok, ends_pure]
  refine ⟨⟨finished, more, counted.of_fits (by simp)⟩, made.more, ?_⟩
  rw [Store.free_put]
  exact made.room

/-- Every queued cell is copied.  There is a step for each of them, and for
each free cell that another one could be queued with. -/
theorem copyTasks_twins (sound : before.Sound table cells)
    (proper : mode = .fresh ∨ region = .retained)
    (small : before.capacity region < 2 ^ 31) {steps : Nat}
    (state : CopyState table region mode cells before source copies none pairs
      tasks store)
    (enough : tasks.length + store.free region ≤ steps) :
    Ends (StoreM.copyTasks table region mode steps copies tasks store)
      (fun _ later => ∃ copies' pairs',
        CopyState table region mode cells before source copies' none pairs' []
          later ∧
        ∀ node found, copies.twin region mode node = some found →
          copies'.twin region mode node = some found)
      (fun fault _ => CopyFault table region mode before source fault) := by
  induction steps generalizing copies pairs tasks store with
  | zero =>
      obtain rfl : tasks = [] := List.eq_nil_of_length_eq_zero (by omega)
      exact ⟨copies, pairs, state, fun _ _ known => known⟩
  | succ steps ih =>
      cases tasks with
      | nil => exact ⟨copies, pairs, state, fun _ _ known => known⟩
      | cons task rest =>
          have step := copyTask_twins sound proper small state
          simp only [ends_bind, ends_pure] at step
          simp only [StoreM.copyTasks, ends_bind]
          refine step.imp ?_ (fun _ _ full => full)
          intro word middle step
          refine step.imp ?_ (fun _ _ full => full)
          intro copied next step
          refine step.imp ?_ (fun _ _ full => full)
          rintro - later ⟨reached, more, room⟩
          refine (ih reached ?_).imp ?_ (fun _ _ full => full)
          · simp only [List.length_append, List.length_cons] at enough ⊢
            omega
          · rintro _ final ⟨copies', pairs', done, further⟩
            exact ⟨copies', pairs', done, fun node found known =>
              further node found (more node found known)⟩

variable (table region mode cells before) in
/-- A finished copy: all pairs are finished and the word shows the twin of the
root. -/
structure TermCopied (root copy : Word) (node : Cell) (copies : Copies)
    (pairs : List CopyTask) (after : Store) : Prop where
  twins : Twins table region mode cells before ⟨copies, none, ∅, pairs, []⟩
    after
  resolves : before.Resolves root node
  sound : node.Sound table before cells
  twin : copies.twin region mode node = some copy.cell
  canonical : ∀ target, copy.cell = .reference target →
    copy = .reference target
  atomic : copy.cell.key? = none → before.EndsIn root copy
  known : ∀ key copy, copies[key]? = some copy →
    ∃ other, other.key? = some key ∧ before.Reaches table node other

/-- Copying a term comes to an end, and fails only if the copy does not fit. -/
theorem copyTerm_twins (sound : before.Sound table cells)
    (proper : mode = .fresh ∨ region = .retained)
    (small : before.capacity region < 2 ^ 31) {root : Word}
    (formed : root.cell.Sound table before cells) :
    Ends (StoreM.copyTerm table root region mode before)
      (fun copy after => ∃ node copies pairs,
        TermCopied table region mode cells before root copy node copies pairs
          after)
      (fun fault _ =>
        fault = .exhausted region.segment (before.capacity region) ∧
          before.Exceeds table region mode root) := by
  obtain ⟨node, resolves, nodeSound⟩ := sound.exists_resolves formed
  obtain ⟨last, ends, isNode⟩ := resolves.exists_last
  have faulty {fault : Fault}
      (full : CopyFault table region mode before node fault) :
      fault = .exhausted region.segment (before.capacity region) ∧
        before.Exceeds table region mode root :=
    ⟨full.1, node, resolves, full.2⟩
  have unchanged : Twins.shownAs mode {} node = node := by
    unfold Twins.shownAs
    split <;> simp
  have start : CopyState table region mode cells before node {} none [] []
      before :=
    ⟨.start table region mode cells before, [],
      .start table region mode before node⟩
  simp only [StoreM.copyTerm, ends_bind]
  refine (copyCell_twins sound proper small start nodeSound .start
    (fun address isReference => (isReference ▸ resolves).unbound) (by simp)
    (fun _ => rfl) ends (isNode.trans unchanged.symm)).imp ?_
    (fun _ _ full => faulty full)
  intro copied later made
  simp only [ends_get]
  have state := made.toCopyState
  rw [List.append_nil] at state
  refine (copyTasks_twins sound proper small state (Nat.le_refl _)).imp ?_
    (fun _ _ full => faulty full)
  rintro _ after ⟨copies, pairs, done, more⟩
  obtain ⟨nodes, tally⟩ := done.tally
  exact ⟨node, copies, pairs, done.twins, resolves, nodeSound,
    more node _ made.twin, made.canonical,
    fun isAtom => made.atomic isAtom ▸ ends, tally.known⟩

end Copying

end LogicMachine
