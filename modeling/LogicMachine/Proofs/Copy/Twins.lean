import LogicMachine.Proofs.Backtracking.Follow
import LogicMachine.Proofs.Copy.Graph

/-!
# Nodes and their twins

While a term is copied, each of its nodes that has been met has a twin: itself
if it is shared, and otherwise the node that was noted down as its copy.  Every
cell ever queued is a pair of a source and a target.  A pair that is finished
shows a node and its twin.  The invariant is kept by five kinds of change: cells
are claimed, cells at hand are filled, a copy is noted down, a queued pair is
taken up, and a pair is finished.
-/

namespace LogicMachine

/-- The copy that is noted down for a variable, a structure or a list pair. -/
abbrev Copies.Notes (copies : Copies) (tag : Tag) (address : Address)
    (copy : Word) : Prop :=
  copies[(tag, address)]? = some copy

/-- The twin of a node, if it has one already. -/
def Copies.twin (region : Region) (mode : CopyMode) (copies : Copies)
    (node : Cell) : Option Cell :=
  match node.key? with
  | none => some node
  | some key =>
      if StoreM.shares region mode key.2 then some node
      else copies[key]?.map Word.cell

/-- The cells of a region that were claimed since an earlier store. -/
def Store.claimed (region : Region) (before store : Store) : Set Address :=
  { address | ∃ index, address = region.address index ∧
    before.top region ≤ index ∧ index < store.top region }

/-- A number of cells next to each other. -/
def Region.block (region : Region) (start : Int32) (count : Nat) :
    Set Address :=
  { address | ∃ index < count,
    address = region.address (start + Int32.ofNat index) }

/-- How far copying has come.  The pair at work is neither queued nor finished,
and the cells at hand were claimed and have no use yet. -/
structure CopyStage where
  copies : Copies
  atWork : Option CopyTask
  atHand : Set Address
  pairs : List CopyTask
  tasks : List CopyTask

section Invariant

variable (table : FunctorTable) (region : Region) (mode : CopyMode)
  (cells : Set Address) (before : Store)

/-- A word that points nowhere was taken over from one of the cells. -/
def Word.TakenOver (word : Word) : Prop :=
  word.cell.key? = none → ∃ address ∈ cells, before.load address = .ok word

/-- A finished pair shows a node and its twin. -/
def CopyTask.Finished (copies : Copies) (store : Store) (pair : CopyTask) :
    Prop :=
  ∃ node word, before.At pair.source node ∧
    store.load pair.target = .ok word ∧
    copies.twin region mode node = some word.cell ∧
    word.TakenOver cells before

/-- The copy of a variable.  If it was put in the cell of a pair, the source of
that pair shows the variable. -/
structure VariableTwin (stage : CopyStage) (store : Store)
    (address target : Address) : Prop where
  inside : address ∈ cells
  inUse : address ∈ before.allocated
  unbound : before.Unbound address
  claimed : target ∈ Store.claimed region before store
  isUnbound : store.Unbound target
  notQueued : ∀ task ∈ stage.tasks, task.target ≠ target
  notAtHand : target ∉ stage.atHand
  shown : ∀ pair ∈ stage.atWork, pair.target = target →
    before.At pair.source (.reference address)

/-- The copy of a structure. -/
structure StructureTwin (stage : CopyStage) (store : Store)
    (header target : Address) (functor : Functor) : Prop where
  inside : header ∈ before.allocated
  known : table.functorAt before header = .ok functor
  claimed : target ∈ Store.claimed region before store
  same : store.load target = before.load header
  notTarget : ∀ pair ∈ stage.pairs, pair.target ≠ target
  notAtHand : target ∉ stage.atHand
  paired : ∀ index < functor.arity,
    ⟨header.plus (index + 1), target.plus (index + 1)⟩ ∈ stage.pairs

/-- The copy of a list pair. -/
structure ListTwin (stage : CopyStage) (store : Store)
    (pair target : Address) : Prop where
  claimed : target ∈ Store.claimed region before store
  head : ⟨pair, target⟩ ∈ stage.pairs
  tail : ⟨pair.plus 1, target.plus 1⟩ ∈ stage.pairs

/-- The invariant of copying. -/
structure Twins (stage : CopyStage) (store : Store) : Prop where
  grows : Store.Grows region cells before store
  trail : mode = .fresh → store.trail = before.trail
  recorded : mode = .share → ∀ address word copy,
    stage.copies.Notes .reference address copy →
    before.load address = .ok word →
    ∀ frame ∈ store.trail.frames.head?, frame.boundary.covers address →
      ⟨address, word⟩ ∈ frame.records
  kept : ∀ address ∈ before.allocated,
    store.load address = before.load address ∨
      mode = .share ∧ before.Unbound address ∧
        ∃ copy, stage.copies.Notes .reference address copy ∧
          store.load address = .ok copy
  bound : mode = .share → ∀ address copy,
    stage.copies.Notes .reference address copy →
      store.load address = .ok copy
  readable : ∀ address ∈ Store.claimed region before store,
    ∃ word, store.load address = .ok word
  copied : ∀ tag address copy, stage.copies.Notes tag address copy →
    StoreM.shares region mode address = false
  ofVariable : ∀ address copy, stage.copies.Notes .reference address copy →
    ∃ target, copy = .reference target ∧
      VariableTwin region cells before stage store address target
  ofStructure : ∀ header copy, stage.copies.Notes .compound header copy →
    ∃ target functor, copy = .compound target ∧
      StructureTwin table region before stage store header target functor
  ofList : ∀ pair copy, stage.copies.Notes .list pair copy →
    ∃ target, copy = .list target ∧
      ListTwin region before stage store pair target
  injective : ∀ tag address other copy, stage.copies.Notes tag address copy →
    stage.copies.Notes tag other copy → address = other
  sources : ∀ pair ∈ stage.pairs, pair.source ∈ cells
  targets : ∀ pair ∈ stage.pairs,
    pair.target ∈ Store.claimed region before store ∧
      pair.target ∉ stage.atHand
  distinct : (stage.pairs.map CopyTask.target).Nodup
  queued : stage.tasks.Sublist stage.pairs
  working : ∀ pair ∈ stage.atWork, pair ∈ stage.pairs ∧ pair ∉ stage.tasks
  finished : ∀ pair ∈ stage.pairs,
    pair ∈ stage.tasks ∨ pair ∈ stage.atWork ∨
      pair.Finished region mode cells before stage.copies store
  handy : stage.atHand ⊆ Store.claimed region before store
  covered : ∀ address ∈ Store.claimed region before store,
    address ∈ stage.atHand ∨
      (∃ pair ∈ stage.pairs, pair.target = address) ∨
      (∃ header, stage.copies.Notes .compound header (.compound address)) ∨
      ∃ source, stage.copies.Notes .reference source (.reference address)

end Invariant

namespace Copies

variable {region : Region} {mode : CopyMode} {copies : Copies}

theorem getElem?_insert_of_ne {key other : Tag × Address} (copy : Word)
    (different : key ≠ other) :
    (copies.insert key copy)[other]? = copies[other]? := by
  simp [Std.HashMap.getElem?_insert, different]

theorem getElem?_insert_of_some {key other : Tag × Address} {copy found : Word}
    (new : copies[key]? = none) (noted : copies[other]? = some found) :
    (copies.insert key copy)[other]? = some found := by
  rw [getElem?_insert_of_ne]
  · exact noted
  · rintro rfl
    simp [new] at noted

theorem notes_insert {tag known : Tag} {source address : Address}
    {copy found : Word}
    (noted : Notes (copies.insert (tag, source) copy) known address found) :
    (known = tag ∧ address = source ∧ found = copy) ∨
      copies.Notes known address found := by
  unfold Notes at noted
  rw [Std.HashMap.getElem?_insert] at noted
  split at noted
  case isTrue same =>
    cases eq_of_beq same
    cases noted
    exact .inl ⟨rfl, rfl, rfl⟩
  case isFalse => exact .inr noted

/-- If each copy belongs to one source, then it still does when a new copy is noted
down. -/
theorem injective_insert {tag known : Tag} {source address other : Address}
    {copy found : Word} (unnoted : ∀ other, ¬ copies.Notes tag other copy)
    (injective : ∀ tag address other copy, copies.Notes tag address copy →
      copies.Notes tag other copy → address = other)
    (noted : Notes (copies.insert (tag, source) copy) known address found)
    (again : Notes (copies.insert (tag, source) copy) known other found) :
    address = other := by
  rcases notes_insert noted with ⟨rfl, rfl, rfl⟩ | old
  · rcases notes_insert again with ⟨-, rfl, -⟩ | old'
    · rfl
    · exact absurd old' (unnoted other)
  · rcases notes_insert again with ⟨rfl, rfl, rfl⟩ | old'
    · exact absurd old (unnoted address)
    · exact injective known address other found old old'

/-- Nodes keep their twins when another copy is noted down. -/
theorem twin_insert {key : Tag × Address} {node found : Cell} {copy : Word}
    (new : copies[key]? = none)
    (known : copies.twin region mode node = some found) :
    twin region mode (copies.insert key copy) node = some found := by
  unfold twin at known ⊢
  cases isKey : node.key? with
  | none => simpa only [isKey] using known
  | some other =>
      simp only [isKey] at known ⊢
      by_cases shared : StoreM.shares region mode other.2 = true
      · simpa only [shared, if_true] using known
      · simp only [shared, Bool.false_eq_true, if_false, Option.map_eq_some_iff]
          at known ⊢
        obtain ⟨word, noted, decoded⟩ := known
        exact ⟨word, getElem?_insert_of_some new noted, decoded⟩

theorem twin_of_key {node : Cell} {key : Tag × Address} {copy : Word}
    (isKey : node.key? = some key)
    (copied : StoreM.shares region mode key.2 = false)
    (noted : copies[key]? = some copy) :
    copies.twin region mode node = some copy.cell := by
  simp [twin, isKey, copied, noted]

theorem twin_of_shares {node : Cell} {key : Tag × Address}
    (isKey : node.key? = some key)
    (shared : StoreM.shares region mode key.2 = true) :
    copies.twin region mode node = some node := by
  simp [twin, isKey, shared]

theorem twin_of_no_key {node : Cell} (noKey : node.key? = none) :
    copies.twin region mode node = some node := by
  simp [twin, noKey]

end Copies

theorem CopyTask.Finished.insert {region : Region} {mode : CopyMode}
    {cells : Set Address} {before store : Store} {copies : Copies}
    {pair : CopyTask}
    (finished : pair.Finished region mode cells before copies store)
    {key : Tag × Address} (new : copies[key]? = none) (copy : Word) :
    pair.Finished region mode cells before (copies.insert key copy) store := by
  obtain ⟨node, word, shown, loaded, twin, taken⟩ := finished
  exact ⟨node, word, shown, loaded, Copies.twin_insert new twin, taken⟩

section Block

variable {table : FunctorTable} {region : Region} {cells : Set Address}
  {before store : Store} {copies later : Copies} {atWork : Option CopyTask}
  {atHand : Set Address} {pairs tasks block : List CopyTask}
  {source target : Address}

/-! ### More pairs, with cells at hand as their targets -/

theorem VariableTwin.append
    (twin : VariableTwin region cells before
      ⟨copies, atWork, atHand, pairs, tasks⟩ store source target)
    (targets : ∀ pair ∈ block, pair.target ∈ atHand) :
    VariableTwin region cells before
      ⟨later, atWork, ∅, block ++ pairs, block ++ tasks⟩ store source
      target := by
  refine { twin with notAtHand := Set.notMem_empty _, notQueued := ?_ }
  intro task queued
  rcases List.mem_append.mp queued with inBlock | old
  · rintro rfl
    exact twin.notAtHand (targets task inBlock)
  · exact twin.notQueued task old

theorem StructureTwin.append {functor : Functor}
    (twin : StructureTwin table region before
      ⟨copies, atWork, atHand, pairs, tasks⟩ store source target functor)
    (targets : ∀ pair ∈ block, pair.target ∈ atHand) :
    StructureTwin table region before
      ⟨later, atWork, ∅, block ++ pairs, block ++ tasks⟩ store source target
      functor := by
  refine { twin with
    notAtHand := Set.notMem_empty _
    paired := fun index below =>
      List.mem_append_right _ (twin.paired index below)
    notTarget := ?_ }
  intro pair inside
  rcases List.mem_append.mp inside with inBlock | old
  · rintro rfl
    exact twin.notAtHand (targets pair inBlock)
  · exact twin.notTarget pair old

theorem ListTwin.append
    (twin : ListTwin region before ⟨copies, atWork, atHand, pairs, tasks⟩ store
      source target) :
    ListTwin region before ⟨later, atWork, ∅, block ++ pairs, block ++ tasks⟩
      store source target :=
  { twin with
    head := List.mem_append_right _ twin.head
    tail := List.mem_append_right _ twin.tail }

end Block

/-- The newest frame keeps its records and takes up the new one if it covers
the address. -/
theorem Trail.head_add {trail : Trail} {record : Record} {frame : Frame}
    (isFirst : frame ∈ (trail.add record).frames.head?) :
    ∃ previous ∈ trail.frames.head?, frame.boundary = previous.boundary ∧
      (∀ older ∈ previous.records, older ∈ frame.records) ∧
      (previous.boundary.covers record.address →
        record ∈ frame.records) := by
  cases frames : trail.frames with
  | nil => simp [add_frames_nil frames] at isFirst
  | cons previous rest =>
      rw [add_frames_cons frames] at isFirst
      cases Option.some.inj isFirst
      refine ⟨previous, rfl, ?_⟩
      unfold Frame.add
      split
      case isTrue covers =>
        exact ⟨rfl, fun older member => List.mem_cons_of_mem _ member,
          fun _ => List.mem_cons_self⟩
      case isFalse uncovered =>
        exact ⟨rfl, fun _ member => member,
          fun covers => absurd covers uncovered⟩

namespace Store

variable {region : Region} {before store later : Store} {address : Address}

theorem claimed_congr (same : later.top region = store.top region) :
    claimed region before later = claimed region before store := by
  unfold claimed
  rw [same]

/-- Claimed cells were not in use. -/
theorem not_allocated_of_claimed
    (inside : address ∈ claimed region before store) :
    address ∉ before.allocated := by
  obtain ⟨index, rfl, above, -⟩ := inside
  rw [allocated_below, Int32.not_lt]
  exact above

theorem above_of_claimed (inside : address ∈ claimed region before store) :
    address ∈ above region (before.top region) := by
  obtain ⟨index, rfl, higher, -⟩ := inside
  exact ⟨index, rfl, higher⟩

end Store

namespace Twins

variable {table : FunctorTable} {region : Region} {mode : CopyMode}
  {cells : Set Address} {before store later : Store} {stage : CopyStage}

theorem start (table : FunctorTable) (region : Region) (mode : CopyMode)
    (cells : Set Address) (before : Store) :
    Twins table region mode cells before ⟨{}, none, ∅, [], []⟩ before := by
  have nothing {address : Address} :
      address ∉ Store.claimed region before before := by
    rintro ⟨index, -, above, below⟩
    exact absurd below (Int32.not_lt.mpr above)
  exact {
    grows := .refl region cells before
    trail := fun _ => rfl
    recorded := by simp
    kept := fun _ _ => .inl rfl
    bound := by simp
    readable := fun _ inside => absurd inside nothing
    copied := by simp
    ofVariable := by simp
    ofStructure := by simp
    ofList := by simp
    injective := by simp
    sources := by simp
    targets := by simp
    distinct := List.nodup_nil
    queued := List.Sublist.refl _
    working := by simp
    finished := by simp
    handy := Set.empty_subset _
    covered := fun _ inside => absurd inside nothing }

/-- Two pairs do not share a target. -/
theorem eq_of_target (twins : Twins table region mode cells before stage store)
    {pair other : CopyTask} (inside : pair ∈ stage.pairs)
    (otherInside : other ∈ stage.pairs) (same : pair.target = other.target) :
    pair = other :=
  List.inj_on_of_nodup_map twins.distinct inside otherInside same

/-- The next queued pair is taken up. -/
theorem take {copies : Copies} {pairs rest : List CopyTask} {task : CopyTask}
    (twins : Twins table region mode cells before
      ⟨copies, none, ∅, pairs, task :: rest⟩ store) :
    Twins table region mode cells before
      ⟨copies, some task, ∅, pairs, rest⟩ store := by
  have member : task ∈ pairs := twins.queued.subset List.mem_cons_self
  have once : (task :: rest).Nodup :=
    twins.queued.nodup (List.Nodup.of_map _ twins.distinct)
  exact {
    grows := twins.grows
    trail := twins.trail
    recorded := twins.recorded
    kept := twins.kept
    bound := twins.bound
    readable := twins.readable
    copied := twins.copied
    injective := twins.injective
    sources := twins.sources
    targets := twins.targets
    distinct := twins.distinct
    handy := twins.handy
    covered := twins.covered
    queued := (List.sublist_cons_self task rest).trans twins.queued
    working := by
      intro pair active
      cases Option.some.inj active
      exact ⟨member, (List.nodup_cons.mp once).1⟩
    finished := by
      intro pair inside
      rcases twins.finished pair inside with waiting | active | finished
      · rcases List.mem_cons.mp waiting with rfl | later
        · exact .inr (.inl rfl)
        · exact .inl later
      · cases active
      · exact .inr (.inr finished)
    ofVariable := by
      intro address copy noted
      obtain ⟨target, isCopy, twin⟩ := twins.ofVariable address copy noted
      exact ⟨target, isCopy, { twin with
        notQueued := fun task member =>
          twin.notQueued task (List.mem_cons_of_mem _ member)
        shown := by
          intro pair active same
          cases Option.some.inj active
          exact absurd same (twin.notQueued task List.mem_cons_self) }⟩
    ofStructure := by
      intro header copy noted
      obtain ⟨target, functor, isCopy, twin⟩ :=
        twins.ofStructure header copy noted
      exact ⟨target, functor, isCopy, { twin with }⟩
    ofList := by
      intro pair copy noted
      obtain ⟨target, isCopy, twin⟩ := twins.ofList pair copy noted
      exact ⟨target, isCopy, { twin with }⟩ }

/-- A cell that was claimed and does not hold anything yet. -/
def Spare (stage : CopyStage) (address : Address) : Prop :=
  address ∈ stage.atHand ∨ ∃ pair ∈ stage.atWork, pair.target = address

theorem claimed_of_spare
    (twins : Twins table region mode cells before stage store)
    {address : Address} (spare : Spare stage address) :
    address ∈ Store.claimed region before store := by
  rcases spare with handy | ⟨pair, active, rfl⟩
  · exact twins.handy handy
  · exact (twins.targets pair (twins.working pair active).1).1

/-- A spare cell is the copy of no variable, unless the pair at work shows
that variable. -/
theorem unnoted_of_spare
    (twins : Twins table region mode cells before stage store)
    {address target : Address}
    (new : stage.copies[(Tag.reference, address)]? = none)
    (spare : Spare stage target)
    (shown : ∀ pair ∈ stage.atWork, pair.target = target →
      before.At pair.source (.reference address)) (source : Address) :
    ¬ stage.copies.Notes .reference source (.reference target) := by
  intro noted
  obtain ⟨other, isCopy, twin⟩ := twins.ofVariable source _ noted
  have same : target = other := by
    have decoded := congrArg Word.cell isCopy
    simpa using decoded
  subst same
  rcases spare with handy | ⟨pair, active, isTarget⟩
  · exact twin.notAtHand handy
  · cases (twin.shown pair active isTarget).unique (shown pair active isTarget)
    simp only [Copies.Notes, new, reduceCtorEq] at noted

/-- A spare cell is filled.  If it is to be the copy of a variable it holds
that variable. -/
theorem fill (twins : Twins table region mode cells before stage store)
    {address : Address} (spare : Spare stage address) {word : Word}
    (suits : ∀ source,
      stage.copies.Notes .reference source (.reference address) →
      word.cell = .reference address) :
    Twins table region mode cells before stage (store.put address word) := by
  have claimed := twins.claimed_of_spare spare
  obtain ⟨old, found⟩ := twins.readable address claimed
  have elsewhere {other : Address} (different : other ≠ address) :
      (store.put address word).load other = store.load other :=
    Store.load_put_of_ne found word different
  have here : (store.put address word).load address = .ok word :=
    Store.load_put_self found word
  have apart {other : Address} (inUse : other ∈ before.allocated) :
      other ≠ address := by
    rintro rfl
    exact Store.not_allocated_of_claimed claimed inUse
  have sameClaimed : Store.claimed region before (store.put address word) =
      Store.claimed region before store :=
    Store.claimed_congr (by simp)
  exact {
    grows := twins.grows.put found word
      (.inr (Store.above_of_claimed claimed))
    trail := by simpa using twins.trail
    recorded := by simpa using twins.recorded
    copied := twins.copied
    injective := twins.injective
    sources := twins.sources
    distinct := twins.distinct
    queued := twins.queued
    working := twins.working
    targets := by simpa only [sameClaimed] using twins.targets
    handy := by simpa only [sameClaimed] using twins.handy
    covered := by simpa only [sameClaimed] using twins.covered
    kept := by
      intro other inUse
      rw [elsewhere (apart inUse)]
      exact twins.kept other inUse
    bound := by
      intro sharing source copy noted
      obtain ⟨_, -, twin⟩ := twins.ofVariable source copy noted
      rw [elsewhere (apart twin.inUse)]
      exact twins.bound sharing source copy noted
    readable := by
      intro other inside
      rw [sameClaimed] at inside
      by_cases same : other = address
      · exact ⟨word, same ▸ here⟩
      · rw [elsewhere same]
        exact twins.readable other inside
    ofVariable := by
      intro source copy noted
      obtain ⟨target, rfl, twin⟩ := twins.ofVariable source copy noted
      refine ⟨target, rfl, { twin with
        claimed := sameClaimed ▸ twin.claimed
        isUnbound := ?_ }⟩
      by_cases same : target = address
      · subst same
        exact ⟨word, here, suits source noted⟩
      · unfold Store.Unbound
        rw [elsewhere same]
        exact twin.isUnbound
    ofStructure := by
      intro header copy noted
      obtain ⟨target, functor, rfl, twin⟩ :=
        twins.ofStructure header copy noted
      refine ⟨target, functor, rfl, { twin with
        claimed := sameClaimed ▸ twin.claimed
        same := ?_ }⟩
      rw [elsewhere]
      · exact twin.same
      · rintro rfl
        rcases spare with handy | ⟨pair, active, same⟩
        · exact twin.notAtHand handy
        · exact twin.notTarget pair (twins.working pair active).1 same
    ofList := by
      intro pair copy noted
      obtain ⟨target, rfl, twin⟩ := twins.ofList pair copy noted
      exact ⟨target, rfl, { twin with claimed := sameClaimed ▸ twin.claimed }⟩
    finished := by
      intro pair inside
      rcases twins.finished pair inside with waiting | active | finished
      · exact .inl waiting
      · exact .inr (.inl active)
      · by_cases same : pair.target = address
        · rcases spare with handy | ⟨other, active, isTarget⟩
          · exact absurd (same ▸ handy) (twins.targets pair inside).2
          · have equal := twins.eq_of_target inside
              (twins.working other active).1 (same.trans isTarget.symm)
            exact .inr (.inl (equal ▸ active))
        · obtain ⟨node, shown, source, loaded, rest⟩ := finished
          refine .inr (.inr ⟨node, shown, source, ?_, rest⟩)
          rw [elsewhere same]
          exact loaded }

/-- Cells are claimed and are at hand from then on. -/
theorem claim {copies : Copies} {atWork : Option CopyTask}
    {pairs tasks : List CopyTask}
    (twins : Twins table region mode cells before
      ⟨copies, atWork, ∅, pairs, tasks⟩ store) {count : Nat}
    (fits : store.Fits region count) (small : store.capacity region < 2 ^ 31) :
    Twins table region mode cells before
      ⟨copies, atWork, region.block (store.top region) count, pairs, tasks⟩
      (store.setTop region (store.top region + Int32.ofNat count)) := by
  obtain ⟨nonnegative, fits⟩ := fits
  have range : (store.top region).toNatClampNeg + count < 2 ^ 31 := by omega
  have newTop : (store.setTop region
      (store.top region + Int32.ofNat count)).top region =
        store.top region + Int32.ofNat count :=
    Store.top_setTop_self ..
  have grown : store.top region ≤ store.top region + Int32.ofNat count := by
    rw [Int32.le_iff_toInt_le, toInt_add_ofNat nonnegative range]
    omega
  have more : Store.claimed region before store ⊆
      Store.claimed region before (store.setTop region
        (store.top region + Int32.ofNat count)) := by
    rintro address ⟨index, rfl, above, below⟩
    refine ⟨index, rfl, above, ?_⟩
    rw [newTop]
    exact Int32.lt_of_lt_of_le below grown
  have apart {address : Address}
      (inside : address ∈ Store.claimed region before store) :
      address ∉ region.block (store.top region) count := by
    obtain ⟨index, rfl, -, below⟩ := inside
    rintro ⟨position, inBlock, same⟩
    have place := (claimed_between nonnegative range inBlock).1
    cases region <;> cases same <;>
      exact absurd below (Int32.not_lt.mpr place)
  exact {
    grows := twins.grows.setTop nonnegative fits small
    trail := by cases region <;> exact twins.trail
    recorded := by cases region <;> exact twins.recorded
    kept := by simpa only [Store.load_setTop] using twins.kept
    bound := by simpa only [Store.load_setTop] using twins.bound
    copied := twins.copied
    injective := twins.injective
    sources := twins.sources
    distinct := twins.distinct
    queued := twins.queued
    working := twins.working
    targets := by
      intro pair inside
      have claimed := (twins.targets pair inside).1
      exact ⟨more claimed, apart claimed⟩
    handy := by
      rintro address ⟨index, below, rfl⟩
      have place := claimed_between nonnegative range below
      refine ⟨_, rfl, Int32.le_trans twins.grows.top_le place.1, ?_⟩
      rw [newTop]
      exact place.2
    readable := by
      rintro address ⟨index, rfl, above, below⟩
      rw [Store.load_setTop]
      by_cases old : index < store.top region
      · exact twins.readable _ ⟨index, rfl, above, old⟩
      · obtain ⟨position, inBlock, rfl⟩ := exists_claimed nonnegative range
          (Int32.not_lt.mp old) (newTop ▸ below)
        exact Store.load_claimed nonnegative fits small inBlock
    covered := by
      rintro address ⟨index, rfl, above, below⟩
      by_cases old : index < store.top region
      · rcases twins.covered _ ⟨index, rfl, above, old⟩ with handy | used
        · exact absurd handy (Set.notMem_empty _)
        · exact .inr used
      · obtain ⟨position, inBlock, rfl⟩ := exists_claimed nonnegative range
          (Int32.not_lt.mp old) (newTop ▸ below)
        exact .inl ⟨position, inBlock, rfl⟩
    ofVariable := by
      intro source copy noted
      obtain ⟨target, rfl, twin⟩ := twins.ofVariable source copy noted
      refine ⟨target, rfl, { twin with
        claimed := more twin.claimed
        notAtHand := apart twin.claimed
        isUnbound := ?_ }⟩
      unfold Store.Unbound
      rw [Store.load_setTop]
      exact twin.isUnbound
    ofStructure := by
      intro header copy noted
      obtain ⟨target, functor, rfl, twin⟩ :=
        twins.ofStructure header copy noted
      refine ⟨target, functor, rfl, { twin with
        claimed := more twin.claimed
        notAtHand := apart twin.claimed
        same := ?_ }⟩
      rw [Store.load_setTop]
      exact twin.same
    ofList := by
      intro pair copy noted
      obtain ⟨target, rfl, twin⟩ := twins.ofList pair copy noted
      exact ⟨target, rfl, { twin with claimed := more twin.claimed }⟩
    finished := by
      intro pair inside
      simpa only [CopyTask.Finished, Store.load_setTop] using
        twins.finished pair inside }

section Note

variable {copies : Copies} {atWork : Option CopyTask} {atHand : Set Address}
  {pairs tasks block : List CopyTask}
  (twins : Twins table region mode cells before
    ⟨copies, atWork, atHand, pairs, tasks⟩ store)
  (targets : ∀ pair ∈ block, pair.target ∈ atHand)

include twins targets

/-- Cells at hand are not the targets of earlier pairs. -/
theorem ne_of_mem_block {pair other : CopyTask} (inBlock : pair ∈ block)
    (inside : other ∈ pairs) : pair.target ≠ other.target := by
  intro same
  exact (twins.targets other inside).2 (same ▸ targets pair inBlock)

theorem distinct_append (distinct : (block.map CopyTask.target).Nodup) :
    ((block ++ pairs).map CopyTask.target).Nodup := by
  rw [List.map_append]
  refine List.Nodup.append distinct twins.distinct ?_
  intro address inBlock old
  obtain ⟨pair, isPair, rfl⟩ := List.mem_map.mp inBlock
  obtain ⟨other, inside, same⟩ := List.mem_map.mp old
  exact twins.ne_of_mem_block targets isPair inside same.symm

theorem working_append {pair : CopyTask} (active : pair ∈ atWork) :
    pair ∈ block ++ pairs ∧ pair ∉ block ++ tasks := by
  have worked := twins.working pair active
  refine ⟨List.mem_append_right _ worked.1, ?_⟩
  intro queued
  rcases List.mem_append.mp queued with inBlock | old
  · exact twins.ne_of_mem_block targets inBlock worked.1 rfl
  · exact worked.2 old

omit targets in
theorem covered_append {tag : Tag} {source : Address} {copy : Word}
    (new : copies[(tag, source)]? = none)
    (used : ∀ address ∈ atHand, (∃ pair ∈ block, pair.target = address) ∨
      tag = .compound ∧ copy = .compound address)
    {address : Address} (inside : address ∈ Store.claimed region before store) :
    (∃ pair ∈ block ++ pairs, pair.target = address) ∨
      (∃ header, Copies.Notes (copies.insert (tag, source) copy) .compound
        header (.compound address)) ∨
      ∃ variableSource, Copies.Notes (copies.insert (tag, source) copy)
        .reference variableSource (.reference address) := by
  rcases twins.covered address inside with handy | ⟨pair, isPair, rfl⟩ |
    ⟨header, noted⟩ | ⟨variableSource, noted⟩
  · rcases used address handy with ⟨pair, inBlock, isTarget⟩ | ⟨rfl, rfl⟩
    · exact .inl ⟨pair, List.mem_append_left _ inBlock, isTarget⟩
    · exact .inr (.inl ⟨source, Std.HashMap.getElem?_insert_self⟩)
  · exact .inl ⟨pair, List.mem_append_right _ isPair, rfl⟩
  · exact .inr (.inl ⟨header, Copies.getElem?_insert_of_some new noted⟩)
  · exact .inr (.inr ⟨variableSource,
      Copies.getElem?_insert_of_some new noted⟩)

/-- The copy of a structure or a list pair is noted down, and the cells at hand
become the targets of its parts. -/
theorem note {tag : Tag} {source : Address} {copy : Word}
    (isPart : tag ≠ .reference) (new : copies[(tag, source)]? = none)
    (copied : StoreM.shares region mode source = false)
    (unnoted : ∀ other, ¬ copies.Notes tag other copy)
    (sources : ∀ pair ∈ block, pair.source ∈ cells)
    (distinct : (block.map CopyTask.target).Nodup)
    (ofStructure : tag = .compound → ∃ target functor,
      copy = .compound target ∧
      StructureTwin table region before
        ⟨copies, atWork, ∅, block ++ pairs, block ++ tasks⟩ store source target
        functor)
    (ofList : tag = .list → ∃ target, copy = .list target ∧
      ListTwin region before
        ⟨copies, atWork, ∅, block ++ pairs, block ++ tasks⟩ store source target)
    (used : ∀ address ∈ atHand, (∃ pair ∈ block, pair.target = address) ∨
      tag = .compound ∧ copy = .compound address) :
    Twins table region mode cells before
      ⟨copies.insert (tag, source) copy, atWork, ∅, block ++ pairs,
        block ++ tasks⟩ store := by
  have oldVariable {address : Address} {found : Word}
      (noted : Copies.Notes (copies.insert (tag, source) copy) .reference
        address found) : copies.Notes .reference address found :=
    (Copies.notes_insert noted).resolve_left
      fun same => isPart same.1.symm
  exact {
    grows := twins.grows
    trail := twins.trail
    readable := twins.readable
    handy := Set.empty_subset _
    injective := fun _ _ _ _ =>
      Copies.injective_insert unnoted twins.injective
    distinct := twins.distinct_append targets distinct
    queued := List.Sublist.append_left twins.queued block
    working := fun _ => twins.working_append targets
    covered := fun _ inside => .inr (twins.covered_append new used inside)
    recorded := fun sharing address word found noted =>
      twins.recorded sharing address word found (oldVariable noted)
    bound := fun sharing address found noted =>
      twins.bound sharing address found (oldVariable noted)
    kept := by
      intro address inUse
      rcases twins.kept address inUse with same | ⟨sharing, unbound, found,
        noted, bound⟩
      · exact .inl same
      · exact .inr ⟨sharing, unbound, found,
          Copies.getElem?_insert_of_some new noted, bound⟩
    copied := by
      intro known address found noted
      rcases Copies.notes_insert noted with ⟨-, rfl, -⟩ | old
      · exact copied
      · exact twins.copied known address found old
    ofVariable := by
      intro address found noted
      obtain ⟨target, isCopy, twin⟩ :=
        twins.ofVariable address found (oldVariable noted)
      exact ⟨target, isCopy, twin.append targets⟩
    ofStructure := by
      intro header found noted
      rcases Copies.notes_insert noted with ⟨rfl, rfl, rfl⟩ | old
      · obtain ⟨target, functor, isCopy, twin⟩ := ofStructure rfl
        exact ⟨target, functor, isCopy, { twin with }⟩
      · obtain ⟨target, functor, isCopy, twin⟩ :=
          twins.ofStructure header found old
        exact ⟨target, functor, isCopy, twin.append targets⟩
    ofList := by
      intro pair found noted
      rcases Copies.notes_insert noted with ⟨rfl, rfl, rfl⟩ | old
      · obtain ⟨target, isCopy, twin⟩ := ofList rfl
        exact ⟨target, isCopy, { twin with }⟩
      · obtain ⟨target, isCopy, twin⟩ := twins.ofList pair found old
        exact ⟨target, isCopy, twin.append⟩
    sources := by
      intro pair inside
      rcases List.mem_append.mp inside with inBlock | old
      · exact sources pair inBlock
      · exact twins.sources pair old
    targets := by
      intro pair inside
      refine ⟨?_, Set.notMem_empty _⟩
      rcases List.mem_append.mp inside with inBlock | old
      · exact twins.handy (targets pair inBlock)
      · exact (twins.targets pair old).1
    finished := by
      intro pair inside
      rcases List.mem_append.mp inside with inBlock | old
      · exact .inl (List.mem_append_left _ inBlock)
      · exact (twins.finished pair old).imp (List.mem_append_right _)
          (Or.imp_right fun finished => finished.insert new copy) }

end Note

/-- The store after a variable was given its copy. -/
def linked (mode : CopyMode) (address : Address) (old copy : Word)
    (store : Store) : Store :=
  match mode with
  | .share => (store.record address old).put address copy
  | .fresh => store

theorem load_linked_of_ne {address other : Address} {old copy : Word}
    (present : store.load address = .ok old) (apart : other ≠ address) :
    (linked mode address old copy store).load other = store.load other := by
  cases mode with
  | share => exact Store.load_put_of_ne (by simpa using present) _ apart
  | fresh => rfl

theorem load_linked_self {address : Address} {old copy : Word}
    (present : store.load address = .ok old) :
    (linked .share address old copy store).load address = .ok copy :=
  Store.load_put_self (by simpa using present) _

theorem claimed_linked (address : Address) (old copy : Word) :
    Store.claimed region before (linked mode address old copy store) =
      Store.claimed region before store := by
  refine Store.claimed_congr ?_
  cases mode with
  | share => simp [linked]
  | fresh => rfl

/-- A variable that is not noted yet is what it was. -/
theorem present_of_new
    (twins : Twins table region mode cells before stage store)
    {address : Address} {word : Word} (inUse : address ∈ before.allocated)
    (found : before.load address = .ok word)
    (new : stage.copies[(Tag.reference, address)]? = none) :
    store.load address = .ok word := by
  rcases twins.kept address inUse with same | ⟨-, -, copy, noted, -⟩
  · rw [same, found]
  · simp only [Copies.Notes, new, reduceCtorEq] at noted

section Link

variable {copies : Copies} {atWork : Option CopyTask} {atHand : Set Address}
  {pairs tasks : List CopyTask} {address target : Address} {word : Word}
  (twins : Twins table region mode cells before
    ⟨copies, atWork, atHand, pairs, tasks⟩ store)

/-- Structures and list pairs were noted before the variable was. -/
theorem notes_of_insert_reference {tag : Tag} {source : Address} {found : Word}
    (isPart : tag ≠ .reference)
    (noted : Copies.Notes (copies.insert (.reference, address)
      (.reference target)) tag source found) :
    copies.Notes tag source found :=
  (Copies.notes_insert noted).resolve_left fun same => isPart same.1

include twins

theorem grows_linked (inside : address ∈ cells)
    (inUse : address ∈ before.allocated)
    (found : before.load address = .ok word)
    (refers : word.cell = .reference address)
    (new : copies[(Tag.reference, address)]? = none) :
    Store.Grows region cells before
      (linked mode address word (.reference target) store) := by
  have present := twins.present_of_new inUse found new
  cases mode with
  | share =>
      exact (twins.grows.record address word).put (by simpa using present) _
        (.inl ⟨inside, word, found, refers⟩)
  | fresh => exact twins.grows

theorem recorded_linked (found : before.load address = .ok word)
    (sharing : mode = .share) {source : Address} {old copy : Word}
    (noted : Copies.Notes (copies.insert (.reference, address)
      (.reference target)) .reference source copy)
    (isOld : before.load source = .ok old) :
    ∀ frame ∈ (linked mode address word (.reference target)
        store).trail.frames.head?,
      frame.boundary.covers source → ⟨source, old⟩ ∈ frame.records := by
  subst sharing
  intro frame isFirst covers
  simp only [linked, Store.put_trail, Store.record_trail] at isFirst
  obtain ⟨previous, wasFirst, sameBoundary, more, recorded⟩ :=
    Trail.head_add isFirst
  rw [sameBoundary] at covers
  rcases Copies.notes_insert noted with ⟨-, rfl, -⟩ | known
  · cases found.symm.trans isOld
    exact recorded covers
  · exact more _ (twins.recorded rfl source old copy known isOld previous
      wasFirst covers)

theorem kept_linked (inUse : address ∈ before.allocated)
    (found : before.load address = .ok word)
    (refers : word.cell = .reference address)
    (new : copies[(Tag.reference, address)]? = none)
    {other : Address} (otherInUse : other ∈ before.allocated) :
    (linked mode address word (.reference target) store).load other =
        before.load other ∨
      mode = .share ∧ before.Unbound other ∧
        ∃ copy, Copies.Notes (copies.insert (.reference, address)
            (.reference target)) .reference other copy ∧
          (linked mode address word (.reference target) store).load other =
            .ok copy := by
  have present := twins.present_of_new inUse found new
  by_cases same : other = address
  · subst same
    cases mode with
    | share =>
        exact .inr ⟨rfl, ⟨word, found, refers⟩, _,
          Std.HashMap.getElem?_insert_self, load_linked_self present⟩
    | fresh => exact .inl (present.trans found.symm)
  · rw [load_linked_of_ne present same]
    rcases twins.kept other otherInUse with unchanged | ⟨sharing, unbound,
      copy, noted, bound⟩
    · exact .inl unchanged
    · exact .inr ⟨sharing, unbound, copy,
        Copies.getElem?_insert_of_some new noted, bound⟩

/-- The cell of the copy serves the variable from now on. -/
theorem variableTwin_linked (inside : address ∈ cells)
    (inUse : address ∈ before.allocated)
    (found : before.load address = .ok word)
    (refers : word.cell = .reference address)
    (new : copies[(Tag.reference, address)]? = none)
    (spare : Spare ⟨copies, atWork, atHand, pairs, tasks⟩ target)
    (isUnbound : store.Unbound target)
    (shown : ∀ pair ∈ atWork, pair.target = target →
      before.At pair.source (.reference address)) :
    VariableTwin region cells before
      ⟨copies.insert (.reference, address) (.reference target), atWork,
        atHand \ {target}, pairs, tasks⟩
      (linked mode address word (.reference target) store) address target := by
  have claimed := twins.claimed_of_spare spare
  have present := twins.present_of_new inUse found new
  refine ⟨inside, inUse, ⟨word, found, refers⟩,
    (claimed_linked ..).symm ▸ claimed, ?_, ?_, fun handy => handy.2 rfl, shown⟩
  · unfold Store.Unbound
    rw [load_linked_of_ne present]
    · exact isUnbound
    · rintro rfl
      exact Store.not_allocated_of_claimed claimed inUse
  · rintro task queued rfl
    have isPair := twins.queued.subset queued
    rcases spare with handy | ⟨pair, active, same⟩
    · exact (twins.targets task isPair).2 handy
    · have worked := twins.working pair active
      have equal := twins.eq_of_target worked.1 isPair same
      exact worked.2 (equal ▸ queued)

theorem covered_linked (new : copies[(Tag.reference, address)]? = none)
    {other : Address} (isClaimed : other ∈ Store.claimed region before store) :
    other ∈ atHand \ {target} ∨ (∃ pair ∈ pairs, pair.target = other) ∨
      (∃ header, Copies.Notes (copies.insert (.reference, address)
        (.reference target)) .compound header (.compound other)) ∨
      ∃ source, Copies.Notes (copies.insert (.reference, address)
        (.reference target)) .reference source (.reference other) := by
  by_cases same : other = target
  · exact .inr (.inr (.inr ⟨address,
      same ▸ Std.HashMap.getElem?_insert_self⟩))
  · rcases twins.covered other isClaimed with handy | paired |
      ⟨header, noted⟩ | ⟨source, noted⟩
    · exact .inl ⟨handy, same⟩
    · exact .inr (.inl paired)
    · exact .inr (.inr (.inl ⟨header,
        Copies.getElem?_insert_of_some new noted⟩))
    · exact .inr (.inr (.inr ⟨source,
        Copies.getElem?_insert_of_some new noted⟩))

/-- The copy of a variable is noted down.  If it stands for the source the
variable is bound to it. -/
theorem link (inside : address ∈ cells) (inUse : address ∈ before.allocated)
    (found : before.load address = .ok word)
    (refers : word.cell = .reference address)
    (new : copies[(Tag.reference, address)]? = none)
    (copied : StoreM.shares region mode address = false)
    (spare : Spare ⟨copies, atWork, atHand, pairs, tasks⟩ target)
    (isUnbound : store.Unbound target)
    (shown : ∀ pair ∈ atWork, pair.target = target →
      before.At pair.source (.reference address)) :
    Twins table region mode cells before
      ⟨copies.insert (.reference, address) (.reference target), atWork,
        atHand \ {target}, pairs, tasks⟩
      (linked mode address word (.reference target) store) := by
  have present := twins.present_of_new inUse found new
  have sameClaimed : Store.claimed region before
      (linked mode address word (.reference target) store) =
        Store.claimed region before store :=
    claimed_linked ..
  have elsewhere {other : Address}
      (isClaimed : other ∈ Store.claimed region before store) :
      (linked mode address word (.reference target) store).load other =
        store.load other := by
    refine load_linked_of_ne present ?_
    rintro rfl
    exact Store.not_allocated_of_claimed isClaimed inUse
  exact {
    grows := twins.grows_linked inside inUse found refers new
    trail := by
      rintro rfl
      exact twins.trail rfl
    recorded := fun sharing _ _ _ noted isOld =>
      twins.recorded_linked found sharing noted isOld
    copied := by
      intro tag source copy noted
      rcases Copies.notes_insert noted with ⟨-, rfl, -⟩ | old
      · exact copied
      · exact twins.copied tag source copy old
    injective := fun _ _ _ _ => Copies.injective_insert
      (twins.unnoted_of_spare new spare shown) twins.injective
    sources := twins.sources
    distinct := twins.distinct
    queued := twins.queued
    working := twins.working
    targets := by
      intro pair isPair
      rw [sameClaimed]
      have known := twins.targets pair isPair
      exact ⟨known.1, fun handy => known.2 handy.1⟩
    handy := by
      rw [sameClaimed]
      exact fun other handy => twins.handy handy.1
    kept := fun _ => twins.kept_linked inUse found refers new
    bound := by
      rintro rfl source copy noted
      rcases Copies.notes_insert noted with ⟨-, rfl, rfl⟩ | old
      · exact load_linked_self present
      · rw [load_linked_of_ne present]
        · exact twins.bound rfl source copy old
        · rintro rfl
          simp only [Copies.Notes, new, reduceCtorEq] at old
    readable := by
      intro other isClaimed
      rw [sameClaimed] at isClaimed
      rw [elsewhere isClaimed]
      exact twins.readable other isClaimed
    ofVariable := by
      intro source copy noted
      rcases Copies.notes_insert noted with ⟨-, rfl, rfl⟩ | old
      · exact ⟨target, rfl, twins.variableTwin_linked inside inUse found refers
          new spare isUnbound shown⟩
      · obtain ⟨known, rfl, twin⟩ := twins.ofVariable source copy old
        refine ⟨known, rfl, { twin with
          claimed := sameClaimed ▸ twin.claimed
          notAtHand := fun handy => twin.notAtHand handy.1
          isUnbound := ?_ }⟩
        unfold Store.Unbound
        rw [elsewhere twin.claimed]
        exact twin.isUnbound
    ofStructure := by
      intro header copy noted
      obtain ⟨known, functor, rfl, twin⟩ := twins.ofStructure header copy
        (notes_of_insert_reference (by decide) noted)
      refine ⟨known, functor, rfl, { twin with
        claimed := sameClaimed ▸ twin.claimed
        notAtHand := fun handy => twin.notAtHand handy.1
        same := ?_ }⟩
      rw [elsewhere twin.claimed]
      exact twin.same
    ofList := by
      intro pair copy noted
      obtain ⟨known, rfl, twin⟩ := twins.ofList pair copy
        (notes_of_insert_reference (by decide) noted)
      exact ⟨known, rfl, { twin with claimed := sameClaimed ▸ twin.claimed }⟩
    finished := by
      intro pair isPair
      rcases twins.finished pair isPair with waiting | active | finished
      · exact .inl waiting
      · exact .inr (.inl active)
      · obtain ⟨node, shows, isAt, loaded, rest⟩ := finished.insert new _
        refine .inr (.inr ⟨node, shows, isAt, ?_, rest⟩)
        rw [elsewhere (twins.targets pair isPair).1]
        exact loaded
    covered := by
      intro other isClaimed
      rw [sameClaimed] at isClaimed
      exact twins.covered_linked new isClaimed }

end Link

/-- The pair at work is finished. -/
theorem finish {copies : Copies} {pairs rest : List CopyTask}
    {task : CopyTask}
    (twins : Twins table region mode cells before
      ⟨copies, some task, ∅, pairs, rest⟩ store) {node : Cell} {word : Word}
    (shown : before.At task.source node)
    (isTwin : copies.twin region mode node = some word.cell)
    (taken : word.TakenOver cells before) :
    Twins table region mode cells before ⟨copies, none, ∅, pairs, rest⟩
      (store.put task.target word) := by
  have worked := twins.working task rfl
  have spare : Spare ⟨copies, some task, ∅, pairs, rest⟩ task.target :=
    .inr ⟨task, rfl, rfl⟩
  have suits (source : Address)
      (noted : copies.Notes .reference source (.reference task.target)) :
      word.cell = .reference task.target := by
    obtain ⟨target, isCopy, twin⟩ := twins.ofVariable source _ noted
    have same : task.target = target := by
      have decoded := congrArg Word.cell isCopy
      simpa using decoded
    cases shown.unique (twin.shown task rfl same)
    rw [Copies.twin_of_key rfl (twins.copied _ _ _ noted) noted] at isTwin
    simpa using (Option.some.inj isTwin).symm
  have filled := twins.fill spare suits
  have written : (store.put task.target word).load task.target = .ok word := by
    obtain ⟨old, found⟩ :=
      twins.readable _ (twins.targets task worked.1).1
    exact Store.load_put_self found word
  exact { filled with
    working := nofun
    finished := by
      intro pair inside
      rcases filled.finished pair inside with waiting | active | finished
      · exact .inl waiting
      · cases Option.some.inj active
        exact .inr (.inr ⟨node, word, shown, written, isTwin, taken⟩)
      · exact .inr (.inr finished)
    ofVariable := by
      intro source copy noted
      obtain ⟨target, isCopy, twin⟩ := filled.ofVariable source copy noted
      exact ⟨target, isCopy, { twin with shown := nofun }⟩
    ofStructure := by
      intro header copy noted
      obtain ⟨target, functor, isCopy, twin⟩ :=
        filled.ofStructure header copy noted
      exact ⟨target, functor, isCopy, { twin with }⟩
    ofList := by
      intro pair copy noted
      obtain ⟨target, isCopy, twin⟩ := filled.ofList pair copy noted
      exact ⟨target, isCopy, { twin with }⟩ }

/-- A node as the changed store shows it: a variable that was bound to its copy
shows the copy. -/
def shownAs (mode : CopyMode) (copies : Copies) (node : Cell) : Cell :=
  match mode, node with
  | .share, .reference address =>
      (copies[(Tag.reference, address)]?.map Word.cell).getD node
  | _, _ => node

/-- A cell of the source leads to a word that shows the same node as before, up
to variables that were bound to their copies. -/
theorem leads_later (twins : Twins table region mode cells before stage store)
    (sound : before.Sound table cells) {address : Address} {node : Cell}
    (inside : address ∈ cells) (shown : before.At address node) :
    ∃ root last, store.Leads address root ∧ store.load root = .ok last ∧
      last.cell = shownAs mode stage.copies node ∧
      last.TakenOver cells before := by
  obtain ⟨root, word, leads, loaded, rfl⟩ := shown
  induction leads with
  | @here address isRoot =>
      obtain ⟨_, loaded', ends⟩ := isRoot
      cases loaded.symm.trans loaded'
      rcases twins.kept address (sound.inside inside) with same |
        ⟨rfl, ⟨_, loaded', refers⟩, copy, noted, bound⟩
      · have unchanged : shownAs mode stage.copies word.cell = word.cell := by
          unfold shownAs
          split
          case h_1 target refers =>
            cases noted : stage.copies[(Tag.reference, target)]? with
            | none => rfl
            | some copy =>
                cases ends target refers
                have bound := twins.bound rfl _ copy noted
                cases (same.trans loaded).symm.trans bound
                simp
          case h_2 => rfl
        rw [unchanged]
        exact ⟨address, word, .here ⟨word, same.trans loaded, ends⟩,
          same.trans loaded, rfl, fun _ => ⟨address, inside, loaded⟩⟩
      · cases loaded.symm.trans loaded'
        obtain ⟨target, rfl, twin⟩ := twins.ofVariable address copy noted
        obtain ⟨last, present, isLast⟩ := twin.isUnbound
        have different : target ≠ address := by
          rintro rfl
          exact Store.not_allocated_of_claimed twin.claimed twin.inUse
        have isShown : shownAs .share stage.copies word.cell =
            .reference target := by
          simp only [shownAs, refers]
          rw [noted]
          simp
        rw [isShown]
        refine ⟨target, last, .there bound (by simp) different
          (.here twin.isUnbound.isRoot), present, isLast, fun isAtom => ?_⟩
        rw [isLast] at isAtom
        cases isAtom
  | @there address next root first found refers different _ ih =>
      have onward := ih (sound.references _ inside _ found _ refers) loaded
      obtain ⟨last, final, leads, present, rest⟩ := onward
      refine ⟨last, final, .there ?_ refers different leads, present, rest⟩
      rcases twins.kept address (sound.inside inside) with same |
        ⟨-, ⟨_, found', self⟩, -⟩
      · rw [same, found]
      · cases found.symm.trans found'
        cases refers.symm.trans self
        exact absurd rfl different

/-- The cells of the source show the same nodes as before, up to variables that
were bound to their copies. -/
theorem at_later (twins : Twins table region mode cells before stage store)
    (sound : before.Sound table cells) {address : Address} {node : Cell}
    (inside : address ∈ cells) (shown : before.At address node) :
    store.At address (shownAs mode stage.copies node) := by
  obtain ⟨root, last, leads, loaded, isShown, -⟩ :=
    twins.leads_later sound inside shown
  exact ⟨root, last, leads, loaded, isShown⟩

end Twins

end LogicMachine
