import LogicMachine.Proofs.Matching.Meaning

/-!
# Matching step by step

While the head of a clause is matched, some slots of the activation record keep
words for terms of the clause: for its variables, and for the compounds that
were put off.  The other demands wait for the code that meets them.  A view is
ready if its memory with all these demands refines the situation in which the
clause was entered.
-/

namespace LogicMachine

/-! ## Slots -/

/-- A slot that keeps a word for a term of the clause. -/
structure Keep where
  place : Nat
  word : Word
  term : Term

namespace Keep

def demand (keep : Keep) : Demand :=
  ⟨keep.word, .takes keep.term⟩

/-- The slot and the term, without the word. -/
def plan (keep : Keep) : Nat × Term :=
  (keep.place, keep.term)

end Keep

/-- The slots of a draft: which are in use, and for what. -/
structure Draft.Lays (draft : Draft) (plans : List (Nat × Term)) : Prop where
  inside : ∀ plan ∈ plans, plan.1 < draft.assembler.locals
  working : ∀ subject cursor, draft.working = some (subject, cursor) →
    subject.index < draft.assembler.locals ∧
      cursor.index < draft.assembler.locals ∧ subject.index ≠ cursor.index ∧
      ∀ plan ∈ plans, plan.1 ≠ subject.index ∧ plan.1 ≠ cursor.index
  named : ∀ name slot, draft.slots.lookup name = some slot →
    (slot.index, .var name) ∈ plans

namespace Draft.Lays

variable {draft : Draft} {plans : List (Nat × Term)}

theorem withLabel (lays : draft.Lays plans) : draft.withLabel.Lays plans :=
  ⟨lays.inside, lays.working, lays.named⟩

theorem emitted (lays : draft.Lays plans) (items : List Item) :
    (draft.emitted items).Lays plans := by
  refine ⟨?_, ?_, lays.named⟩
  · rw [locals_emitted]
    exact lays.inside
  · rw [locals_emitted]
    exact lays.working

/-- A new slot for a term. -/
theorem withLocal (lays : draft.Lays plans) (term : Term) :
    draft.withLocal.Lays ((draft.nextLocal.index, term) :: plans) := by
  refine ⟨?_, ?_, ?_⟩
  · intro plan member
    rcases List.mem_cons.mp member with rfl | old
    · exact Nat.lt_succ_self _
    · exact Nat.lt_succ_of_lt (lays.inside plan old)
  · intro subject cursor known
    obtain ⟨first, second, different, apart⟩ :=
      lays.working subject cursor known
    refine ⟨Nat.lt_succ_of_lt first, Nat.lt_succ_of_lt second, different, ?_⟩
    intro plan member
    rcases List.mem_cons.mp member with rfl | old
    · exact ⟨Nat.ne_of_gt first, Nat.ne_of_gt second⟩
    · exact apart plan old
  · intro name slot found
    exact List.mem_cons_of_mem _ (lays.named name slot found)

/-- A new slot for a variable. -/
theorem withVariable (lays : draft.Lays plans) (name : String) :
    (draft.withVariable name).Lays
      ((draft.nextLocal.index, .var name) :: plans) := by
  have more := lays.withLocal (.var name)
  refine ⟨more.inside, more.working, ?_⟩
  intro other slot found
  simp only [Draft.withVariable, List.lookup_cons] at found
  split at found
  case h_1 same =>
    cases found
    rw [eq_of_beq same]
    exact List.mem_cons_self
  case h_2 => exact List.mem_cons_of_mem _ (lays.named other slot found)

theorem withWorking (lays : draft.Lays plans) :
    draft.withWorking.Lays plans := by
  refine ⟨?_, ?_, lays.named⟩
  · intro plan member
    have inside := lays.inside plan member
    rw [locals_withWorking]
    omega
  · intro subject cursor known
    cases known
    rw [locals_withWorking]
    refine ⟨?_, ?_, ?_, ?_⟩
    · show draft.assembler.locals < _
      omega
    · show draft.assembler.locals + 1 < _
      omega
    · exact Nat.ne_of_lt (Nat.lt_succ_self _)
    · intro plan member
      have inside := lays.inside plan member
      constructor
      · exact Nat.ne_of_lt inside
      · exact Nat.ne_of_lt (Nat.lt_succ_of_lt inside)

/-- Terms that are done with, apart from variables. -/
theorem drop {fewer : List (Nat × Term)} (lays : draft.Lays plans)
    (subset : fewer ⊆ plans)
    (named : ∀ place name, (place, .var name) ∈ plans →
      (place, .var name) ∈ fewer) : draft.Lays fewer where
  inside := fun plan member => lays.inside plan (subset member)
  working := by
    intro subject cursor known
    obtain ⟨first, second, different, apart⟩ :=
      lays.working subject cursor known
    exact ⟨first, second, different,
      fun plan member => apart plan (subset member)⟩
  named := fun name slot found => named _ _ (lays.named name slot found)

theorem works {slots : Local × Local} {ready : Draft}
    (lays : draft.Lays plans) (works : ClauseM.Works draft slots ready) :
    ready.Lays plans ∧ ready.working = some slots := by
  cases works with
  | fresh => exact ⟨lays.withWorking, rfl⟩
  | again known => exact ⟨lays, known⟩

end Draft.Lays

/-! ## Single instructions -/

namespace View

variable {view : View} {wanted : View → Prop}

theorem toNat_toUInt32 {index : Nat} (small : index < 2 ^ 31) :
    index.toUInt32.toNat = index := by
  simp only [Nat.toUInt32, UInt32.toNat_ofNat']
  omega

theorem after_loadLocal {slot : Local} {operand : Operand}
    (small : slot.index < 2 ^ 31)
    (found : view.locals[slot.index]? = some operand)
    (holds : wanted (view.push operand)) :
    view.After wanted (Item.onLocal .loadLocal slot) := by
  refine ⟨operand, ?_, holds⟩
  rw [toNat_toUInt32 small]
  exact found

theorem after_storeLocal {slot : Local} {operand : Operand}
    {rest : List Operand} (small : slot.index < 2 ^ 31)
    (top : view.operands = operand :: rest)
    (inside : slot.index < view.locals.length)
    (holds : wanted
      (View.setLocal { view with operands := rest } slot.index operand)) :
    view.After wanted (Item.onLocal .storeLocal slot) := by
  simp only [Item.onLocal, After, top, toNat_toUInt32 small]
  exact ⟨inside, holds⟩

theorem after_loadLocalAddress {slot : Local}
    (small : slot.index < 2 ^ 31)
    (holds : wanted (view.push (.address (view.slot slot.index)))) :
    view.After wanted (Item.onLocal .loadLocalAddress slot) := by
  simp only [Item.onLocal, After, toNat_toUInt32 small]
  exact holds

theorem after_load {target : Address} {word : Word} {rest : List Operand}
    (top : view.operands = .address target :: rest)
    (loads : view.Loads target word)
    (holds : wanted { view with operands := .word word :: rest }) :
    view.After wanted (.plain .load) := by
  simp only [After, top]
  exact ⟨word, loads, holds⟩

theorem after_deref {target root : Address} {rest : List Operand}
    (top : view.operands = .address target :: rest)
    (leads : view.Leads target root)
    (holds : wanted { view with operands := .address root :: rest }) :
    view.After wanted (.plain .deref) := by
  simp only [After, top]
  exact ⟨root, leads, holds⟩

theorem frame_slot {place : Nat} {operand : Operand}
    (found : view.locals[place]? = some operand) :
    view.frame[view.below.length + place]? = some operand.toWord := by
  rw [frame, List.getElem?_append_right (Nat.le_add_right _ _),
    Nat.add_sub_cancel_left, List.getElem?_map, found]
  rfl

theorem locals_setLocal_self {place : Nat} {operand : Operand}
    (inside : place < view.locals.length) :
    (view.setLocal place operand).locals[place]? = some operand := by
  simp [setLocal, inside]

theorem locals_setLocal_of_ne {place other : Nat} {operand : Operand}
    (different : other ≠ place) :
    (view.setLocal place operand).locals[other]? = view.locals[other]? := by
  simp [setLocal, List.getElem?_set_ne different.symm]

end View

/-! ## Scenes -/

/-- What stays the same while the head of a clause is matched. -/
structure Scene where
  context : Context
  naming : Naming
  place : Label → Nat
  /-- The bounds on unifications. -/
  fuels : Set Nat
  /-- Where the code of the head ends. -/
  stop : Nat
  /-- What is wanted of the run. -/
  goal : Machine → Prop
  /-- The situation in which the clause was entered. -/
  start : Situation
  /-- The stack below the slots. -/
  below : List Word
  /-- The number of slots. -/
  count : Nat
  continuation : Address
  cutBase : Address
  few : count < 2 ^ 31
  consistent : context.program.functors.Consistent
  numbers : ∀ functor id, naming.number? functor = some id →
    context.program.functors.numbers[functor]? = some id
  closes : Closes context fuels stop
    (start.Unsolvable context.program.functors naming)
    (Store.Endless context.program.functors) goal
  apart : ∀ address ∈ start.cells, address ∉ context.guard.lost
  /-- Cells out of reach are retained ones that were in use before. -/
  behind : ∀ address ∈ context.guard.lost, ∃ index,
    address = .retained index ∧ address ∈ start.memory.allocated

namespace Scene

variable (scene : Scene)

def table : FunctorTable :=
  scene.context.program.functors

/-- The run from a view at a position is as wanted. -/
def Ensures (position : Nat) (view : View) : Prop :=
  scene.context.Ensures scene.goal position view

/-- The code at a position before the end of the head. -/
def Holds (position : Nat) (items : List Item) : Prop :=
  scene.context.program.Holds scene.place position items ∧
    position + textSize items ≤ scene.stop

/-- A view in which some demands are kept in slots and others wait. -/
structure Ready (view : View) (cells : Set Address) (kept : List Keep)
    (waiting : List Demand) : Prop where
  terms : view.memory.Terms scene.table cells
  pending : view.pending = []
  operands : view.operands = []
  below : view.below = scene.below
  length : view.locals.length = scene.count
  continuation : view.continuation = scene.continuation
  cutBase : view.cutBase = scene.cutBase
  stored : ∀ keep ∈ kept,
    view.locals[keep.place]? = some (.word keep.word) ∧
      keep.word.IsTerm scene.table view.memory cells
  awaited : ∀ demand ∈ waiting, ∀ word ∈ demand.words,
    word.IsTerm scene.table view.memory cells
  refines : Situation.Refines scene.table scene.naming scene.start
    ⟨view.memory, cells, waiting ++ kept.map Keep.demand⟩
  /-- New cells belong to terms, hold functors, or wait to be taken in. -/
  covered : ∀ address ∈ view.memory.allocated,
    address ∈ scene.start.memory.allocated ∨ address ∈ cells ∨
      view.memory.IsHeader address ∨
        ∃ demand ∈ waiting, demand.wish.Spares address

variable {scene}

theorem holds_append {position : Nat} {first second : List Item} :
    scene.Holds position (first ++ second) ↔ scene.Holds position first ∧
      scene.Holds (position + textSize first) second := by
  unfold Holds
  rw [Program.holds_append, textSize_append, ← Nat.add_assoc]
  constructor
  · rintro ⟨⟨here, there⟩, below⟩
    exact ⟨⟨here, Nat.le_trans (Nat.le_add_right _ _) below⟩, there, below⟩
  · rintro ⟨⟨here, -⟩, there, below⟩
    exact ⟨⟨here, there⟩, below⟩

theorem Holds.lt {position : Nat} {items : List Item}
    (holds : scene.Holds position items) (nonempty : 0 < textSize items) :
    position < scene.stop :=
  Nat.lt_of_lt_of_le (Nat.lt_add_of_pos_right nonempty) holds.2

theorem holds_branch {position : Nat} {opcode : Opcode} {target : Label}
    {rest : List Item}
    (holds : scene.Holds position (.branch opcode target :: rest)) :
    scene.Holds (position + 2) rest := by
  obtain ⟨⟨-, -, others⟩, below⟩ := holds
  rw [textSize_cons, ← Nat.add_assoc] at below
  exact ⟨others, below⟩

theorem holds_mark {position : Nat} {label : Label} {rest : List Item}
    (holds : scene.Holds position (.mark label :: rest)) :
    scene.place label = position ∧ scene.Holds position rest := by
  obtain ⟨⟨here, others⟩, below⟩ := holds
  rw [textSize_cons, ← Nat.add_assoc] at below
  exact ⟨here, others, below⟩

theorem straight {position : Nat} {items : List Item} {view : View}
    (holds : scene.Holds position items)
    (after : view.AfterAll (scene.Ensures (position + textSize items)) items) :
    scene.Ensures position view :=
  Context.Ensures.straight scene.closes holds.1 holds.2 after

theorem jump {position : Nat} {target : Label} {rest : List Item} {view : View}
    (holds : scene.Holds position (.branch .branchAlways target :: rest))
    (next : scene.Ensures (scene.place target) view) :
    scene.Ensures position view :=
  Context.Ensures.branchAlways scene.closes holds.1
    (holds.lt (Nat.zero_lt_succ _)) next

/-- A branch that compares the two operands on top. -/
theorem branch {position : Nat} (equal : Bool) {target : Label}
    {first second : Operand} {others : List Operand} {rest : List Item}
    {view : View}
    (holds : scene.Holds position
      (.branch (if equal then .branchEqual else .branchNotEqual) target :: rest))
    (top : view.operands = first :: second :: others)
    (taken : (first.toWord == second.toWord) = equal →
      scene.Ensures (scene.place target) { view with operands := others })
    (passed : (first.toWord == second.toWord) ≠ equal →
      scene.Ensures (position + 2) { view with operands := others }) :
    scene.Ensures position view :=
  Context.Ensures.branch scene.closes equal holds.1
    (holds.lt (Nat.zero_lt_succ _)) top taken passed

theorem giveUp {position : Nat} {rest : List Item} {view : View}
    (holds : scene.Holds position (.plain .fail :: rest))
    (reason : scene.start.Unsolvable scene.table scene.naming) :
    scene.Ensures position view :=
  Context.Ensures.fail scene.closes holds.1 (holds.lt (Nat.zero_lt_succ _))
    reason

namespace Ready

variable {view : View} {cells : Set Address} {kept : List Keep}
  {waiting : List Demand} {demand : Demand}

/-- All words of the demands stand for terms. -/
theorem isTerm (ready : scene.Ready view cells kept waiting) :
    ∀ demand ∈ waiting ++ kept.map Keep.demand, ∀ word ∈ demand.words,
      word.IsTerm scene.table view.memory cells := by
  intro demand member
  rcases List.mem_append.mp member with waits | keeps
  · exact ready.awaited demand waits
  · obtain ⟨keep, inside, rfl⟩ := List.mem_map.mp keeps
    intro word isWord
    cases List.mem_singleton.mp isWord
    exact (ready.stored keep inside).2

/-- No term reaches a cell that was out of reach. -/
theorem apart (ready : scene.Ready view cells kept waiting) :
    ∀ address ∈ cells, address ∉ scene.context.guard.lost := by
  intro address inside isLost
  obtain ⟨index, rfl, inUse⟩ := scene.behind address isLost
  rcases ready.refines.fresh index inside with old | unused
  · exact scene.apart _ old isLost
  · exact unused inUse

/-- Another way to put the demands. -/
theorem rephrased (ready : scene.Ready view cells kept waiting)
    {others : List Demand}
    (awaited : ∀ demand ∈ others, ∀ word ∈ demand.words,
      word.IsTerm scene.table view.memory cells)
    (spares : ∀ demand ∈ waiting, ∀ address, demand.wish.Spares address →
      ∃ other ∈ others, other.wish.Spares address)
    (same : ∀ (T : Type) [TreeAlgebra T] (value : Address → T)
      (bound : String → T), view.memory.Respects scene.table cells value →
      ((∀ demand ∈ waiting, demand.Met scene.table scene.naming view.memory
          value bound) ↔
        ∀ demand ∈ others, demand.Met scene.table scene.naming view.memory
          value bound)) :
    scene.Ready view cells kept others where
  terms := ready.terms
  pending := ready.pending
  operands := ready.operands
  below := ready.below
  length := ready.length
  continuation := ready.continuation
  cutBase := ready.cutBase
  stored := ready.stored
  awaited := awaited
  refines := by
    refine ready.refines.trans (.of_iff ?_)
    intro T _ value bound respects
    have first := same T value bound respects
    constructor
    · intro met other member
      rcases List.mem_append.mp member with waits | keeps
      · exact first.mp (fun demand inside =>
          met demand (List.mem_append_left _ inside)) other waits
      · exact met other (List.mem_append_right _ keeps)
    · intro met other member
      rcases List.mem_append.mp member with waits | keeps
      · exact first.mpr (fun demand inside =>
          met demand (List.mem_append_left _ inside)) other waits
      · exact met other (List.mem_append_right _ keeps)
  covered := by
    intro address inUse
    rcases ready.covered address inUse with
      old | inside | isHeader | ⟨demand, member, spared⟩
    · exact .inl old
    · exact .inr (.inl inside)
    · exact .inr (.inr (.inl isHeader))
    · exact .inr (.inr (.inr (spares demand member address spared)))

/-- The demand in front is met because two words have been made equal. -/
theorem equated (ready : scene.Ready view cells kept (demand :: waiting))
    {left right : Word} {larger : Set Address} {memory : Store}
    (equates : view.memory.Equates scene.table cells left right larger memory)
    (spares : ∀ address, demand.wish.Spares address → address ∈ cells)
    (means : ∀ (T : Type) [TreeAlgebra T] (value : Address → T)
      (bound : String → T), view.memory.Respects scene.table cells value →
      (∀ other ∈ waiting ++ kept.map Keep.demand,
        other.Met scene.table scene.naming view.memory value bound) →
      (demand.Met scene.table scene.naming view.memory value bound ↔
        ∃ tree, left.Denotes scene.table view.memory value tree ∧
          right.Denotes scene.table view.memory value tree)) :
    scene.Ready { view with memory } larger kept waiting where
  terms := equates.evolves.terms
  pending := ready.pending
  operands := ready.operands
  below := ready.below
  length := ready.length
  continuation := ready.continuation
  cutBase := ready.cutBase
  stored := by
    intro keep member
    obtain ⟨found, isTerm⟩ := ready.stored keep member
    exact ⟨found, equates.evolves.isTerm isTerm⟩
  awaited := by
    intro other member word isWord
    exact equates.evolves.isTerm
      (ready.awaited other (List.mem_cons_of_mem _ member) word isWord)
  refines := by
    refine ready.refines.trans (.of_equates equates ?_ means)
    intro other member
    exact ready.isTerm other (List.mem_cons_of_mem _ member)
  covered := by
    have evolves := equates.evolves
    intro address inUse
    rcases equates.covered address inUse with wasUsed | inside | isHeader
    · by_cases isCell : address ∈ cells
      · exact .inr (.inl (evolves.more isCell))
      · rcases ready.covered address wasUsed with
          old | inside | isHeader | ⟨other, member, spared⟩
        · exact .inl old
        · exact absurd inside isCell
        · exact .inr (.inr (.inl
            (isHeader.of_load (evolves.kept address wasUsed isCell))))
        · rcases List.mem_cons.mp member with rfl | waits
          · exact absurd (spares address spared) isCell
          · exact .inr (.inr (.inr ⟨other, waits, spared⟩))
    · exact .inr (.inl inside)
    · exact .inr (.inr (.inl isHeader))

/-- The demand in front cannot be met. -/
theorem unsolvable (ready : scene.Ready view cells kept (demand :: waiting))
    (never : ∀ (T : Type) [TreeAlgebra T] (value : Address → T)
      (bound : String → T), view.memory.Respects scene.table cells value →
      (∀ other ∈ waiting ++ kept.map Keep.demand,
        other.Met scene.table scene.naming view.memory value bound) →
      ¬ demand.Met scene.table scene.naming view.memory value bound) :
    scene.start.Unsolvable scene.table scene.naming := by
  apply ready.refines.unsolvable
  intro T _ value bound solves
  refine never T value bound solves.respects ?_
    (solves.met demand List.mem_cons_self)
  exact fun other member => solves.met other (List.mem_cons_of_mem _ member)

/-- A slot that nothing is kept in may be used. -/
theorem setLocal (ready : scene.Ready view cells kept waiting) {place : Nat}
    (free : ∀ keep ∈ kept, keep.place ≠ place) (operand : Operand) :
    scene.Ready (view.setLocal place operand) cells kept waiting where
  terms := ready.terms
  pending := ready.pending
  operands := ready.operands
  below := ready.below
  length := by
    simp only [View.setLocal, List.length_set]
    exact ready.length
  continuation := ready.continuation
  cutBase := ready.cutBase
  stored := by
    intro keep member
    rw [View.locals_setLocal_of_ne (free keep member)]
    exact ready.stored keep member
  awaited := ready.awaited
  refines := ready.refines
  covered := ready.covered

/-- A slot keeps the word of the demand in front. -/
theorem keep {word content : Word} {term : Term}
    (ready : scene.Ready view cells kept (⟨word, .takes term⟩ :: waiting))
    {place : Nat} (inside : place < scene.count)
    (free : ∀ keep ∈ kept, keep.place ≠ place)
    (isTerm : content.IsTerm scene.table view.memory cells)
    (alike : Word.Alike scene.table view.memory cells word content) :
    scene.Ready (view.setLocal place (.word content)) cells
      (⟨place, content, term⟩ :: kept) waiting := by
  have kept := ready.setLocal free (.word content)
  refine { kept with
    stored := ?_, awaited := ?_, refines := ?_, covered := ?_ }
  · intro keep member
    rcases List.mem_cons.mp member with rfl | old
    · refine ⟨View.locals_setLocal_self ?_, isTerm⟩
      rw [ready.length]
      exact inside
    · exact kept.stored keep old
  · exact fun demand member =>
      ready.awaited demand (List.mem_cons_of_mem _ member)
  · refine ready.refines.trans (.of_iff ?_)
    intro T _ value bound respects
    have front : Demand.Met scene.table scene.naming view.memory value bound
        ⟨word, .takes term⟩ ↔ Demand.Met scene.table scene.naming view.memory
          value bound (Keep.demand ⟨place, content, term⟩) :=
      alike.met_iff respects
    constructor
    · intro met other member
      rw [List.map_cons, List.mem_append, List.mem_cons] at member
      rcases member with waits | rfl | keeps
      · exact met other (List.mem_cons_of_mem _
          (List.mem_append_left _ waits))
      · exact front.mp (met _ List.mem_cons_self)
      · exact met other (List.mem_cons_of_mem _
          (List.mem_append_right _ keeps))
    · intro met other member
      rw [List.cons_append, List.mem_cons, List.mem_append] at member
      rcases member with rfl | waits | keeps
      · exact front.mpr (met _ (by simp))
      · exact met other (List.mem_append_left _ waits)
      · exact met other (List.mem_append_right _ (by simp [keeps]))
  · intro address inUse
    rcases ready.covered address inUse with
      old | inside | isHeader | ⟨demand, member, spared⟩
    · exact .inl old
    · exact .inr (.inl inside)
    · exact .inr (.inr (.inl isHeader))
    · rcases List.mem_cons.mp member with rfl | waits
      · exact spared.elim
      · exact .inr (.inr (.inr ⟨demand, waits, spared⟩))

end Ready

end Scene

end LogicMachine
