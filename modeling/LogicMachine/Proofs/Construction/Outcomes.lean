import LogicMachine.Proofs.Code.ClauseText
import LogicMachine.Proofs.Construction.Pieces
import LogicMachine.Proofs.Reading.Bindings

/-!
# What building comes to

Building a term adds words to the draft of a clause and slots to its activation
record.  When these words are executed, cells are claimed that depict the term.
The compounds start at new cells, each at one of its own, and so do the variables
that are made.
-/

namespace LogicMachine

/-! ## Drafts that go on -/

namespace Draft

/-- The slots of the variables have been set aside. -/
def Slotted (draft : Draft) : Prop :=
  ∀ name slot, draft.slots.lookup name = some slot →
    slot.index < draft.assembler.locals

/-- The draft has gone on with straight code, and perhaps more slots. -/
structure Continues (before : Draft) (items : List Item) (after : Draft) :
    Prop where
  words : after.assembler.words.toList =
    before.assembler.words.toList ++ items.flatMap Item.codeWords
  labels : labelsOf items = []
  targets : targetsOf items = []
  locals : before.assembler.locals ≤ after.assembler.locals
  slots : ∀ name slot, before.slots.lookup name = some slot →
    after.slots.lookup name = some slot
  slotted : before.Slotted → after.Slotted

namespace Continues

variable {first second third : Draft} {items more : List Item}

theorem refl (draft : Draft) : draft.Continues [] draft :=
  ⟨by simp, rfl, rfl, Nat.le_refl _, fun _ _ => id, id⟩

theorem trans (left : first.Continues items second)
    (right : second.Continues more third) :
    first.Continues (items ++ more) third where
  words := by
    rw [right.words, left.words, List.append_assoc, ← List.flatMap_append]
  labels := by rw [labelsOf_append, left.labels, right.labels]; rfl
  targets := by rw [targetsOf_append, left.targets, right.targets]; rfl
  locals := Nat.le_trans left.locals right.locals
  slots := fun name slot known =>
    right.slots name slot (left.slots name slot known)
  slotted := fun slotted => right.slotted (left.slotted slotted)

theorem withLocal (draft : Draft) : draft.Continues [] draft.withLocal where
  words := by simp [Draft.withLocal, Assembler.newLocal]
  labels := rfl
  targets := rfl
  locals := Nat.le_succ _
  slots := fun _ _ => id
  slotted := fun slotted name slot known =>
    Nat.lt_succ_of_lt (slotted name slot known)

theorem withVariable {draft : Draft} {name : String}
    (new : draft.slots.lookup name = none) :
    draft.Continues [] (draft.withVariable name) where
  words := (withLocal draft).words
  labels := rfl
  targets := rfl
  locals := Nat.le_succ _
  slots := by
    intro other slot known
    have different : (other == name) = false := by
      rw [beq_eq_false_iff_ne]
      rintro rfl
      cases new.symm.trans known
    simpa [Draft.withVariable, List.lookup_cons, different] using known
  slotted := by
    intro slotted other slot known
    simp only [Draft.withVariable, List.lookup_cons] at known
    split at known
    · cases known
      exact Nat.lt_succ_self _
    · exact Nat.lt_succ_of_lt (slotted other slot known)

end Continues

theorem words_addAll (assembler : Assembler) (items : List Item) :
    (assembler.addAll items).words.toList =
      assembler.words.toList ++ items.flatMap Item.codeWords := by
  induction items generalizing assembler with
  | nil => simp [Assembler.addAll]
  | cons item rest ih =>
      have one : (assembler.add item).words.toList =
          assembler.words.toList ++ item.codeWords := by
        cases item <;> simp [Assembler.add, Item.codeWords]
      rw [List.flatMap_cons, ← List.append_assoc, ← one]
      exact ih (assembler.add item)

theorem Continues.emitted (draft : Draft) {items : List Item}
    (labels : labelsOf items = []) (targets : targetsOf items = []) :
    draft.Continues items (draft.emitted items) where
  words := words_addAll draft.assembler items
  labels := labels
  targets := targets
  locals := Nat.le_of_eq (locals_emitted draft items).symm
  slots := fun _ _ => id
  slotted := by
    intro slotted name slot known
    rw [locals_emitted]
    exact slotted name slot known

/-- The word that a variable of the clause has in a view. -/
def bound (draft : Draft) (view : View) (name : String) : Option Word :=
  match draft.slots.lookup name with
  | none => none
  | some slot =>
      match view.locals[slot.index]? with
      | some (.word word) => some word
      | _ => none

theorem bound_eq_some {draft : Draft} {view : View} {name : String}
    {word : Word} : draft.bound view name = some word ↔
      ∃ slot, draft.slots.lookup name = some slot ∧
        view.locals[slot.index]? = some (.word word) := by
  unfold bound
  cases known : draft.slots.lookup name with
  | none => simp
  | some slot =>
      simp only [Option.some.injEq, exists_eq_left']
      split <;> simp_all

end Draft

/-! ## Views that gain cells -/

namespace View

variable {table : FunctorTable} {view middle later : View}
  {cells larger all : Set Address} {before between after : Draft}

/-- A view in which the code of a draft can go on: all variables that have slots
have words that can be read. -/
structure Ready (table : FunctorTable) (draft : Draft) (cells : Set Address)
    (view : View) : Prop where
  readable : view.memory.Readable table cells
  pending : view.pending = []
  few : view.locals.length < 2 ^ 31
  bound : ∀ name slot, draft.slots.lookup name = some slot →
    ∃ word, view.locals[slot.index]? = some (.word word) ∧
      word.Readable table view.memory cells

/-- A later view with the same stack, apart from the slots from a given one on,
and with more cells. -/
structure Gains (table : FunctorTable) (kept : Nat) (cells : Set Address)
    (view : View) (larger : Set Address) (later : View) : Prop where
  preserves : view.memory.Preserves later.memory
  more : cells ⊆ larger
  readable : later.memory.Readable table larger
  pending : later.pending = []
  below : later.below = view.below
  operands : later.operands = view.operands
  continuation : later.continuation = view.continuation
  cutBase : later.cutBase = view.cutBase
  length : later.locals.length = view.locals.length
  locals : ∀ place < kept, later.locals[place]? = view.locals[place]?

namespace Gains

variable {kept others : Nat}

theorem refl (readable : view.memory.Readable table cells)
    (pending : view.pending = []) :
    view.Gains table kept cells cells view :=
  ⟨.refl _, subset_rfl, readable, pending, rfl, rfl, rfl, rfl, rfl,
    fun _ _ => rfl⟩

theorem trans (first : view.Gains table kept cells larger middle)
    (second : middle.Gains table others larger all later)
    (le : kept ≤ others) : view.Gains table kept cells all later where
  preserves := first.preserves.trans second.preserves
  more := first.more.trans second.more
  readable := second.readable
  pending := second.pending
  below := second.below.trans first.below
  operands := second.operands.trans first.operands
  continuation := second.continuation.trans first.continuation
  cutBase := second.cutBase.trans first.cutBase
  length := second.length.trans first.length
  locals := fun place below =>
    (second.locals place (Nat.lt_of_lt_of_le below le)).trans
      (first.locals place below)

theorem leaves (gains : view.Gains table kept cells larger later)
    {limit count : Nat} (leaves : view.Leaves limit count) :
    later.Leaves limit count := by
  refine leaves.congr ?_ (by rw [gains.operands])
  simp [frame, gains.below, gains.length]

theorem word_readable (gains : view.Gains table kept cells larger later)
    {word : Word} (isReadable : word.Readable table view.memory cells) :
    word.Readable table later.memory larger := by
  have still := gains.preserves.word_readable isReadable
  exact ⟨still.sound.mono gains.more, still.isTerm⟩

theorem stands (gains : view.Gains table kept cells larger later)
    {value : Built} {word : Word} (stands : value.Stands view word)
    (below : value.Below kept) : value.Stands later word := by
  cases value with
  | slot place => exact ⟨stands.1, (gains.locals _ below).trans stands.2⟩
  | constant id => exact stands

/-- A slot that was not in use gets a word that can be read. -/
theorem built {memory : Store} {slot : Local} {word : Word}
    (preserves : view.memory.Preserves memory)
    (more : cells ⊆ larger) (readable : memory.Readable table larger)
    (le : kept ≤ slot.index) :
    view.Gains table kept cells larger (view.built memory slot word) where
  preserves := preserves
  more := more
  readable := readable
  pending := rfl
  below := rfl
  operands := rfl
  continuation := rfl
  cutBase := rfl
  length := by simp [View.built, withMemory, setLocal]
  locals := fun place below => locals_setLocal_of_ne
    (Nat.ne_of_lt (Nat.lt_of_lt_of_le below le))

end Gains

/-- A later view with compounds that start at some new cells and with new
variables.  A variable of the clause has its name with its cell. -/
structure Brings (table : FunctorTable) (before after : Draft)
    (cells : Set Address) (view : View) (larger : Set Address) (later : View)
    (keys : List Address) (births : List (Option String × Address)) : Prop
    extends view.Gains table before.assembler.locals cells larger later where
  keysNew : ∀ key ∈ keys, key ∉ view.memory.allocated ∧
    key ∈ later.memory.allocated
  keysDistinct : keys.Nodup
  birthsNew : ∀ birth ∈ births, birth.2 ∉ view.memory.allocated ∧
    birth.2 ∈ larger ∧ later.memory.Holds birth.2 (.reference birth.2)
  birthsDistinct : (births.map Prod.snd).Nodup
  named : ∀ name slot, before.slots.lookup name = none →
    after.slots.lookup name = some slot → ∃ cell, (some name, cell) ∈ births ∧
      later.locals[slot.index]? = some (.word (.reference cell))

namespace Brings

variable {keys moreKeys : List Address}
  {births moreBirths : List (Option String × Address)}

theorem refl (ready : view.Ready table before cells) :
    view.Brings table before before cells cells view [] [] where
  toGains := .refl ready.readable ready.pending
  keysNew := nofun
  keysDistinct := List.nodup_nil
  birthsNew := nofun
  birthsDistinct := List.nodup_nil
  named := by
    intro name slot unknown known
    cases unknown.symm.trans known

theorem trans {items : List Item}
    (first : view.Brings table before between cells larger middle keys births)
    (slotted : between.Slotted)
    (continues : before.assembler.locals ≤ between.assembler.locals)
    (onward : between.Continues items after)
    (second : middle.Brings table between after larger all later moreKeys
      moreBirths) :
    view.Brings table before after cells all later (keys ++ moreKeys)
      (births ++ moreBirths) where
  toGains := first.toGains.trans second.toGains continues
  keysNew := by
    intro key member
    rcases List.mem_append.mp member with old | new
    · exact ⟨(first.keysNew key old).1,
        second.preserves.allocated (first.keysNew key old).2⟩
    · exact ⟨fun inUse =>
        (second.keysNew key new).1 (first.preserves.allocated inUse),
        (second.keysNew key new).2⟩
  keysDistinct := by
    refine List.nodup_append.mpr ⟨first.keysDistinct, second.keysDistinct, ?_⟩
    rintro key old _ new rfl
    exact (second.keysNew key new).1 (first.keysNew key old).2
  birthsNew := by
    intro birth member
    rcases List.mem_append.mp member with old | new
    · obtain ⟨new, inside, holds⟩ := first.birthsNew birth old
      exact ⟨new, second.more inside, second.preserves.holds holds⟩
    · obtain ⟨isNew, inside, holds⟩ := second.birthsNew birth new
      exact ⟨fun inUse => isNew (first.preserves.allocated inUse), inside,
        holds⟩
  birthsDistinct := by
    rw [List.map_append]
    refine List.nodup_append.mpr
      ⟨first.birthsDistinct, second.birthsDistinct, ?_⟩
    rintro cell old _ new rfl
    obtain ⟨birth, member, rfl⟩ := List.mem_map.mp old
    obtain ⟨other, memberToo, same⟩ := List.mem_map.mp new
    have holds := (first.birthsNew birth member).2.2
    exact (second.birthsNew other memberToo).1 (same ▸ holds.1)
  named := by
    intro name slot unknown known
    cases midway : between.slots.lookup name with
    | none =>
        obtain ⟨cell, member, found⟩ := second.named name slot midway known
        exact ⟨cell, List.mem_append_right _ member, found⟩
    | some place =>
        cases known.symm.trans (onward.slots name place midway)
        obtain ⟨cell, member, found⟩ := first.named name slot unknown midway
        refine ⟨cell, List.mem_append_left _ member, ?_⟩
        exact (second.locals _ (slotted name slot midway)).trans found

/-- The draft can go on in the later view. -/
theorem ready {items : List Item}
    (brings : view.Brings table before after cells larger later keys births)
    (slotted : before.Slotted) (continues : before.Continues items after)
    (ready : view.Ready table before cells) :
    later.Ready table after larger where
  readable := brings.readable
  pending := brings.pending
  few := by
    rw [brings.length]
    exact ready.few
  bound := by
    intro name slot known
    cases was : before.slots.lookup name with
    | none =>
        obtain ⟨cell, member, found⟩ := brings.named name slot was known
        obtain ⟨-, inside, -⟩ := brings.birthsNew _ member
        refine ⟨_, found, ?_, ?_⟩
        · rw [Word.cell_reference]
          exact inside
        · rw [Word.cell_reference]
          trivial
    | some place =>
        cases known.symm.trans (continues.slots name place was)
        obtain ⟨word, found, isReadable⟩ := ready.bound name slot was
        exact ⟨word, (brings.locals _ (slotted name slot was)).trans found,
          brings.word_readable isReadable⟩

/-- Variables keep their words. -/
theorem bound {items : List Item}
    (brings : view.Brings table before after cells larger later keys births)
    (slotted : before.Slotted) (continues : before.Continues items after)
    {name : String} {word : Word}
    (isBound : before.bound view name = some word) :
    after.bound later name = some word := by
  obtain ⟨slot, known, found⟩ := Draft.bound_eq_some.mp isBound
  refine Draft.bound_eq_some.mpr ⟨slot, continues.slots name slot known, ?_⟩
  exact (brings.locals _ (slotted name slot known)).trans found

end Brings

/-- A view in which there is room for what code needs: so many heap cells, two
words on the stack, and so many slots. -/
structure Equipped (table : FunctorTable) (limit needed slots : Nat)
    (draft : Draft) (cells : Set Address) (view : View) : Prop
    extends view.Ready table draft cells where
  leaves : view.Leaves limit 2
  spares : view.memory.Spares needed
  enough : slots ≤ view.locals.length

/-- The code leads to a later view and claims so many cells, and there is still
room for others. -/
structure Executes (table : FunctorTable) (limit count rest : Nat)
    (before after : Draft) (items : List Item) (cells : Set Address)
    (view : View) (larger : Set Address) (later : View) (keys : List Address)
    (births : List (Option String × Address)) : Prop
    extends view.Brings table before after cells larger later keys births where
  runs : view.Runs limit items later
  heapTop : later.memory.heapTop = view.memory.heapTop + Int32.ofNat count
  spares : later.memory.Spares rest

namespace Executes

variable {limit count more rest slots : Nat} {items others : List Item}
  {keys moreKeys : List Address}
  {births moreBirths : List (Option String × Address)}

theorem refl (equipped : view.Equipped table limit (0 + rest) slots before cells) :
    view.Executes table limit 0 rest before before [] cells cells view [] [] where
  toBrings := .refl equipped.toReady
  runs := .nil view
  heapTop := (Int32.add_zero _).symm
  spares := by
    have spares := equipped.spares
    rwa [Nat.zero_add] at spares

theorem trans
    (first : view.Executes table limit count (more + rest) before between items
      cells larger middle keys births)
    (slotted : before.Slotted) (goes : before.Continues items between)
    (onward : between.Continues others after)
    (second : middle.Executes table limit more rest between after others larger
      all later moreKeys moreBirths) :
    view.Executes table limit (count + more) rest before after
      (items ++ others) cells all later (keys ++ moreKeys)
      (births ++ moreBirths) where
  toBrings := first.toBrings.trans (goes.slotted slotted) goes.locals onward
    second.toBrings
  runs := first.runs.append second.runs
  heapTop := by
    rw [second.heapTop, first.heapTop, Int32.add_assoc, Int32.ofNat_add]
  spares := second.spares

/-- There is room for the code that follows. -/
theorem equipped
    (executes : view.Executes table limit count rest before after items cells
      larger later keys births)
    (slotted : before.Slotted) (continues : before.Continues items after)
    {needed : Nat}
    (equipped : view.Equipped table limit needed slots before cells) :
    later.Equipped table limit rest slots after larger where
  toReady := executes.ready slotted continues equipped.toReady
  leaves := executes.leaves equipped.leaves
  spares := executes.spares
  enough := by
    rw [executes.length]
    exact equipped.enough

end Executes

end View

end LogicMachine
