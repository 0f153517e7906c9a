import LogicMachine.Proofs.Construction.Outcomes

/-!
# Building terms

The code that is emitted for a term builds cells that depict it.  This is shown
along the recursion of building: the arguments of a compound are built first, and
the piece of code that follows puts their words in a block.
-/

namespace LogicMachine

/-- The cells of the anonymous variables among those that were made. -/
def anonymousCells (births : List (Option String × Address)) : List Address :=
  (births.filter fun birth => birth.1.isNone).map Prod.snd

@[simp]
theorem anonymousCells_append (births more : List (Option String × Address)) :
    anonymousCells (births ++ more) =
      anonymousCells births ++ anonymousCells more := by
  simp [anonymousCells]

namespace Draft

/-- Executing the code makes the value of a term.  It claims a given number of
cells. -/
def Makes (table : FunctorTable) (before after : Draft) (term : Term)
    (value : Built) (items : List Item) (count : Nat) : Prop :=
  ∀ (limit rest : Nat) (cells : Set Address) (view : View),
    view.Equipped table limit (count + rest) after.assembler.locals before
      cells →
    ∃ later larger word keys births,
      view.Executes table limit count rest before after items cells larger later
        keys births ∧
      value.Stands later word ∧ word.Readable table later.memory larger ∧
      later.memory.Depicts table (after.bound later) term word keys
        (anonymousCells births)

/-- Executing the code makes the values of some terms. -/
def MakesAll (table : FunctorTable) (before after : Draft) (terms : List Term)
    (values : List Built) (items : List Item) (count : Nat) : Prop :=
  ∀ (limit rest : Nat) (cells : Set Address) (view : View),
    view.Equipped table limit (count + rest) after.assembler.locals before
      cells →
    ∃ later larger words keys births,
      view.Executes table limit count rest before after items cells larger later
        keys births ∧
      List.Forall₂ (Built.Stands later) values words ∧
      (∀ word ∈ words, word.Readable table later.memory larger) ∧
      later.memory.DepictsAll table (after.bound later) terms words keys
        (anonymousCells births)

/-- The draft has gone on with code that makes the value of a term. -/
structure BuildsTerm (table : FunctorTable) (before : Draft) (term : Term)
    (value : Built) (after : Draft) (items : List Item) (count : Nat) :
    Prop where
  continues : before.Continues items after
  below : value.Below after.assembler.locals
  few : count < 3 * term.nodes
  makes : before.Makes table after term value items count

/-- The draft has gone on with code that makes the values of some terms. -/
structure BuildsTerms (table : FunctorTable) (before : Draft)
    (terms : List Term) (values : List Built) (after : Draft)
    (items : List Item) (count : Nat) : Prop where
  continues : before.Continues items after
  length : values.length = terms.length
  below : ∀ value ∈ values, value.Below after.assembler.locals
  few : count + terms.length ≤ 3 * Term.nodesOf terms
  makes : before.MakesAll table after terms values items count

variable {table : FunctorTable} {before between after : Draft}

/-! ## Atoms and variables -/

/-- An atom needs no code. -/
theorem BuildsTerm.constant {term : Term} {id : FunctorId} {functor : Functor}
    (depicts : ∀ store bound,
      Store.Depicts table store bound term (.constant id) [] [])
    (known : table.functor id = .ok functor) :
    before.BuildsTerm table term (.constant id) before [] 0 where
  continues := .refl before
  below := trivial
  few := Nat.mul_pos (by decide) term.nodes_pos
  makes := by
    intro limit rest cells view equipped
    refine ⟨view, cells, .constant id, [], [], .refl equipped, rfl, ⟨?_, ?_⟩,
      depicts _ _⟩
    · rw [Word.cell_constant]
      trivial
    · rw [Word.cell_constant]
      exact ⟨functor, known⟩

/-- A variable that has a slot needs no code. -/
theorem BuildsTerm.again {name : String} {slot : Local}
    (slotted : before.Slotted) (isNamed : name ≠ Term.anonymous)
    (known : before.slots.lookup name = some slot) :
    before.BuildsTerm table (.var name) (.slot slot) before [] 0 where
  continues := .refl before
  below := slotted name slot known
  few := by simp [Term.nodes]
  makes := by
    intro limit rest cells view equipped
    obtain ⟨word, found, isReadable⟩ := equipped.bound name slot known
    have inside : slot.index < 2 ^ 31 :=
      Nat.lt_trans (List.getElem?_eq_some_iff.mp found).1 equipped.few
    exact ⟨view, cells, word, [], [], .refl equipped, ⟨inside, found⟩,
      isReadable, .named isNamed (bound_eq_some.mpr ⟨slot, known, found⟩)⟩

/-- A new variable, with a slot that was just set aside for it. -/
theorem BuildsTerm.fresh {name : String} (birth : Option String)
    (continues : before.Continues [] between)
    (locals : between.assembler.locals = before.assembler.locals + 1)
    (named : ∀ other slot, before.slots.lookup other = none →
      between.slots.lookup other = some slot →
        birth = some other ∧ slot = before.nextLocal)
    (depicts : ∀ (view : View) (cell : Address),
      view.memory.Holds cell (.reference cell) →
      view.locals[before.nextLocal.index]? = some (.word (.reference cell)) →
      view.memory.Depicts table (between.bound view) (.var name)
        (.reference cell) [] (anonymousCells [(birth, cell)])) :
    before.BuildsTerm table (.var name) (.slot before.nextLocal)
      (between.emitted (Item.freshVariable (some before.nextLocal)))
      (Item.freshVariable (some before.nextLocal)) 1 where
  continues := continues.trans (.emitted between rfl rfl)
  below := by
    show before.assembler.locals < _
    rw [locals_emitted, locals]
    exact Nat.lt_succ_self _
  few := by simp [Term.nodes]
  makes := by
    intro limit rest cells view equipped
    have enough := equipped.enough
    rw [locals_emitted, locals] at enough
    have inside : before.nextLocal.index < view.locals.length := enough
    have small := Nat.lt_trans inside equipped.few
    have spares := equipped.spares
    rw [Nat.add_comm] at spares
    have growable := spares.growable
    have holds := growable.holds (.reference (.heap view.memory.heapTop))
    have isMember : Address.heap view.memory.heapTop ∈
        insert (.heap view.memory.heapTop) cells := Set.mem_insert _ _
    have found := @View.locals_setLocal_self view _
      (.word (.reference (.heap view.memory.heapTop))) inside
    refine ⟨_, _, _, [], [(birth, _)], ⟨⟨.built (growable.preserves _)
      (Set.subset_insert _ _) (equipped.readable.grown_unbound growable)
      (Nat.le_refl _), by simp, List.nodup_nil, ?_, by simp, ?_⟩,
      View.runs_freshVariable small inside growable equipped.leaves, rfl,
      spares.grown _⟩, ⟨small, found⟩, ⟨?_, ?_⟩, depicts _ _ holds found⟩
    · intro other member
      cases List.mem_singleton.mp member
      exact ⟨Store.top_notMem_allocated _, isMember, holds⟩
    · intro other slot unknown known
      obtain ⟨rfl, rfl⟩ := named other slot unknown known
      exact ⟨_, List.mem_singleton_self _, found⟩
    · rw [Word.cell_reference]
      exact isMember
    · rw [Word.cell_reference]
      trivial

/-! ## Compounds -/

/-- The piece of code puts the words of built arguments in a block and the word
of the compound in a slot. -/
def Assembles (table : FunctorTable) (functor : String) (values : List Built)
    (slot : Local) (piece : List Item) (size : Nat) : Prop :=
  ∀ (limit rest slots : Nat) (draft : Draft) (cells : Set Address)
    (view : View) (words : List Word),
    view.Equipped table limit (size + rest) slots draft cells →
    slot.index < slots → List.Forall₂ (Built.Stands view) values words →
    (∀ word ∈ words, word.Readable table view.memory cells) →
    ∃ memory word larger key parts,
      View.Runs limit view piece (view.built memory slot word) ∧
      Store.Compounds table view.memory cells functor words memory word larger
        key parts ∧
      memory.heapTop = view.memory.heapTop + Int32.ofNat size ∧
      memory.Spares rest

theorem assembles_structure {functor : String} {id : FunctorId}
    {values : List Built} {slot : Local}
    (known : table.functor id = .ok ⟨functor, values.length⟩)
    (below : ∀ value ∈ values, value.Below slot.index) :
    Assembles table functor values slot (Built.structureItems slot id values)
      (values.length + 2) := by
  intro limit rest slots draft cells view words equipped isSlot stand areReadable
  have length := stand.length_eq
  have inside := Nat.lt_of_lt_of_le isSlot equipped.enough
  have small := Nat.lt_trans inside equipped.few
  have spares := equipped.spares
  rw [length] at known spares ⊢
  have some : view.memory.Spares (words.length + 2) :=
    spares.mono (Nat.le_add_right _ _)
  obtain ⟨larger, parts, compounds⟩ :=
    some.headed equipped.readable areReadable known
  have runs := @View.runs_structureItems view limit slot id values words small
    inside stand below some equipped.leaves
  refine ⟨_, _, larger, _, parts, runs, compounds, ?_, ?_⟩
  · exact Store.heapTop_grownAll _ _
  · exact Store.Spares.grownAll spares

theorem assembles_pair {head tail : Built} {slot : Local}
    (headBelow : head.Below slot.index) (tailBelow : tail.Below slot.index) :
    Assembles table Term.listFunctor [head, tail] slot
      (Built.pairItems slot head tail) 2 := by
  intro limit rest slots draft cells view words equipped isSlot stand areReadable
  cases stand with
  | cons headStands stand =>
      cases stand with
      | cons tailStands none =>
          cases none
          have inside := Nat.lt_of_lt_of_le isSlot equipped.enough
          have small := Nat.lt_trans inside equipped.few
          have some : view.memory.Spares 2 :=
            equipped.spares.mono (Nat.le_add_right _ _)
          obtain ⟨larger, parts, compounds⟩ := some.pair equipped.readable
            (areReadable _ List.mem_cons_self)
            (areReadable _ (List.mem_cons_of_mem _ List.mem_cons_self))
          have runs := View.runs_pairItems small inside headStands headBelow
            tailStands tailBelow equipped.pending some equipped.leaves
          refine ⟨_, _, larger, _, parts, runs, compounds, ?_, ?_⟩
          · exact Store.heapTop_grownAll _ _
          · exact Store.Spares.grownAll equipped.spares

/-- What was built is put together in a new slot. -/
theorem MakesAll.compound {functor : String} {args : List Term}
    {values : List Built} {items piece : List Item} {count size : Nat}
    (makes : before.MakesAll table between args values items count)
    (slotted : before.Slotted) (goes : before.Continues items between)
    (nonempty : args ≠ []) (labels : labelsOf piece = [])
    (targets : targetsOf piece = [])
    (assembles : Assembles table functor values between.nextLocal piece size) :
    before.Makes table (between.withLocal.emitted piece)
      (.compound functor args) (.slot between.nextLocal) (items ++ piece)
      (count + size) := by
  intro limit rest cells view equipped
  have onward : between.Continues piece (between.withLocal.emitted piece) :=
    (Continues.withLocal between).trans (.emitted _ labels targets)
  have room : view.Equipped table limit (count + (size + rest))
      between.assembler.locals before cells := by
    refine { equipped with spares := ?_, enough := ?_ }
    · rw [← Nat.add_assoc]
      exact equipped.spares
    · exact Nat.le_trans onward.locals equipped.enough
  obtain ⟨middle, some, words, keys, births, executes, stand, areReadable,
    depicts⟩ := makes limit (size + rest) cells view room
  have middleRoom : middle.Equipped table limit (size + rest)
      (between.withLocal.emitted piece).assembler.locals between some := by
    refine { executes.equipped slotted goes equipped with enough := ?_ }
    rw [executes.length]
    exact equipped.enough
  have isSlot : between.nextLocal.index <
      (between.withLocal.emitted piece).assembler.locals := by
    rw [locals_emitted]
    exact Nat.lt_succ_self _
  obtain ⟨memory, word, larger, key, parts, runs, compounds, heapTop, spares⟩ :=
    assembles limit rest _ between some middle words middleRoom isSlot stand
      areReadable
  have inside := Nat.lt_of_lt_of_le isSlot middleRoom.enough
  have last : middle.Executes table limit size rest between
      (between.withLocal.emitted piece) piece some larger
      (middle.built memory between.nextLocal word) [key] [] := by
    refine ⟨⟨.built compounds.preserves compounds.more compounds.readable
      (Nat.le_refl _), ?_, List.nodup_singleton key, nofun, List.nodup_nil, ?_⟩,
      runs, heapTop, spares⟩
    · intro other member
      cases List.mem_singleton.mp member
      exact ⟨compounds.new, compounds.inUse⟩
    · intro name slot unknown known
      cases unknown.symm.trans known
  have whole := executes.trans slotted goes onward last
  rw [List.append_nil] at whole
  refine ⟨_, larger, word, _, births, whole, ⟨?_, ?_⟩, compounds.isReadable, ?_⟩
  · exact Nat.lt_trans inside middleRoom.few
  · exact View.locals_setLocal_self inside
  · exact .compound nonempty compounds.isCompound compounds.inUse
      compounds.loads (depicts.later compounds.preserves fun name word isBound =>
        last.bound (goes.slotted slotted) onward isBound)

theorem MakesAll.nil : before.MakesAll table before [] [] [] 0 := by
  intro limit rest cells view equipped
  exact ⟨view, cells, [], [], [], .refl equipped, .nil, nofun, .nil⟩

theorem BuildsTerms.nil : before.BuildsTerms table [] [] before [] 0 :=
  ⟨.refl before, rfl, fun _ member => absurd member List.not_mem_nil,
    Nat.le_refl _, .nil⟩

/-- A term before others. -/
theorem BuildsTerms.cons {term : Term} {terms : List Term} {value : Built}
    {values : List Built} {items more : List Item} {count others : Nat}
    (slotted : before.Slotted)
    (first : before.BuildsTerm table term value between items count)
    (rest : between.BuildsTerms table terms values after more others) :
    before.BuildsTerms table (term :: terms) (value :: values) after
      (items ++ more) (count + others) where
  continues := first.continues.trans rest.continues
  length := congrArg (· + 1) rest.length
  below := by
    intro built member
    rcases List.mem_cons.mp member with rfl | later
    · cases built with
      | slot place => exact Nat.lt_of_lt_of_le first.below rest.continues.locals
      | constant id => trivial
    · exact rest.below built later
  few := by
    have one := first.few
    have all := rest.few
    simp only [Term.nodesOf, List.length_cons]
    omega
  makes := by
    intro limit spare cells view equipped
    have room : view.Equipped table limit (count + (others + spare))
        between.assembler.locals before cells := by
      refine { equipped with spares := ?_, enough := ?_ }
      · rw [← Nat.add_assoc]
        exact equipped.spares
      · exact Nat.le_trans rest.continues.locals equipped.enough
    obtain ⟨middle, some, word, keys, births, executes, stands, isReadable,
      depicts⟩ := first.makes limit (others + spare) cells view room
    have middleRoom :=
      executes.equipped slotted first.continues equipped
    obtain ⟨later, larger, words, moreKeys, moreBirths, second, stand,
      areReadable, depictsAll⟩ := rest.makes limit spare some middle middleRoom
    have still := first.continues.slotted slotted
    refine ⟨later, larger, word :: words, keys ++ moreKeys,
      births ++ moreBirths,
      executes.trans slotted first.continues rest.continues second,
      .cons (second.stands stands first.below) stand, ?_, ?_⟩
    · intro other member
      rcases List.mem_cons.mp member with rfl | inside
      · exact second.word_readable isReadable
      · exact areReadable other inside
    · rw [anonymousCells_append]
      exact .cons (depicts.later second.preserves fun name word isBound =>
        second.bound still rest.continues isBound) depictsAll

theorem BuildsTerms.compound {functor : String} {args : List Term}
    {values : List Built} {items piece : List Item} {count size : Nat}
    (builds : before.BuildsTerms table args values between items count)
    (slotted : before.Slotted) (nonempty : args ≠ [])
    (labels : labelsOf piece = []) (targets : targetsOf piece = [])
    (small : size ≤ args.length + 2)
    (assembles : Assembles table functor values between.nextLocal piece size) :
    before.BuildsTerm table (.compound functor args) (.slot between.nextLocal)
      (between.withLocal.emitted piece) (items ++ piece) (count + size) where
  continues := builds.continues.trans
    ((Continues.withLocal between).trans (.emitted _ labels targets))
  below := by
    show between.assembler.locals < _
    rw [locals_emitted]
    exact Nat.lt_succ_self _
  few := by
    have few := builds.few
    simp only [Term.nodes]
    omega
  makes := builds.makes.compound slotted builds.continues nonempty labels targets
    assembles

end Draft

end LogicMachine
