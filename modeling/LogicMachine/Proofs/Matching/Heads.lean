import LogicMachine.Proofs.Matching.Ending
import LogicMachine.Proofs.Matching.Entering

/-!
# Running the head of a clause

A clause that is entered on words for its arguments unifies them with those of
its head.  It comes to the end of the head only if the equations between the
words and the terms can be solved; the trees that the cells may have then are
those of the solutions, and the slots of the variables hold words for their
trees.  It gives up only if there is no solution.
-/

namespace LogicMachine

namespace Scene

variable {scene : Scene} {view : View} {cells : Set Address}
  {kept : List Keep} {waiting : List Demand} {position : Nat}

/-- The level to cut back to is kept in the first slot. -/
theorem level {cuts : Bool}
    (holds : scene.Holds position (keepLevel cuts))
    (ready : scene.Ready view cells [] waiting)
    (inside : cuts = true → 0 < scene.count)
    (next : ∀ later, scene.Ready later cells [] waiting →
      later.memory = view.memory →
      scene.Ensures (position + textSize (keepLevel cuts)) later) :
    scene.Ensures position view := by
  cases cuts with
  | false => exact next view ready rfl
  | true =>
      have isFirst : (⟨0⟩ : Local).index < view.locals.length := by
        rw [ready.length]
        exact inside rfl
      have settled : scene.Ready (view.setLocal 0 (.address view.cutBase))
          cells [] waiting := ready.setLocal nofun _
      refine straight holds ?_
      exact @View.after_storeLocal (view.push (.address view.cutBase)) _ ⟨0⟩ _ _
        (Nat.two_pow_pos 31) rfl isFirst (next _ settled rfl)

end Scene

namespace Machine.Awaits

variable {machine : Machine} {entry : Nat} {words : List Word}
  {cells : Set Address}

/-- The head of a clause that is entered. -/
def scene (awaits : machine.Awaits entry words cells)
    {guard : Guard machine.program.functors}
    (minds : guard.Minds machine.store cells) (head : Goal)
    (under : List Word) (place : Label → Nat) {fuels : Set Nat}
    {stop count : Nat} (few : count < 2 ^ 31) {goal : Machine → Prop}
    (closes : Closes (awaits.context guard) fuels stop
      ((Situation.ofCall machine.store.memory cells words head).Unsolvable
        machine.program.functors machine.program.naming)
      (Store.Endless machine.program.functors) goal) : Scene where
  context := awaits.context guard
  naming := machine.program.naming
  place := place
  fuels := fuels
  stop := stop
  goal := goal
  start := .ofCall machine.store.memory cells words head
  below := below machine under words
  count := count
  continuation := machine.registers.continuation
  cutBase := machine.registers.cutBase
  few := few
  consistent := awaits.consistent
  numbers := fun _ _ => id
  closes := closes
  apart := minds.apart
  behind := minds.behind

section Scene

variable (awaits : machine.Awaits entry words cells)
  {guard : Guard machine.program.functors}
  (minds : guard.Minds machine.store cells) {head : Goal}
  {under : List Word} {place : Label → Nat} {fuels : Set Nat}
  {stop count : Nat} {few : count < 2 ^ 31} {goal : Machine → Prop}
  {closes : Closes (awaits.context guard) fuels stop
    ((Situation.ofCall machine.store.memory cells words head).Unsolvable
      machine.program.functors machine.program.naming)
    (Store.Endless machine.program.functors) goal}

theorem ready :
    (awaits.scene minds head under place few closes).Ready
      (entered machine under words count) cells []
      (Demand.each words head.args) where
  terms := awaits.terms
  pending := rfl
  operands := rfl
  below := rfl
  length := List.length_replicate
  continuation := rfl
  cutBase := rfl
  stored := nofun
  awaited := by
    intro demand member word isWord
    obtain ⟨index, below, rfl⟩ := List.mem_iff_getElem.mp member
    simp only [Demand.each, List.getElem_zipWith] at isWord
    cases List.mem_singleton.mp isWord
    exact awaits.arguments _ (List.getElem_mem _)
  refines := by
    rw [List.map_nil, List.append_nil]
    exact .refl _
  covered := fun _ => .inl

/-- The arguments lie below the saved registers, the first one on top. -/
theorem offers :
    (awaits.scene minds head under place few closes).Offers 0 words := by
  intro offset word found
  obtain ⟨inside, -⟩ := List.getElem?_eq_some_iff.mp found
  have size : (below machine under words).length =
      under.length + words.length + 2 := by
    simp [below, Nat.add_assoc]
  show 0 + offset + 3 ≤ (below machine under words).length ∧
    (below machine under words)[(below machine under words).length - 3 -
      (0 + offset)]? = some word
  rw [size]
  refine ⟨by omega, ?_⟩
  have index : under.length + words.length + 2 - 3 - (0 + offset) =
      under.length + (words.length - 1 - offset) := by omega
  rw [index, below, List.append_assoc, List.getElem?_append_right (by omega),
    Nat.add_sub_cancel_left,
    List.getElem?_append_left (by rw [List.length_reverse]; omega),
    List.getElem?_reverse (by omega), ← found]
  congr 1
  omega

/-- The code in front of the goals brings about what holds at its end. -/
theorem ensures_opened {rule : Rule} {trace : Bool} {draft : Draft}
    {closes : Closes (awaits.context guard) fuels stop
      ((Situation.ofCall machine.store.memory cells words
        rule.head).Unsolvable machine.program.functors machine.program.naming)
      (Store.Endless machine.program.functors) goal}
    (layout : rule.Layout trace machine.program.naming draft) {position : Nat}
    (holds : (awaits.scene minds rule.head under place few closes).Holds position
      (rule.prelude layout.traced ++ layout.head))
    (length : words.length = rule.head.arity)
    (fits : draft.assembler.locals ≤ count)
    (next : ∀ later larger named,
      (awaits.scene minds rule.head under place few closes).Stage layout.opened later
        larger named [] [] →
      (awaits.scene minds rule.head under place few closes).Ensures
        (position + textSize (rule.prelude layout.traced ++ layout.head))
        later) :
    (awaits.scene minds rule.head under place few closes).Ensures position
      (entered machine under words count) := by
  have upto := Nat.le_trans layout.locals fits
  rw [Rule.prelude] at holds next
  simp only [textSize_append, ← Nat.add_assoc] at next
  simp only [Scene.holds_append] at holds
  obtain ⟨⟨levelling, reporting⟩, matching⟩ := holds
  simp only [textSize_append, ← Nat.add_assoc] at matching
  have inside (cuts : rule.hasCut = true) : 0 < count := by
    have first : (rule.started layout.traced).assembler.locals = 1 := by
      rw [Rule.started, Draft.locals_emitted, Rule.levelled, if_pos cuts]
      rfl
    have grows := layout.matched.locals_mono
    omega
  refine Scene.level levelling (awaits.ready minds) inside fun view ready same => ?_
  have areTerms : ∀ word ∈ words, word.IsTerm
      (awaits.scene minds rule.head under place few closes).table view.memory
      cells := by
    rw [same]
    exact awaits.arguments
  refine Scene.report reporting ready ?_ (awaits.offers minds) areTerms ?_
  · intro id traced
    exact ⟨_, awaits.consistent.numbered _ _ (layout.known id traced),
      length.symm⟩
  · exact Scene.matchHead layout.matched matching upto length (awaits.offers minds)
      ⟨rule.arranges_started layout.traced, ready⟩ next

end Scene

/-- Running a clause to the end of its head solves the equations of the call, if
that can be done. -/
theorem crosses_head (awaits : machine.Awaits entry words cells) {rule : Rule}
    {trace : Bool} {draft : Draft}
    (layout : rule.Layout trace machine.program.naming draft)
    {place : Label → Nat}
    (holds : machine.program.Holds place entry
      (Assembler.clauseText draft.assembler.locals rule.head.arity
        (rule.prelude layout.traced ++ layout.head ++ layout.body)))
    (ends : entry + textSize (Assembler.clauseText draft.assembler.locals
      rule.head.arity (rule.prelude layout.traced ++ layout.head ++
        layout.body)) ≤ machine.program.code.size)
    (length : words.length = rule.head.arity) (fuel : Nat) :
    ∃ finish, machine.Crosses fuel
        (entry + 2 + layout.opened.assembler.words.size) finish ∧
      finish.Satisfies
        (machine.Unifies
          (.ofCall machine.store.memory cells words rule.head) layout.opened)
        ((Situation.ofCall machine.store.memory cells words
          rule.head).Unsolvable machine.program.functors
            machine.program.naming)
        (Store.Endless machine.program.functors fuel) := by
  have whole : textSize (Assembler.clauseText draft.assembler.locals
      rule.head.arity (rule.prelude layout.traced ++ layout.head ++
        layout.body)) =
      2 + textSize (rule.prelude layout.traced ++ layout.head ++
        layout.body) + 3 := by
    simp [Assembler.clauseText, textSize_cons, Item.codeWords]
    omega
  have front := layout.size
  have bound : _ ≤ textSize (_ ++ layout.body) := layout.few
  have code := awaits.small
  rw [textSize_append] at whole bound
  rw [whole] at ends
  have few : draft.assembler.locals < 2 ^ 31 := by omega
  have small : entry + 2 + layout.opened.assembler.words.size < 2 ^ 31 := by
    omega
  obtain ⟨under, stacked⟩ := awaits.stacked
  have minds := Guard.trivial_minds machine.program.functors machine.store cells
  have closes := @closes_crosses fuel _ small
    (machine.Unifies (.ofCall machine.store.memory cells words rule.head)
      layout.opened)
    ((Situation.ofCall machine.store.memory cells words
      rule.head).Unsolvable machine.program.functors machine.program.naming)
    (awaits.context (.trivial _)) (Store.Endless machine.program.functors)
  apply awaits.ensures stacked holds few minds.holds (by omega) closes
  have reached : entry + 2 + layout.opened.assembler.words.size =
      entry + 2 + textSize (rule.prelude layout.traced ++ layout.head) := by
    rw [front]
  have inner : (awaits.scene minds rule.head under place few closes).Holds (entry + 2)
      (rule.prelude layout.traced ++ layout.head) :=
    ⟨(Program.holds_append.mp (Program.holds_append.mp holds.2.2).1).1,
      Nat.le_of_eq reached.symm⟩
  refine awaits.ensures_opened minds layout inner length (Nat.le_refl _)
    fun later larger named stage final shown => ?_
  rw [← front] at shown
  exact ⟨_, .arrives shown.instruction,
    .of_solved shown.program (stage.solved shown layout.locals)⟩

end Machine.Awaits

theorem Program.HasWords.le_size {program : Program} {position : Nat}
    {words : List UInt32} (stands : program.HasWords position words)
    (nonempty : words ≠ []) :
    position + words.length ≤ program.code.size := by
  have last := stands (words.length - 1) _
    (List.getElem?_eq_getElem
      (Nat.sub_lt (List.length_pos_iff.mpr nonempty) Nat.one_pos))
  have inside := (Array.getElem?_eq_some_iff.mp last).1
  have some := List.length_pos_iff.mpr nonempty
  omega

/-- Running a compiled clause to the end of its head unifies the arguments of
the call with those of the head.  The run ends in one way only.  It arrives at
the first instruction after the head with the solutions of the equations, it
gives up if there are none, or it meets a full segment or a cyclic term. -/
theorem Machine.Awaits.unifies_head {machine : Machine} {rule : Rule}
    {trace : Bool} {code : List UInt32} {entry : Nat} {words : List Word}
    {cells : Set Address}
    (compiled : machine.program.Compiled rule trace code)
    (stands : machine.program.HasWords entry code)
    (awaits : machine.Awaits entry words cells)
    (length : words.length = rule.head.arity) :
    ∃ opened limit, rule.opened trace machine.program.naming = .ok opened ∧
      opened.Covers rule.head.vars ∧
      ∀ fuel ≥ limit, ∃ finish,
        (∀ other, machine.Crosses fuel
          (entry + 2 + opened.assembler.words.size) other ↔ other = finish) ∧
        finish.Satisfies
          (machine.Unifies
            (.ofCall machine.store.memory cells words rule.head) opened)
          ((Situation.ofCall machine.store.memory cells words
            rule.head).Unsolvable machine.program.functors
              machine.program.naming)
          (Store.Cyclic machine.program.functors) := by
  obtain ⟨draft, layout, place, size, holds⟩ := compiled.layout stands
  have nonempty : code ≠ [] := by
    rintro rfl
    rw [Assembler.clauseText, List.cons_append, textSize_cons] at size
    simp [Item.codeWords] at size
  have ends := stands.le_size nonempty
  rw [size] at ends
  obtain ⟨limit, cyclic⟩ := exists_steps_cyclic machine.program.functors
  refine ⟨layout.opened, limit, layout.isOpened, layout.matched.coversVars, ?_⟩
  intro fuel enough
  obtain ⟨finish, crosses, satisfies⟩ :=
    awaits.crosses_head layout holds ends length fuel
  refine ⟨finish, fun other => ⟨fun also => also.unique crosses, ?_⟩, ?_⟩
  · rintro rfl
    exact crosses
  · exact satisfies.imp (fun _ => id) id (cyclic fuel enough)

/-! ## A call with two variables -/

/-- A clause for lists and their first items. -/
def firstItem : Rule where
  head := ⟨"first", [.compound Term.listFunctor [.var "X", .var Term.anonymous],
    .var "X"]⟩
  goals := []

/-- The code of the clause. -/
def firstItemCode : List UInt32 :=
  match ProgramM.compile firstItem false (.empty 256 .silent) with
  | .ok words _ => words
  | .error _ _ => []

/-- A program that consists of the clause. -/
def firstItemProgram : Program :=
  { Program.empty 256 .silent with
    code := (firstItemCode ++
      List.replicate (256 - firstItemCode.length) 0).toArray }

theorem firstItemCode_length : firstItemCode.length ≤ 256 := by
  decide +kernel

theorem Program.Keeps.withCode (program : Program) {code : Array UInt32}
    (size : code.size = program.code.size) :
    program.Keeps { program with code } where
  functors := fun _ _ => id
  numbers := fun _ _ => id
  entries := fun _ predicate known => ⟨predicate, known, rfl⟩
  natives := fun _ _ => id
  size := Nat.le_refl _
  capacity := size

theorem firstItemProgram_size : firstItemProgram.code.size = 256 := by
  rw [firstItemProgram, List.size_toArray, List.length_append,
    List.length_replicate, Nat.add_sub_cancel' firstItemCode_length]

theorem firstItem_compiled :
    firstItemProgram.Compiled firstItem false firstItemCode :=
  ⟨.empty 256 .silent, .empty 256 .silent,
    fun _ => FunctorTable.empty_consistent, rfl,
    .withCode _ (firstItemProgram_size.trans (by simp [Program.empty,
      dispatchSize]))⟩

theorem firstItemProgram_hasWords :
    firstItemProgram.HasWords 0 firstItemCode := by
  intro index word found
  rw [Nat.zero_add, firstItemProgram, List.getElem?_toArray,
    List.getElem?_append_left (List.getElem?_eq_some_iff.mp found).1]
  exact found

/-- A variable on the heap and a retained one, with words for both on the
stack. -/
def twoVariables : Store where
  heap := #[Word.reference (.heap 0), .zero, .zero, .zero, .zero, .zero]
  heapTop := 1
  retained := #[Word.reference (.retained 0), .zero]
  retainedTop := 1
  stack := ([Word.reference (.retained 0), Word.reference (.heap 0)] ++
    List.replicate 30 Word.zero).toArray
  pointer := 1
  trail := .empty

/-- The cells of the variables. -/
def twoVariablesCells : Set Address :=
  {.heap 0, .retained 0}

theorem twoVariables_load {address : Address}
    (inUse : address ∈ twoVariables.memory.allocated) {word : Word}
    (found : twoVariables.memory.load address = .ok word) :
    word = Word.reference address := by
  have first (index : Int32) (nonnegative : 0 ≤ index) (below : index < 1) :
      index = 0 := by
    rw [Int32.le_iff_toInt_le] at nonnegative
    rw [Int32.lt_iff_toInt_lt] at below
    apply Int32.toInt_inj.mp
    simp at *
    omega
  obtain ⟨region, index, rfl⟩ := Store.region_of_load_memory found
  have nonnegative : 0 ≤ index := by
    have isCell := Store.isCell_of_load found
    cases region <;> exact isCell.2
  have isFirst : index = 0 := first index nonnegative (by
    cases region <;> exact inUse)
  subst isFirst
  cases region <;> exact (Except.ok.inj found).symm

theorem twoVariables_terms (table : FunctorTable) :
    twoVariables.memory.Terms table twoVariablesCells := by
  have first : twoVariables.memory.load (.heap 0) =
      .ok (Word.reference (.heap 0)) := rfl
  have second : twoVariables.memory.load (.retained 0) =
      .ok (Word.reference (.retained 0)) := rfl
  refine ⟨⟨⟨?_, ?_, ?_⟩, ?_⟩, rfl, ?_, ?_, ?_⟩
  · rintro address (rfl | rfl)
    · exact ⟨_, first, by simp [Word.Formed, twoVariablesCells]⟩
    · exact ⟨_, second, by simp [Word.Formed, twoVariablesCells]⟩
  · rintro address (rfl | rfl) <;>
      simp [Store.allocated, Store.memory, twoVariables]
  · rintro address (rfl | rfl) isRetained word found
    · cases isRetained
    · rw [second] at found
      cases found
      simp only [Word.PointsInto, Word.cell_reference]
      exact ⟨0, rfl⟩
  · rintro address (rfl | rfl)
    · exact ⟨_, .here ⟨_, first, by simp⟩⟩
    · exact ⟨_, .here ⟨_, second, by simp⟩⟩
  · rintro address (rfl | rfl) word found
    · rw [first] at found
      cases found
      intro id decoded
      simp at decoded
    · rw [second] at found
      cases found
      intro id decoded
      simp at decoded
  · rintro address (rfl | rfl)
    · exact ⟨.heap, 0, rfl⟩
    · exact ⟨.retained, 0, rfl⟩
  · intro address inUse word id found decoded
    rw [twoVariables_load inUse found] at decoded
    simp at decoded

/-- A machine that is about to enter the clause for two variables. -/
def firstItemCall : Machine where
  store := twoVariables
  registers := ⟨.code 0, .stack (-1), .code (-1), .blank 0⟩
  program := firstItemProgram
  collectors := []

/-- Words for the variables. -/
def twoVariablesWords : List Word :=
  [Word.reference (.heap 0), Word.reference (.retained 0)]

theorem firstItemCall_awaits :
    firstItemCall.Awaits 0 twoVariablesWords twoVariablesCells where
  small := by
    show firstItemProgram.code.size < 2 ^ 31
    rw [firstItemProgram_size]
    decide
  consistent := FunctorTable.empty_consistent
  addressable := ⟨by decide, by decide, by decide⟩
  room := by
    rintro (_ | _) <;> exact ⟨by decide, by decide⟩
  instruction := rfl
  stacked := by
    refine ⟨[], rfl, by decide, ?_⟩
    intro index word found
    have listed : [Word.reference (.retained 0),
        Word.reference (.heap 0)][index]? = some word := found
    rw [firstItemCall, twoVariables, List.getElem?_toArray,
      List.getElem?_append_left (List.getElem?_eq_some_iff.mp listed).1]
    exact listed
  terms := twoVariables_terms _
  arguments := by
    intro word member
    have formed : ∀ address ∈ twoVariablesCells,
        (Word.reference address).IsTerm firstItemCall.program.functors
          firstItemCall.store.memory twoVariablesCells := by
      intro address inside
      refine ⟨?_, ?_⟩
      · simpa [Word.Formed] using inside
      · intro id decoded
        simp at decoded
    simp only [twoVariablesWords, List.mem_cons, List.not_mem_nil,
      or_false] at member
    rcases member with rfl | rfl
    · exact formed _ (.inl rfl)
    · exact formed _ (.inr rfl)

theorem firstItem_opened {opened : Draft}
    (isOpened : firstItem.opened false firstItemCall.program.naming =
      .ok opened) : opened.assembler.words.size = 81 := by
  have sizes : (firstItem.opened false firstItemCall.program.naming).map
      (fun draft => draft.assembler.words.size) = .ok 81 := by
    decide +kernel
  rw [isOpened] at sizes
  exact Except.ok.inj sizes

/-- The call comes to the end of the head, with the solutions of its
equations. -/
theorem Machine.Awaits.unifies_head_firstItem :
    firstItemCall.program.Compiled firstItem false firstItemCode ∧
      firstItemCall.program.HasWords 0 firstItemCode ∧
      firstItemCall.Awaits 0 twoVariablesWords twoVariablesCells ∧
      ∃ opened limit,
        firstItem.opened false firstItemCall.program.naming = .ok opened ∧
        opened.Covers firstItem.head.vars ∧
        ∀ fuel ≥ limit, ∃ last,
          (∀ other, firstItemCall.Crosses fuel
            (0 + 2 + opened.assembler.words.size) other ↔
              other = .arrived last) ∧
          firstItemCall.Unifies
            (.ofCall firstItemCall.store.memory twoVariablesCells
              twoVariablesWords firstItem.head) opened last := by
  obtain ⟨opened, limit, isOpened, covers, ends⟩ :=
    @Machine.Awaits.unifies_head firstItemCall firstItem false firstItemCode 0
      twoVariablesWords twoVariablesCells firstItem_compiled
      firstItemProgram_hasWords firstItemCall_awaits rfl
  refine ⟨firstItem_compiled, firstItemProgram_hasWords, firstItemCall_awaits,
    opened, max limit 1, isOpened, covers, ?_⟩
  intro fuel enough
  obtain ⟨finish, only, satisfies⟩ := ends fuel (le_of_max_le_left enough)
  rw [firstItem_opened isOpened] at only ⊢
  obtain ⟨last, crosses⟩ := Machine.crosses_of_arrives
    (le_of_max_le_right enough)
    (show firstItemCall.arrives 1 (0 + 2 + 81) 80 = true by decide +kernel)
  cases (only _).mp crosses
  exact ⟨last, only, satisfies⟩

end LogicMachine
