import LogicMachine.Proofs.Code.Library
import LogicMachine.Proofs.Code.Solving

/-!
# Validity of compiled clauses

Every clause that compiles is valid code.  It starts by allocating its record and
ends by giving it up and proceeding; branches lead to instructions of the clause;
slots and arguments exist; the calls are those of its goals, in order.  On every
path through it the operands are balanced, and no slot is read before it has been
stored.
-/

namespace LogicMachine

open Ledger Draft

/-- The goals of a rule that are called. -/
def Rule.calls (rule : Rule) : List Goal :=
  rule.goals.filter fun goal => !goal.isCut

/-- The instruction works on a slot of the activation record. -/
def CodeLine.usesSlot (line : CodeLine) : Bool :=
  (line.opcode?.map Opcode.usesSlot).getD false

/-- The code of a clause is valid, for given entries of predicates. -/
structure Routine.Valid (routine : Routine) (arity : Nat)
    (start? : Goal → Option Nat) : Prop where
  formed : ∀ line ∈ routine.lines, line.Formed
  /-- The code starts by allocating slots and ends by giving them up, and all
  instructions work on these slots. -/
  framed : ∃ slots body,
    routine.lines = .operand .allocate slots :: body ++
      [.operand .deallocate arity.toUInt32.toInt32, .plain .proceed] ∧
    ∀ line ∈ routine.lines, line.usesSlot = true →
      line.value.toUInt32 < slots.toUInt32
  branches : ∀ index line, routine.lines[index]? = some line →
    line.branches = true → ∃! target, routine.Lands index line target
  arguments : ∀ value, .operand .loadArgumentAddress value ∈ routine.lines →
    value.toUInt32.toNat < arity
  calls : List.Forall₂
    (fun line goal => ∃ entry, start? goal = some entry ∧
      line = .operand .call entry.toUInt32.toInt32)
    (routine.lines.filter CodeLine.isCall) routine.calls
  sound : ∀ point, routine.Reaches Routine.start point → routine.Sound point
  depth : ∀ first second, routine.Reaches Routine.start first →
    routine.Reaches Routine.start second → first.index = second.index →
      first.depth = second.depth

/-! ## The text of a clause -/

namespace ClauseM

variable {naming : Naming} {arity : Nat}

theorem keepLevel_passes :
    Draft.empty.Passes naming arity [] (keepLevel true) withCutLevel := by
  have filled : withCutLevel.filled ⊆ insert ⟨0⟩ Draft.empty.filled := by
    rintro ⟨index⟩ ⟨inside, -⟩
    have below : index < 1 := inside
    exact .inl (congrArg Local.mk (by omega))
  refine .of_carries ⟨?_, nofun, nofun, fun _ => laid_withCutLevel, nofun⟩
    ⟨3, writes_withCutLevel⟩ (Nat.zero_le _) ?_ ?_
    (Balanced.of_check rfl rfl).noCall ?_
  · exact fun slot owns => (Nat.not_lt_zero _ owns.inside).elim
  · exact fun slot member => (Nat.not_lt_zero _ member.1).elim
  · have small : (⟨0⟩ : Local).index < withCutLevel.assembler.locals :=
      Nat.zero_lt_one
    simp [keepLevel, Opcode.hasOperand, small]
  · intro routine place _
    refine .straight ?_
    rintro ⟨_, slots⟩ knows
    cases knows.flat
    refine thenAll_plain rfl (Nat.zero_le _) ?_
    exact thenAll_storeLocal ((knows.insert _).mono filled)

theorem report_passes (draft : Draft) {opcode : Opcode}
    (reports : opcode = .trace ∨ opcode = .endTrace)
    (traced : Option FunctorId) :
    draft.Passes naming arity [] (reportText opcode traced)
      (draft.emitted (reportText opcode traced)) := by
  refine .of_carries (.emitted _ _) (writes_report draft opcode traced) ?_ ?_ ?_
    ?_ ?_
  · rw [locals_emitted]
  · rw [filled_emitted]
  · rcases reports with rfl | rfl <;> cases traced
    all_goals first
      | exact allAllowed_nil
      | exact allAllowed_cons.mpr ⟨⟨rfl, rfl, nofun, nofun⟩, nofun⟩
  · rcases reports with rfl | rfl <;> cases traced
    all_goals exact (Balanced.of_check rfl rfl).noCall
  · intro routine place _
    rw [filled_emitted]
    cases traced with
    | none => exact .nil fun _ => id
    | some functor =>
        refine .straight fun ledger knows => ?_
        rcases reports with rfl | rfl
        all_goals exact
          ⟨⟨rfl, rfl, rfl, nofun⟩, Nat.zero_le _, nofun, ⟨knows.flat, knows.stored⟩⟩

theorem compileCutLevel_passes (rule : Rule) :
    Plans (compileCutLevel rule) .empty naming False
      (fun _ after =>
        (∃ text, Draft.empty.Passes naming arity [] text after) ∧
        (rule.hasCut = true → ∃ slot, after.cutLevel = some slot)) := by
  unfold compileCutLevel
  cases cuts : rule.hasCut with
  | true =>
      rw [Rule.hasCut] at cuts
      rw [if_pos cuts]
      exact ⟨⟨_, keepLevel_passes⟩, fun _ => ⟨_, rfl⟩⟩
  | false =>
      rw [Rule.hasCut] at cuts
      rw [if_neg (by simp [cuts])]
      exact ⟨⟨[], .nil _⟩, nofun⟩

/-- The head and the goals of a clause, and the report of its exit. -/
theorem compileBody_passes (rule : Rule) {draft : Draft}
    {traced : Option FunctorId} {last : ClauseM PlanM Unit}
    (laid : draft.Laid)
    (cuts : rule.hasCut = true → ∃ slot, draft.cutLevel = some slot)
    (ends : last = emit (reportText .endTrace traced)) :
    Plans (do
        compileHead rule.head
        for goal in rule.goals do
          compileGoal goal
        last) draft naming False
      (fun _ after => ∃ text,
        draft.Passes naming rule.head.arity rule.calls text after) := by
  refine (compileHead_passes rule.head laid).bind ?_
  rintro _ ready ⟨head, passes⟩
  refine (compileGoals_solves rule.goals).loosen.bind ?_
  rintro _ ended ⟨body, solves⟩
  have solved := solves.passes rule.head.arity (passes.laid laid) fun hasCut =>
    (cuts hasCut).imp passes.cut
  rw [ends]
  refine Plans.emit.imp id ?_
  rintro _ _ rfl
  have all := (passes.append solved).append
    (report_passes ended (.inr rfl) traced)
  rw [List.nil_append, List.append_nil] at all
  exact ⟨_, all⟩

theorem compileRule_passes (rule : Rule) (trace : Bool) :
    Plans (compileRule rule trace) .empty naming False
      (fun _ after => ∃ text, Draft.empty.Passes naming rule.head.arity
        rule.calls text after) := by
  refine (@compileCutLevel_passes naming rule.head.arity rule).bind ?_
  rintro _ started ⟨⟨text, passes⟩, cuts⟩
  cases trace with
  | true =>
      refine Plans.bind (Plans.map some Plans.intern) ?_
      rintro _ later ⟨functor, rfl, known, rfl⟩
      refine Plans.emit.bind ?_
      rintro _ _ rfl
      have reported := passes.append
        (report_passes later (.inl rfl) (some functor))
      refine (@compileBody_passes naming rule _ (some functor) _
        (reported.laid laid_empty) cuts rfl).imp id ?_
      rintro _ after ⟨more, body⟩
      exact ⟨_, reported.append body⟩
  | false =>
      refine Plans.bind Plans.returned ?_
      rintro _ later ⟨rfl, rfl⟩
      have unreported : (pure () : ClauseM PlanM Unit) =
          emit (reportText .endTrace none) := rfl
      refine (@compileBody_passes naming rule _ none _
        (passes.laid laid_empty) cuts unreported).imp id ?_
      rintro _ after ⟨more, body⟩
      exact ⟨_, passes.append body⟩

end ClauseM

/-! ## The lines of a text -/

/-- Every line of a text comes from an item. -/
theorem exists_item_of_lines {place : Label → Nat} {position : Nat}
    {items : List Item} {index : Nat} {line : CodeLine}
    (found : (linesOf place position items)[index]? = some line) :
    ∃ before item after, items = before ++ item :: after ∧
      (linesOf place position before).length = index ∧
      linesOf place (position + textSize before) [item] = [line] := by
  induction items generalizing position index with
  | nil => cases found
  | cons item rest ih =>
      -- Either the item is the first with a line, or the line comes later.
      have later {size index : Nat} (isSize : item.codeWords.length = size)
          (found : (linesOf place (position + size) rest)[index]? = some line) :
          ∃ before other after, item :: rest = (item :: before) ++ other :: after ∧
            (linesOf place (position + size) before).length = index ∧
            linesOf place (position + textSize (item :: before)) [other] =
              [line] := by
        obtain ⟨before, other, after, split, length, same⟩ := ih found
        refine ⟨before, other, after, by rw [split]; rfl, length, ?_⟩
        rw [textSize_cons, isSize, ← Nat.add_assoc]
        exact same
      cases item with
      | mark label =>
          obtain ⟨before, other, after, split, length, same⟩ := later rfl found
          exact ⟨_, other, after, split, length, same⟩
      | plain | operand | branch =>
          cases index with
          | zero =>
              cases found
              exact ⟨[], _, rest, rfl, rfl, rfl⟩
          | succ index =>
              obtain ⟨before, other, after, split, length, same⟩ :=
                later rfl found
              exact ⟨_, other, after, split, congrArg Nat.succ length, same⟩

theorem mem_linesOf {place : Label → Nat} {position : Nat}
    {items : List Item} {line : CodeLine}
    (member : line ∈ linesOf place position items) :
    ∃ item ∈ items, ∃ position, linesOf place position [item] = [line] := by
  obtain ⟨index, found⟩ := List.mem_iff_getElem?.mp member
  obtain ⟨before, item, after, rfl, -, same⟩ := exists_item_of_lines found
  exact ⟨item, by simp, _, same⟩

/-! ## Whole clauses -/

namespace Opcode

variable {opcode : Opcode}

theorem hasOperand_of_isRelative (relative : opcode.isRelative = true) :
    opcode.hasOperand = true := by
  revert relative
  cases opcode <;> decide

theorem hasOperand_of_usesSlot (uses : opcode.usesSlot = true) :
    opcode.hasOperand = true := by
  revert uses
  cases opcode <;> decide

theorem isRelative_of_usesSlot (uses : opcode.usesSlot = true) :
    opcode.isRelative = false := by
  revert uses
  cases opcode <;> decide

end Opcode

namespace Item.Allowed

variable {locals arity : Nat} {item : Item} {place : Label → Nat}
  {position : Nat} {line : CodeLine}

theorem formed (allowed : item.Allowed locals arity)
    (same : linesOf place position [item] = [line]) : line.Formed := by
  cases item with
  | plain =>
      cases same
      exact allowed
  | operand =>
      cases same
      exact allowed.1
  | branch opcode =>
      cases same
      exact Opcode.hasOperand_of_isRelative allowed
  | mark => cases same

theorem usesSlot (allowed : item.Allowed locals arity)
    (same : linesOf place position [item] = [line])
    (uses : line.usesSlot = true) : line.value.toUInt32.toNat < locals := by
  cases item with
  | plain opcode =>
      cases same
      change opcode.hasOperand = false at allowed
      rw [Opcode.hasOperand_of_usesSlot uses] at allowed
      cases allowed
  | operand opcode value =>
      cases same
      show value.toInt32.toUInt32.toNat < locals
      rw [UInt32.toUInt32_toInt32]
      exact allowed.2.2.1 uses
  | branch opcode =>
      cases same
      change opcode.isRelative = true at allowed
      rw [Opcode.isRelative_of_usesSlot uses] at allowed
      cases allowed
  | mark => cases same

theorem argument {value : Int32} (allowed : item.Allowed locals arity)
    (same : linesOf place position [item] =
      [.operand .loadArgumentAddress value]) :
    value.toUInt32.toNat < arity := by
  cases item with
  | plain | mark => cases same
  | operand opcode given =>
      cases same
      rw [UInt32.toUInt32_toInt32]
      exact allowed.2.2.2 rfl
  | branch opcode =>
      cases same
      cases allowed

end Item.Allowed

/-- The calls among the lines of a text are those among its items. -/
theorem calls_linesOf {naming : Naming} {place : Label → Nat} {position : Nat}
    {items : List Item} {goals : List Goal}
    (calls : List.Forall₂ (Item.Calls naming) (items.filter Item.isCall)
      goals) :
    List.Forall₂
      (fun line goal => ∃ entry, naming.start? (.ofGoal goal) = some entry ∧
        line = .operand .call entry.toUInt32.toInt32)
      ((linesOf place position items).filter CodeLine.isCall) goals := by
  induction items generalizing position goals with
  | nil =>
      cases calls
      exact .nil
  | cons item rest ih =>
      cases isCall : item.isCall with
      | true =>
          rw [List.filter_cons, isCall, if_pos rfl] at calls
          cases calls with
          | cons first others =>
              obtain ⟨entry, known, rfl⟩ := first
              exact .cons ⟨entry, known, rfl⟩ (ih others)
      | false =>
          rw [List.filter_cons, isCall, if_neg Bool.false_ne_true] at calls
          cases item with
          | mark => exact ih calls
          | plain opcode | operand opcode | branch opcode =>
              have noCall : opcode ≠ .call := by
                simpa [Item.isCall] using isCall
              simp only [linesOf]
              rw [List.filter_cons_of_neg (by
                simp [CodeLine.isCall, CodeLine.opcode?, noCall])]
              exact ih calls

namespace Draft.Passes

variable {naming : Naming} {arity : Nat} {goals : List Goal}
  {text : List Item} {draft : Draft}

/-- The text of a clause leads to no label outside it. -/
theorem leads (passes : Draft.empty.Passes naming arity goals text draft) :
    targetsOf text ⊆ labelsOf text := by
  obtain ⟨bound, writes⟩ := passes.writes
  exact (writes.text [] text_empty).leads

theorem locals_le (passes : Draft.empty.Passes naming arity goals text draft) :
    draft.assembler.locals ≤ textSize text := by
  obtain ⟨bound, writes⟩ := passes.writes
  exact Nat.le_trans writes.locals (Nat.le_of_eq (Nat.zero_add _))

/-- The instructions around the body of a clause are allowed too. -/
theorem allAllowed_clause
    (passes : Draft.empty.Passes naming arity goals text draft) :
    AllAllowed draft.assembler.locals arity
      (Assembler.clauseText draft.assembler.locals arity text) := by
  simp only [Assembler.clauseText, List.cons_append, allAllowed_cons,
    allAllowed_append]
  have framing {opcode : Opcode} {value : UInt32}
      (frames : opcode = .allocate ∨ opcode = .deallocate) :
      (Item.operand opcode value).Allowed draft.assembler.locals arity := by
    rcases frames with rfl | rfl
    all_goals
      refine ⟨rfl, rfl, ?_, ?_⟩
      all_goals rintro ⟨⟩
  exact ⟨framing (.inl rfl), passes.allowed, framing (.inr rfl), rfl,
    allAllowed_nil⟩

/-- Every path through the clause is safe. -/
theorem safe (passes : Draft.empty.Passes naming arity goals text draft)
    {place : Label → Nat}
    (placed : Placed place 0
      (Assembler.clauseText draft.assembler.locals arity text))
    (small : textSize (Assembler.clauseText draft.assembler.locals arity text) <
      2 ^ 31) :
    Routine.Safe ⟨linesOf place 0
      (Assembler.clauseText draft.assembler.locals arity text), goals⟩
      Routine.start := by
  let routine : Routine := ⟨linesOf place 0
    (Assembler.clauseText draft.assembler.locals arity text), goals⟩
  have size : codeSize routine.lines < 2 ^ 31 := by
    show codeSize (linesOf place 0 _) < _
    rw [codeSize_linesOf]
    exact small
  have continues : routine.Continues place []
      ([.operand .allocate draft.assembler.locals.toUInt32] ++
        (text ++ [.operand .deallocate arity.toUInt32, .plain .proceed])) :=
    ⟨List.prefix_refl _, placed⟩
  have entered : routine.Carries place (· = ⟨0, []⟩)
      [.operand .allocate draft.assembler.locals.toUInt32]
      (Knows Draft.empty.filled) := by
    refine .straight ?_
    rintro _ rfl
    refine ⟨⟨rfl, rfl, rfl, nofun⟩, Nat.zero_le _, nofun, rfl, ?_⟩
    exact fun slot member => (Nat.not_lt_zero _ member.1).elim
  have left : routine.Carries place (Knows draft.filled)
      [.operand .deallocate arity.toUInt32, .plain .proceed]
      (fun _ => False) := by
    intro past leaving _ ledger knows level
    have split : [Item.operand .deallocate arity.toUInt32, .plain .proceed] =
        [.operand .deallocate arity.toUInt32] ++ [.plain .proceed] := rfl
    obtain ⟨here, there⟩ := (split ▸ leaving).append
    refine .intro (Routine.found_of_isPrefix here.lines)
      ⟨Nat.zero_le _, nofun, fun _ => knows.flat⟩ ?_ (fun _ => ?_) nofun
    · rw [Routine.take_of_isPrefix leaving.lines_start]
      exact level
    · have safe := @Routine.Safe.stop _ _ _ ledger _ _ there (.inr rfl) ?_
      · rw [List.length_append] at safe
        exact safe
      · rw [Routine.level_balanced (.of_check rfl rfl)]
        exact level
  have all := (entered.performs.append rfl
    (passes.performs routine place size)).append
    (by rw [List.filter_append]; exact passes.calls.length_eq) left.performs
  refine all [] ?_ ?_ (fun _ => False.elim) ⟨0, []⟩ rfl rfl
  · rw [List.append_assoc]
    exact continues
  · rw [List.nil_append, List.append_nil]
    exact List.prefix_refl _

/-- A branch leads to exactly one instruction of the clause. -/
theorem lands (passes : Draft.empty.Passes naming arity goals text draft)
    {place : Label → Nat}
    (placed : Placed place 0
      (Assembler.clauseText draft.assembler.locals arity text))
    (small : textSize (Assembler.clauseText draft.assembler.locals arity text) <
      2 ^ 31) {index : Nat} {line : CodeLine}
    (found : (linesOf place 0 (Assembler.clauseText draft.assembler.locals arity
      text))[index]? = some line)
    (branches : line.branches = true) :
    ∃! target, Routine.Lands ⟨linesOf place 0
      (Assembler.clauseText draft.assembler.locals arity text), goals⟩ index
      line target := by
  let routine : Routine := ⟨linesOf place 0
    (Assembler.clauseText draft.assembler.locals arity text), goals⟩
  have size : codeSize routine.lines < 2 ^ 31 := by
    show codeSize (linesOf place 0 _) < _
    rw [codeSize_linesOf]
    exact small
  obtain ⟨before, item, after, split, rfl, same⟩ := exists_item_of_lines found
  have member : item ∈
      Assembler.clauseText draft.assembler.locals arity text := by
    rw [split]
    simp
  have allowed := passes.allAllowed_clause item member
  -- Of the items only a branch has a relative operand.
  obtain ⟨opcode, label, rfl⟩ : ∃ opcode label, item = .branch opcode label := by
    cases item with
    | branch opcode label => exact ⟨opcode, label, rfl⟩
    | operand opcode value =>
        cases same
        have relative := allowed.2.1
        rw [show opcode.isRelative = true from branches] at relative
        cases relative
    | plain opcode =>
        cases same
        change opcode.hasOperand = false at allowed
        rw [Opcode.hasOperand_of_isRelative branches] at allowed
        cases allowed
    | mark => cases same
  have inText : Item.branch opcode label ∈ text := by
    simpa [Assembler.clauseText] using member
  have target : label ∈ targetsOf text :=
    List.mem_filterMap.mpr ⟨_, inText, rfl⟩
  obtain ⟨mark, marked, isMark⟩ := List.mem_filterMap.mp (passes.leads target)
  obtain ⟨first, rest, rfl⟩ := List.append_of_mem marked
  cases mark with
  | mark other =>
      cases isMark
      have whole : routine.Continues place []
          ((.operand .allocate draft.assembler.locals.toUInt32 :: first) ++
            .mark label :: (rest ++ [.operand .deallocate arity.toUInt32,
              .plain .proceed])) := by
        refine ⟨?_, ?_⟩
        · simp [routine, Assembler.clauseText]
        · simpa [Assembler.clauseText] using placed
      obtain ⟨there, placeMark⟩ := whole.mark
      have here : linesOf place 0 before <+: routine.lines := by
        show _ <+: linesOf place 0 _
        rw [split, linesOf_append]
        exact List.prefix_append _ _
      have isLine : line = .operand opcode ((place label).toUInt32 -
          (codeSize (linesOf place 0 before)).toUInt32).toInt32 := by
        rw [codeSize_linesOf, ← Nat.zero_add (textSize before)]
        cases same
        rfl
      have aims := @Routine.lands_branch routine place _ _ opcode label size
        here there placeMark
      rw [← isLine] at aims
      refine ⟨_, (aims _).mpr ⟨?_, rfl⟩, fun other lands =>
        ((aims other).mp lands).2⟩
      -- What comes after the label has words, so it has lines.
      have rests := whole.append.2.lines
      have more := rests.length_le
      rw [List.length_append] at more
      refine Nat.lt_of_lt_of_le (Nat.lt_add_of_pos_right ?_) more
      refine List.length_pos_of_ne_nil fun none => ?_
      have words := @codeSize_linesOf place (codeSize ([] ++ linesOf place
        (codeSize []) (.operand .allocate draft.assembler.locals.toUInt32 ::
          first))) (.mark label :: (rest ++ [.operand .deallocate arity.toUInt32,
            .plain .proceed]))
      rw [none] at words
      simp [Item.codeWords] at words
  | _ => cases isMark

theorem valid (passes : Draft.empty.Passes naming arity goals text draft)
    {place : Label → Nat}
    (placed : Placed place 0
      (Assembler.clauseText draft.assembler.locals arity text))
    (small : textSize (Assembler.clauseText draft.assembler.locals arity text) <
      2 ^ 31) :
    Routine.Valid ⟨linesOf place 0
        (Assembler.clauseText draft.assembler.locals arity text), goals⟩ arity
      (fun goal => naming.start? (.ofGoal goal)) where
  formed := by
    intro line member
    obtain ⟨item, inside, _, same⟩ := mem_linesOf member
    exact (passes.allAllowed_clause item inside).formed same
  framed := by
    refine ⟨draft.assembler.locals.toUInt32.toInt32, linesOf place 2 text, ?_,
      ?_⟩
    · simp [Assembler.clauseText, linesOf, linesOf_append]
    · intro line member uses
      obtain ⟨item, inside, _, same⟩ := mem_linesOf member
      have below := (passes.allAllowed_clause item inside).usesSlot same uses
      have few := passes.locals_le
      have bound : textSize text < 2 ^ 31 := by
        refine Nat.lt_of_le_of_lt ?_ small
        simp [Assembler.clauseText]
        omega
      rw [UInt32.toUInt32_toInt32, UInt32.lt_iff_toNat_lt]
      refine Nat.lt_of_lt_of_eq below ?_
      exact (Nat.mod_eq_of_lt (by omega)).symm
  branches := fun index line found branches =>
    passes.lands placed small found branches
  arguments := by
    intro value member
    obtain ⟨item, inside, _, same⟩ := mem_linesOf member
    exact (passes.allAllowed_clause item inside).argument same
  calls := by
    refine calls_linesOf ?_
    have split : (Assembler.clauseText draft.assembler.locals arity text).filter
        Item.isCall = text.filter Item.isCall := by
      simp [Assembler.clauseText, Item.isCall]
    rw [split]
    exact passes.calls
  sound := fun point reaches =>
    (passes.safe placed small point reaches).1
  depth := by
    intro first second left right same
    have one := (passes.safe placed small first left).2
    have other := (passes.safe placed small second right).2
    rw [same, ← other] at one
    exact Int.ofNat_inj.mp one

end Draft.Passes

namespace ProgramM

/-- Code that a rule was compiled to is valid. -/
theorem compile_valid {rule : Rule} {trace : Bool} {program after : Program}
    {words : List UInt32}
    (compiled : compile rule trace program = .ok words after)
    (small : words.length < 2 ^ 31) :
    (CodeLine.list words).flatMap CodeLine.words = words ∧
      Routine.Valid ⟨CodeLine.list words, rule.calls⟩ rule.head.arity
        (fun goal => (after.predicate? (.ofGoal goal)).map Predicate.entry) := by
  have advances := compile_advances rule trace program
  rw [compiled] at advances
  have code := advances.2 after.naming after.names_naming
  simp only [Rule.code, Rule.draft] at code
  cases planned : (ClauseM.compileRule rule trace : ClauseM PlanM Unit) .empty
      after.naming with
  | error fault =>
      rw [planned] at code
      cases code
  | ok result =>
      obtain ⟨⟨⟩, draft⟩ := result
      rw [planned] at code
      have finished : draft.assembler.clause rule.head.arity = .ok words := code
      obtain ⟨text, passes⟩ :=
        (ClauseM.compileRule_passes rule trace).of_ok planned
      obtain ⟨bound, writes⟩ := passes.writes
      have contains := (writes.text [] Draft.text_empty).contains
      rw [List.nil_append] at contains
      -- A program whose code is nothing but the words of the clause.
      let alone : Program := { after with code := words.toArray }
      have stands : alone.HasWords 0 words := by
        intro index word found
        rw [Nat.zero_add]
        simpa [alone] using found
      have holds := contains.holds_clause finished stands
      have length := contains.length_clause finished
      have same := holds.words_eq stands length.symm
      have valid := passes.valid holds.placed (length ▸ small)
      have listed := list_flatMap_words valid.formed
      rw [← same] at listed
      rw [listed, ← same]
      exact ⟨rfl, valid⟩

/-- A proper rule has code if there is room for the dispatch code of the
predicates that it calls. -/
theorem exists_compile (rule : Rule) (trace : Bool)
    (proper : rule.isProper = true) {program : Program}
    (room : program.top + dispatchSize * rule.goals.length ≤
      program.code.size) :
    ∃ words after, compile rule trace program = .ok words after ∧
      words.length ≤ rule.bulk := by
  have compiles := compile_uses rule trace proper room
  cases result : compile rule trace program with
  | error fault after =>
      rw [result] at compiles
      exact compiles.elim
  | ok words after =>
      rw [result] at compiles
      exact ⟨words, after, rfl, compiles.2.2⟩

/-- A rule with a repeated variable, a list and a structure in its head, a cut,
and a term to be built in its last goal. -/
def sampleRule : Rule where
  head := ⟨"p", [.var "X",
    .compound Term.listFunctor
      [.atom "a", .compound "f" [.var "X", .var "Y", .var Term.anonymous]]]⟩
  goals := [⟨"q", [.var "Y"]⟩, Goal.cut,
    ⟨"r", [.compound "g" [.var "X", .var "Z"], .var "Z"]⟩]

theorem compile_valid_sampleRule :
    ∃ words after,
      compile sampleRule true (.empty 64 .silent) = .ok words after ∧
      words.length < 2 ^ 31 ∧
      (CodeLine.list words).flatMap CodeLine.words = words ∧
      Routine.Valid ⟨CodeLine.list words, sampleRule.calls⟩
        sampleRule.head.arity
        (fun goal => (after.predicate? (.ofGoal goal)).map Predicate.entry) := by
  have proper : sampleRule.isProper = true := by decide +kernel
  have room : (Program.empty 64 .silent).top +
      dispatchSize * sampleRule.goals.length ≤
        (Program.empty 64 .silent).code.size := by
    decide +kernel
  have few : sampleRule.bulk < 2 ^ 31 := by decide +kernel
  obtain ⟨words, after, compiled, length⟩ :=
    exists_compile sampleRule true proper room
  have small := Nat.lt_of_le_of_lt length few
  exact ⟨words, after, compiled, small, compile_valid compiled small⟩

end ProgramM

end LogicMachine
