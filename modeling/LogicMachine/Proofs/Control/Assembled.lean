import LogicMachine.Proofs.Control.Following

/-!
# Predicates assembled by hand

The texts of the library's assembled predicates are followed instruction by
instruction.
-/

namespace LogicMachine

variable [Atoms]

namespace Library

/-- The tag of the argument is kept in the first slot. -/
def loadTag : List Item :=
  [.operand .loadArgumentAddress 0, .plain .deref, .plain .load, .plain .getTag,
    Item.onLocal .storeLocal ⟨0⟩]

def compareTag (tag : Tag) : List Item :=
  [Item.onLocal .loadLocal ⟨0⟩, .operand .loadConstant tag.code.toUInt32,
    .branch .branchEqual ⟨0⟩]

def decideTag (accept : Bool) : List Item :=
  if accept then
    [.plain .fail, .mark ⟨0⟩]
  else
    [.branch .branchAlways ⟨1⟩, .mark ⟨0⟩, .plain .fail, .mark ⟨1⟩]

/-- The text of a type test. -/
def typeTestText (tags : List Tag) (accept : Bool) : List Item :=
  loadTag ++ tags.flatMap compareTag ++ decideTag accept

omit [Atoms] in
/-- Tags are compared by their codes. -/
theorem compares (first second : Tag) :
    ((⟨first.code.toUInt32.toUInt64⟩ : Word) == ⟨second.code⟩) = true ↔
      first = second := by
  cases first <;> cases second <;> decide

omit [Atoms] in
theorem repeatCode_eq : repeatCode =
    .ok [Opcode.choicePointRelative.encode, 0, Opcode.proceed.encode] := by
  decide

omit [Atoms] in
theorem contains_assemble {locals labels : Nat} {items : List Item}
    (distinct : (labelsOf items).Nodup)
    (inside : ∀ label ∈ labelsOf items, label.index < labels) :
    (assemble locals labels items).Contains items := by
  have empty : Assembler.Contains ⟨#[], Array.replicate labels none, locals⟩
      [] := by
    refine ⟨rfl, List.nodup_nil, nofun, ?_⟩
    intro before label after split
    cases before <;> cases split
  refine empty.addAll distinct fun label member => ⟨?_, List.not_mem_nil⟩
  rw [Array.size_replicate]
  exact inside label member

omit [Atoms] in
theorem locals_assemble (locals labels : Nat) (items : List Item) :
    (assemble locals labels items).locals = locals :=
  Draft.locals_addAll _ items

omit [Atoms] in
theorem contains_typeTest (tags : List Tag) (accept : Bool) :
    (assemble 1 2 (typeTestText tags accept)).Contains
      (typeTestText tags accept) := by
  have labels : labelsOf (typeTestText tags accept) =
      labelsOf (decideTag accept) := by
    rw [typeTestText, labelsOf_append, labelsOf_append,
      ClauseM.labelsOf_flatMap _ fun _ => rfl]
    rfl
  apply contains_assemble
  · rw [labels]
    cases accept <;> decide
  · rw [labels]
    cases accept <;> decide

end Library

namespace Base

variable {base : Base} {setting : Setting} {call : Call} {place : Label → Nat}
  {position : Nat} {turning given : Machine → Prop}

/-- Comparing a tag with several others. -/
theorem heads_compareTags {activity : Activity} {tag : Tag}
    {tags : List Tag} (framed : activity.Framed)
    (found : activity.locals[0]? = some ⟨tag.code⟩)
    (holds : setting.program.Holds place position
      (tags.flatMap Library.compareTag))
    (hit : tag ∈ tags → setting.Heads turning given (place ⟨0⟩) activity)
    (miss : tag ∉ tags → setting.Heads turning given
      (position + textSize (tags.flatMap Library.compareTag)) activity) :
    setting.Heads turning given position activity := by
  induction tags generalizing position with
  | nil => exact miss List.not_mem_nil
  | cons first rest ih =>
      rw [List.flatMap_cons, Program.holds_append] at holds
      have loads : setting.program.Holds place position
          [Item.onLocal .loadLocal ⟨0⟩,
            .operand .loadConstant first.code.toUInt32] :=
        ⟨holds.1.1, holds.1.2.1, holds.1.2.2.1, holds.1.2.2.2.1, trivial⟩
      refine .straight loads ?_
      refine Activity.then_loadLocal framed (by decide) found ?_
      refine Activity.then_loadConstant ?_
      refine Setting.Heads.branch true
        (⟨holds.1.2.2.2.2.1, holds.1.2.2.2.2.2.1, trivial⟩ :
          setting.program.Holds place _ [.branch .branchEqual ⟨0⟩]) rfl ?_ ?_
      · intro same
        have equal := (Library.compares first tag).mp same
        exact hit (equal ▸ List.mem_cons_self)
      · intro different
        have unequal : tag ≠ first := fun equal =>
          different ((Library.compares first tag).mpr equal.symm)
        refine ih holds.2 (fun member => hit (List.mem_cons_of_mem _ member)) ?_
        intro absent
        have next := miss fun member => absent
          ((List.mem_cons.mp member).resolve_left unequal)
        rwa [List.flatMap_cons, textSize_append, ← Nat.add_assoc] at next

/-- A type test is passed if the tag that it finds is as wanted. -/
theorem heads_typeTest {tags : List Tag} {accept : Bool} {memory : Store}
    (holds : setting.program.Holds place position
      (Assembler.clauseText 1 1 (Library.typeTestText tags accept)))
    (arity : call.functor.arity = 1) (sound : call.Sound)
    (passes : ∀ root word,
      ((call.waiting memory).entered 1).Reaches
        (((call.waiting memory).entered 1).argument 0) root →
      ((call.waiting memory).entered 1).Finds root word →
      tags.contains word.tag = accept →
      ∀ later, (call.desk 1 [0] []).Clear Desk.anything later →
        later.memory = memory → setting.Heads turning given
          (position + 2 + textSize (Library.typeTestText tags accept)) later)
    (fails : ∀ root word,
      ((call.waiting memory).entered 1).Reaches
        (((call.waiting memory).entered 1).argument 0) root →
      ((call.waiting memory).entered 1).Finds root word →
      tags.contains word.tag ≠ accept →
      ∀ machine, setting.Stays machine → given machine) :
    setting.Heads turning given position (call.waiting memory) := by
  have text := (Program.holds_append.mp holds.2.2).1
  rw [Library.typeTestText, Program.holds_append, Program.holds_append] at text
  obtain ⟨⟨loads, compares⟩, decides⟩ := text
  have clear := clear_entered call 1 memory
  have room : 3 ≤ ((call.waiting memory).entered 1).below.length := by
    have below := clear.below
    have length := sound.arity
    rw [below]
    simp only [Call.desk, Call.below, Call.stack, List.length_append,
      List.length_reverse, List.length_cons, List.length_nil]
    omega
  refine .allocate holds ?_
  refine .straight loads ?_
  refine ⟨clear.framed, room, ?_⟩
  refine Activity.then_deref rfl fun root reaches => ?_
  refine Activity.then_load rfl fun word finds => ?_
  refine Activity.then_getTag rfl ?_
  refine Activity.then_storeLocal clear.framed (by decide) rfl
    (by exact Nat.zero_lt_one) ?_
  have kept : (call.desk 1 [0] []).Clear Desk.anything
      (Activity.setLocal ((call.waiting memory).entered 1) 0
        ⟨word.tag.code⟩) := by
    refine ⟨⟨clear.framed, clear.below, rfl, ?_, ?_⟩, rfl, trivial⟩
    case refine_2 => rintro _ _ ⟨⟩
    intro index other apart found
    have inside := (List.getElem?_eq_some_iff.mp found).1
    simp only [Activity.setLocal, List.length_set] at inside
    exact absurd (Nat.lt_one_iff.mp inside) fun zero =>
      apart (List.mem_singleton.mpr zero)
  rw [Address.address_pack] at finds reaches
  have reached : ((call.waiting memory).entered 1).Reaches
      (((call.waiting memory).entered 1).argument 0) root :=
    ⟨reaches.cell, reaches.slot⟩
  have found : ((call.waiting memory).entered 1).Finds root word :=
    ⟨finds.cell, finds.slot⟩
  have passing (wanted : tags.contains word.tag = accept) :=
    passes root word reached found wanted _ kept rfl
  have failing (unwanted : tags.contains word.tag ≠ accept) :=
    fails root word reached found unwanted
  rw [Library.typeTestText, textSize_append, textSize_append,
    ← Nat.add_assoc, ← Nat.add_assoc] at passing
  rw [textSize_append, ← Nat.add_assoc] at decides
  refine heads_compareTags clear.framed rfl compares ?_ ?_
  · intro member
    cases accept with
    | true =>
        rw [show place ⟨0⟩ = _ from decides.2.1]
        exact passing (List.contains_iff_mem.mpr member)
    | false =>
        refine .fail (show setting.program.Holds place (place ⟨0⟩)
          [.plain .fail] from ⟨?_, trivial⟩) fun machine runs =>
            failing (by simp [member]) machine runs.toStays
        rw [show place ⟨0⟩ = _ from decides.2.2.1]
        exact decides.2.2.2.1
  · intro absent
    cases accept with
    | true =>
        exact .fail decides fun machine runs =>
          failing (by simp [absent]) machine runs.toStays
    | false =>
        refine .branchAlways decides ?_
        rw [show place ⟨1⟩ = _ from decides.2.2.2.2.1]
        exact passing (by simp [absent])

/-- The code that comes back to itself. -/
theorem Repeats.heads (repeats : base.Repeats call.functor position)
    (grown : base.program.Grows setting.program) {memory : Store}
    (starts : base.Starts setting call memory) :
    setting.Heads (base.Turns setting call) setting.Stays position
      (call.waiting memory) := by
  have inside := repeats.inside
  intro machine runs
  refine .here runs.toStays (.opens runs
    ((grown.code position (by omega)).trans repeats.opens)
    ((grown.code (position + 1) (by omega)).trans repeats.itself) (.inr rfl) ?_
    (.again repeats) (.again repeats) starts
    fun _ => Functor.not_isSimple repeats.arity)
  simp only [MachineM.perform, show (0 : UInt32).toInt32 = 0 from rfl,
    Int32.add_zero]
  rfl

section Codes

variable {words : List UInt32} (stands : base.program.HasWords position words)
  (inside : position + words.length ≤ base.program.top) (sound : call.Sound)
  (isScoped : base.Scoped call)
  (grown : base.program.Grows setting.program) {memory : Store}
  (starts : base.Starts setting call memory)

include stands inside sound isScoped grown starts

theorem heads_succeed (code : Library.succeedCode = .ok words)
    (arity : call.functor.arity = 0)
    (none : call.functor.findsLevel = false) :
    setting.Heads (base.Turns setting call) setting.Stays position
      (call.waiting memory) := by
  have contains : (Library.assemble 0 0 []).Contains [] :=
    Library.contains_assemble List.nodup_nil nofun
  have holds := contains.holds_clause code stands
  rw [contains.length_clause code] at inside
  have sets : call.Sets (call.desk 0 [] []) :=
    sound.sets (by decide) (by simp)
  have body : base.Body setting call (call.desk 0 [] []) [] (position + 2) :=
    .of_end arity holds.2.2 inside (starts.footing (fun _ => none) nofun)
  exact .allocate (grown.holds holds inside)
    (body.heads sound isScoped sets grown (clear_entered call 0 memory))

omit sound isScoped starts in
theorem heads_fail (code : Library.failCode = .ok words) :
    setting.Heads (base.Turns setting call) setting.Stays position
      (call.waiting memory) := by
  have contains : (Library.assemble 0 0 [.plain .fail]).Contains
      [.plain .fail] :=
    Library.contains_assemble List.nodup_nil nofun
  have holds := contains.holds_clause code stands
  rw [contains.length_clause code] at inside
  have held := grown.holds holds inside
  exact .allocate held (.fail held.2.2 fun _ runs => runs.toStays)

theorem heads_testing {tags : List Tag} {accept : Bool}
    (code : Library.typeTestCode tags accept = .ok words)
    (arity : call.functor.arity = 1)
    (none : call.functor.findsLevel = false) :
    setting.Heads (base.Turns setting call) setting.Stays position
      (call.waiting memory) := by
  have contains := Library.contains_typeTest tags accept
  have holds := contains.holds_clause code stands
  rw [contains.length_clause code, Library.locals_assemble] at inside
  rw [Library.locals_assemble] at holds
  have sets : call.Sets (call.desk 1 [0] []) :=
    sound.sets (by decide) (by simp)
  have body : base.Body setting call (call.desk 1 [0] []) []
      (position + 2 + textSize (Library.typeTestText tags accept)) := by
    refine .of_end arity (Program.holds_append.mp holds.2.2).2 ?_
      (starts.footing (fun _ => none) nofun)
    simpa [Assembler.clauseText, Item.codeWords, Nat.add_assoc, Nat.add_comm,
      Nat.add_left_comm] using inside
  exact heads_typeTest (grown.holds holds inside) arity sound
    (fun _ _ _ _ _ _ clear _ => body.heads sound isScoped sets grown clear)
    fun _ _ _ _ _ _ => id

/-- The clause of a predicate that was assembled by hand. -/
theorem heads_assembled
    (known : .assembled call.functor (.ok words) ∈ Library.assembled) :
    setting.Heads (base.Turns setting call) setting.Stays position
      (call.waiting memory) := by
  simp only [Library.assembled, List.mem_cons, Definition.assembled.injEq,
    List.not_mem_nil, or_false] at known
  rcases known with ⟨same, code⟩ | ⟨same, code⟩ | ⟨same, code⟩ | ⟨same, code⟩ |
    ⟨same, code⟩ | ⟨same, code⟩ | ⟨same, code⟩ | ⟨same, code⟩ | ⟨same, code⟩
  · exact heads_succeed stands inside sound isScoped grown starts code.symm
      (by rw [same]) (by rw [same]; decide)
  · exact heads_succeed stands inside sound isScoped grown starts code.symm
      (by rw [same]) (by rw [same]; decide)
  · exact heads_fail stands inside grown code.symm
  · have isRepeat : words =
        [Opcode.choicePointRelative.encode, 0, Opcode.proceed.encode] :=
      Except.ok.inj (code.trans Library.repeatCode_eq)
    subst isRepeat
    refine Repeats.heads ⟨by rw [same], stands 0 _ rfl, stands 1 _ rfl,
      stands 2 _ rfl, inside⟩ grown starts
  all_goals
    exact heads_testing stands inside sound isScoped grown starts code.symm
      (by rw [same]) (by rw [same]; decide)

end Codes

end Base

end LogicMachine
