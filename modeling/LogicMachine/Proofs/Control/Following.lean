import LogicMachine.Proofs.Control.Handing

/-!
# Following calls

Whatever code takes up a call, quiet instructions lead from it to a turning point
of the call: from the dispatch code to a clause, and through the text of the
clause.
-/

namespace LogicMachine

variable [Atoms]

/-- Reporting changes nothing. -/
theorem Activity.then_report {activity : Activity}
    {wanted : Activity → Prop} {opcode : Opcode} {traced : Option FunctorId}
    (reports : opcode = .trace ∨ opcode = .endTrace)
    (holds : wanted activity) :
    activity.ThenAll wanted (reportText opcode traced) := by
  rcases reports with rfl | rfl <;> cases traced <;> exact holds

namespace Base

variable {base : Base} {setting : Setting} {call : Call} {desk : Desk}
  {activity : Activity} {position : Nat} {place : Label → Nat}

/-! ## The goals of a clause -/

/-- The end of a clause. -/
theorem heads_leaving {traced : Option FunctorId}
    (holds : setting.program.Holds place position
      (reportText .endTrace traced ++
        [.operand .deallocate desk.arity.toUInt32, .plain .proceed]))
    (sound : call.Sound) (sets : call.Sets desk) (neat : desk.Neat activity)
    (footing : base.Footing setting call []) :
    setting.Heads (base.Turns setting call) setting.Stays position activity := by
  rw [Program.holds_append] at holds
  refine .straight holds.1 ?_
  have arity : desk.arity.toUInt32.toNat = desk.arity :=
    Program.toNat_toUInt32 (Nat.lt_trans sets.sound.arity (by decide))
  have below : activity.below =
      call.lower ++ call.arguments.reverse ++
        [call.machine.registers.environment.pack,
          call.machine.registers.continuation.pack] :=
    neat.below.trans sets.below
  refine Activity.then_report (.inr rfl) ?_
  refine Setting.Heads.deallocate holds.2 neat.framed below ?_ ?_
  · rw [List.length_reverse, arity, sound.arity, sets.arity]
  · intro machine runs
    refine .here runs.toStays (.leaves runs holds.2.2.2.1 rfl rfl ?_ footing)
    simp [Activity.left, Activity.stack, Activity.frame]

/-- The arguments of a goal have been built, and the goal is called. -/
theorem heads_calling {goal : Goal} (goals : List Goal) {values : List Built}
    {entry : Nat} {items : List Item}
    (holds : setting.program.Holds place position
      (values.reverse.flatMap Built.push ++
        ([.operand .call entry.toUInt32] ++ items)))
    (sets : call.Sets desk)
    (keeps : ∀ value ∈ values, desk.KeepsBuilt value)
    (clear : desk.Clear Desk.anything activity)
    (length : values.length = goal.args.length)
    (known : base.program.naming.start? (.ofGoal goal) = some entry)
    (spans : base.Spans setting call)
    (modest : base.reserved → goal.takesLevel = true →
      call.functor.passesLevel = true)
    (level : base.guarded → goal.takesLevel = true →
      call.functor.passesLevel = true →
        ∃ word, (values.map (Built.wordIn activity.locals)).getLast? =
            some word ∧
          base.Denotes setting.origin word call.scope.length)
    (rest : ∀ callee later, base.Makes setting call (.ofGoal goal)
      (values.map (Built.wordIn activity.locals)) activity.memory callee →
        base.Footing later callee [] →
          base.Body later call desk goals
            (position + textSize (values.reverse.flatMap Built.push) + 2)) :
    setting.Heads (base.Turns setting call) setting.Stays position activity := by
  have keepsAll : ∀ value ∈ values.reverse, desk.KeepsBuilt value :=
    fun value member => keeps value (List.mem_reverse.mp member)
  rw [Program.holds_append] at holds
  refine .straight holds.1 ?_
  refine clear.toNeat.then_pushAll sets.sound keepsAll ?_
  intro machine runs
  have operands : (values.reverse.map
      (Built.wordIn activity.locals)).reverse ++ activity.operands =
      values.map (Built.wordIn activity.locals) := by
    rw [clear.operands, List.append_nil, List.map_reverse,
      List.reverse_reverse]
  refine .here runs.toStays (@Turns.calls _ base setting call machine _ entry _
    desk goal goals values runs holds.2.1 holds.2.2.1 sets
    (clear.toNeat.congr rfl rfl rfl) operands ?_ length known spans modest ?_
    ?_)
  · intro word member
    rw [operands] at member
    obtain ⟨value, isValue, rfl⟩ := List.mem_map.mp member
    exact clear.toNeat.plain_built (keeps value isValue)
  · rw [operands]
    exact level
  · rw [operands]
    exact rest

/-- The goals of a clause lead to a call, to a cut or to the end. -/
theorem Body.heads {goals : List Goal}
    (body : base.Body setting call desk goals position) (sound : call.Sound)
    (isScoped : base.Scoped call) (sets : call.Sets desk)
    (grown : base.program.Grows setting.program)
    (clear : desk.Clear Desk.anything activity) :
    setting.Heads (base.Turns setting call) setting.Stays position activity := by
  obtain @⟨place, draft, ended, text, traced, holds, inside, laid, solves,
    serves, modest, level, footing, levels⟩ := body
  have held := grown.holds holds inside
  cases solves with
  | nil => exact heads_leaving held sound sets clear.toNeat footing
  | @cut _ goal goals slot text _ isCut known rest =>
      rw [List.append_assoc] at held holds inside
      rw [Program.holds_append] at holds
      obtain ⟨kept, isKept, fixed, bound⟩ := level (by simp [isCut])
      have later := (Draft.Later.emitted draft
        [Item.onLocal .loadLocal slot, .plain .cut])
      have same : kept = slot := Option.some.inj
        ((isKept.symm.trans rest.cutLevel_eq).trans known)
      subst same
      have loads : setting.program.Holds place position
        [Item.onLocal .loadLocal kept] := ⟨held.1, held.2.1, trivial⟩
      refine .straight loads ?_
      refine Activity.then_loadLocal clear.framed
        (Nat.lt_trans bound sets.sound.count) (clear.fixed _ _ fixed) ?_
      intro machine runs
      refine .here runs.toStays (.cuts runs held.2.2.1 sets
        (clear.toNeat.congr rfl rfl rfl) ?_ footing.toSpans
        (fun guarded => footing.cuts guarded (by simp [isCut]))
        fun after persists committed => ⟨holds.2, ?_, later.laid laid, rest,
          serves.right later, fun reserved other member =>
            modest reserved other (List.mem_cons_of_mem _ member),
          fun _ => ⟨kept, isKept, fixed, bound⟩,
          footing.committed (by simp [isCut]) isScoped persists committed,
          fun guarded =>
            (levels guarded).rest later persists ?_⟩)
      · rw [Activity.push, clear.operands]
      · rw [textSize_append, ← Nat.add_assoc] at inside
        exact inside
      · rintro ⟨rfl, -⟩
        exact absurd isCut (by decide)
  | @skip _ goal _ _ _ isCut unknown rest =>
      -- The slot is set aside before the head of a clause that has a cut.
      obtain ⟨kept, isKept, -⟩ := level (by simp [isCut])
      cases (isKept.symm.trans rest.cutLevel_eq).trans unknown
  | @call _ goal goals built middle values entry text _ isCall makes known
      rest =>
      rw [List.append_assoc, List.append_assoc, List.append_assoc] at held
      rw [Program.holds_append] at held
      have renders := @makes.renders _ _ base.atomic desk.arity _ _ _ _ _ laid
      have first := renders.plays.toLater
      have second := Draft.Later.emitted middle
        (values.reverse.flatMap Built.push ++ [.operand .call entry.toUInt32])
      have laidRest := (first.trans second).laid laid
      have last := rest.later base.atomic laidRest
      have atMiddle := serves.left (second.trans last)
      have atEnd := serves.right (first.trans second)
      have keeps : ∀ value ∈ values, desk.KeepsBuilt value :=
        fun value member => (renders.owns value member).keeps atMiddle.keeps
      have size : position + textSize (built ++
          (values.reverse.flatMap Built.push ++
            [.operand .call entry.toUInt32])) =
          position + textSize built +
            textSize (values.reverse.flatMap Built.push) + 2 := by
        simp only [textSize_append, textSize_cons, textSize_nil,
          Item.codeWords, List.length_cons, List.length_nil]
        omega
      rw [List.append_assoc, Program.holds_append, size] at holds
      rw [List.append_assoc, textSize_append, ← Nat.add_assoc, size] at inside
      by_cases begins : base.guarded ∧
        goal = Library.levelIs Library.level ∧
          draft.slots.lookup "L" = none
      · -- The goal finds a level, which the goals after it are given.
        obtain ⟨guarded, rfl, unknown⟩ := begins
        obtain ⟨rfl, rfl⟩ := renders.first "L" rfl (by decide) unknown
        obtain ⟨slot, isSlot, named⟩ :=
          renders.named 0 "L" rfl (by decide)
        cases isSlot
        have owns : (middle.emitted _).Owns draft.nextLocal :=
          second.owns _ (renders.owns _ (List.mem_singleton.mpr rfl))
        have isNew := serves.frees draft.nextLocal
          (last.owns _ owns) draft.not_owns_next
        refine @Desk.carries_freshVariable _ desk setting place sets.sound
          (some draft.nextLocal) (by rintro given ⟨⟩; exact isNew) _
          desk.stable_anything _ _ held.1 ?_ activity clear
        rintro later ⟨laterClear, fresh⟩
        obtain ⟨word, found, isFresh⟩ := fresh _ rfl
        have setsLater : call.Sets (desk.fixing draft.nextLocal.index word) :=
          ⟨sets.sound.fixing isNew.toKeeps word, sets.below, sets.arity⟩
        refine heads_calling goals held.2 setsLater
          (fun value member => (keeps value member).fixing _ _)
          (laterClear.fixing found) renders.length known footing.toSpans
          (fun _ takes => absurd takes (by decide))
          (fun _ takes => absurd takes (by decide)) ?_
        intro callee after makes returned
        refine ⟨holds.2, inside, laidRest, rest, atEnd.fixing owns word,
          fun reserved other member =>
            modest reserved other (List.mem_cons_of_mem _ member), ?_,
          makes.footing footing.tail returned
            fun _ takes => absurd takes (by decide), fun _ => ?_⟩
        · intro cuts
          obtain ⟨kept, isKept, fixed, bound⟩ := level (by simp [cuts])
          exact ⟨kept, isKept, List.mem_cons_of_mem _ fixed, bound⟩
        · have finds : callee.functor.findsLevel = true := by
            rw [makes.functor]
            decide
          have given : word ∈ callee.arguments := by
            rw [makes.arguments]
            refine List.mem_singleton.mpr ?_
            rw [Built.wordIn, found]
            rfl
          have denotes := returned.answers guarded finds word given
            (isFresh.of_memory makes.memory)
          rw [makes.checkpoints] at denotes
          exact (levels guarded).found unknown (second.slots _ _ named) denotes
      · refine renders.plays.carries desk sets.sound rfl atMiddle setting place
          _ _ held.1 ?_ activity clear
        intro later laterClear
        refine heads_calling goals held.2 sets keeps laterClear renders.length
          known footing.toSpans
          (fun reserved => modest reserved goal List.mem_cons_self)
          (fun guarded takes passes =>
            (levels guarded).given renders laterClear.toNeat takes passes) ?_
        intro callee after makes returned
        refine ⟨holds.2, inside, laidRest, rest, atEnd,
          fun reserved other member =>
            modest reserved other (List.mem_cons_of_mem _ member),
          fun cuts => level (by simp [cuts]),
          makes.footing footing.tail returned fun guarded takes passes =>
            (levels guarded).uncut takes passes, fun guarded => ?_⟩
        exact (levels guarded).rest (first.trans second)
          (makes.persists.trans returned.persists)
          fun finds => begins ⟨guarded, finds⟩

/-! ## Clauses -/

end Base

namespace Rule

/-- The slot that cuts read, with the barrier in it. -/
def kept (rule : Rule) (barrier : Word) : List (Nat × Word) :=
  if rule.hasCut then [(0, barrier)] else []

omit [Atoms] in
theorem mem_kept {rule : Rule} {barrier word : Word} {slot : Nat}
    (member : (slot, word) ∈ rule.kept barrier) :
    rule.hasCut = true ∧ slot = 0 ∧ word = barrier := by
  unfold kept at member
  split at member
  case isTrue cuts => simp_all
  case isFalse => cases member

namespace Script

variable {rule : Rule} {naming : Naming}

/-- The working slots. -/
def working (script : rule.Script naming) : List Nat :=
  match script.ended.working with
  | some (subject, cursor) => [subject.index, cursor.index]
  | none => []

theorem laid_ended (script : rule.Script naming) : script.ended.Laid :=
  script.later.laid (script.plays.laid script.laid)

theorem cutLevel_ended (script : rule.Script naming)
    (cuts : rule.hasCut = true) : script.ended.cutLevel = some ⟨0⟩ :=
  script.later.cut _ (script.plays.cut _ (script.cutLevel cuts))

theorem apart (script : rule.Script naming) {barrier word : Word} {slot : Nat}
    (member : (slot, word) ∈ rule.kept barrier) : slot ∉ script.working := by
  obtain ⟨cuts, rfl, -⟩ := mem_kept member
  have laid := (script.laid_ended.cut _ (script.cutLevel_ended cuts)).2
  unfold working
  split
  case h_1 subject cursor known =>
    obtain ⟨first, second⟩ := laid subject cursor known
    simp only [List.mem_cons, List.not_mem_nil, or_false, not_or]
    exact ⟨first, second⟩
  case h_2 => exact List.not_mem_nil

theorem serves (script : rule.Script naming) (call : Call) :
    Draft.Serves script.started script.ended
      (call.desk script.locals script.working (rule.kept call.barrier)) := by
  have keeps (slot : Local) (owns : script.ended.Owns slot) :
      (call.desk script.locals script.working
        (rule.kept call.barrier)).Keeps slot := by
    refine ⟨owns.inside, ?_⟩
    show slot.index ∉ script.working
    unfold working
    split
    case h_1 subject cursor known =>
      obtain ⟨first, second⟩ := owns.apart subject cursor known
      simp only [List.mem_cons, List.not_mem_nil, or_false, not_or]
      exact ⟨first, second⟩
    case h_2 => exact List.not_mem_nil
  refine ⟨keeps, fun slot owns _ => ⟨keeps slot owns, ?_⟩, ?_⟩
  · intro kept word member
    obtain ⟨cuts, rfl, -⟩ := mem_kept member
    exact owns.notCut _ (script.cutLevel_ended cuts)
  · intro subject cursor known
    obtain ⟨first, second, different⟩ :=
      script.laid_ended.working subject cursor known
    have members : script.working = [subject.index, cursor.index] := by
      unfold working
      rw [known]
    refine ⟨⟨first, ?_⟩, ⟨second, ?_⟩, different⟩
    · show _ ∈ script.working
      simp [members]
    · show _ ∈ script.working
      simp [members]

/-- The record of a clause of a call. -/
def desk (script : rule.Script naming) (call : Call) : Desk :=
  call.desk script.locals script.working (rule.kept call.barrier)

end Script

end Rule

namespace Base

variable {base : Base} {setting : Setting} {call : Call} {desk : Desk}
  {activity : Activity} {position : Nat} {place : Label → Nat}

/-- A clause has been entered and keeps the level to cut back to. -/
theorem heads_keepLevel {turning given : Machine → Prop} {rule : Rule}
    (script : rule.Script base.program.naming) (memory : Store)
    (sound : call.Sound)
    (holds : setting.program.Holds place position (keepLevel rule.hasCut))
    (next : ∀ later,
      (script.desk call).Clear Desk.anything later →
      setting.Heads turning given
        (position + textSize (keepLevel rule.hasCut)) later) :
    setting.Heads turning given position
      ((call.waiting memory).entered script.locals) := by
  have framed := (call.waiting memory).entered_framed script.locals
  have below : ((call.waiting memory).entered script.locals).below =
      call.below := by
    show (call.waiting memory).stack ++ _ = _
    rw [call.stack_waiting]
    rfl
  refine .straight holds ?_
  cases cuts : rule.hasCut with
  | false =>
      rw [cuts] at next
      refine next _ ⟨⟨framed, below, List.length_replicate, ?_, ?_⟩, rfl,
        trivial⟩
      · intro index word _ found
        rw [List.eq_of_mem_replicate (List.mem_of_getElem? found)]
        exact Word.plain_zero
      · intro slot word member
        have isCut := (Rule.mem_kept member).1
        simp [cuts] at isCut
  | true =>
      have inside : 0 < script.locals :=
        (script.laid_ended.cut _ (script.cutLevel_ended cuts)).1
      rw [cuts] at next
      show Activity.Then (Activity.push _ call.barrier) _
        (Item.onLocal .storeLocal ⟨0⟩)
      refine Activity.then_storeLocal framed (by decide) rfl ?_
        (next _ ⟨⟨framed, below, ?_, ?_, ?_⟩, rfl, trivial⟩)
      · show 0 < (List.replicate _ _).length
        rwa [List.length_replicate]
      · show (List.set (List.replicate _ _) _ _).length = _
        rw [List.length_set, List.length_replicate]
        rfl
      · intro index word _ found
        rcases List.mem_or_eq_of_mem_set (List.mem_of_getElem? found) with
          old | rfl
        · rw [List.eq_of_mem_replicate old]
          exact Word.plain_zero
        · exact sound.plain_barrier
      · intro slot word member
        obtain ⟨-, rfl, rfl⟩ := Rule.mem_kept member
        show (List.set (List.replicate _ _) 0 _)[0]? = _
        rw [List.getElem?_set_self (by rwa [List.length_replicate])]

/-- The head of a clause has led to its goals. -/
theorem heads_goals {rule : Rule}
    (script : rule.Script base.program.naming)
    (holds : base.program.Holds place position
      (script.body ++ (reportText .endTrace script.traced ++
        [.operand .deallocate desk.arity.toUInt32, .plain .proceed])))
    (inside : position + textSize
      (script.body ++ (reportText .endTrace script.traced ++
        [.operand .deallocate desk.arity.toUInt32, .plain .proceed])) ≤
      base.program.top)
    (serves : Draft.Serves script.ready script.ended desk)
    (kept : ∀ pair ∈ rule.kept call.barrier, pair ∈ desk.fixed)
    (count : desk.count = script.locals)
    (head : call.functor = .ofGoal rule.head)
    (modest : base.reserved → rule.Modest)
    (footing : base.Footing setting call rule.goals)
    (levels : base.guarded →
      base.Levels setting call script.ready desk rule.goals)
    (sound : call.Sound) (isScoped : base.Scoped call) (sets : call.Sets desk)
    (grown : base.program.Grows setting.program)
    (clear : desk.Clear Desk.anything activity) :
    setting.Heads (base.Turns setting call) setting.Stays position activity := by
  have body : base.Body setting call desk rule.goals position := by
    refine ⟨holds, inside, script.plays.laid script.laid, script.solves, serves,
      fun reserved => head ▸ modest reserved,
      fun (cuts : rule.hasCut = true) => ?_, footing, levels⟩
    have level := script.cutLevel_ended cuts
    refine ⟨⟨0⟩, level, kept _ ?_, ?_⟩
    · rw [Rule.kept, if_pos cuts]
      exact List.mem_singleton.mpr rfl
    · rw [count]
      exact (script.laid_ended.cut _ level).1
  exact body.heads sound isScoped sets grown clear

/-- The head of a clause and its goals. -/
theorem heads_matching {rule : Rule}
    (script : rule.Script base.program.naming)
    (matching : setting.program.Holds place position script.head)
    (holds : base.program.Holds place (position + textSize script.head)
      (script.body ++ (reportText .endTrace script.traced ++
        [.operand .deallocate (script.desk call).arity.toUInt32,
          .plain .proceed])))
    (inside : position + textSize script.head + textSize
      (script.body ++ (reportText .endTrace script.traced ++
        [.operand .deallocate (script.desk call).arity.toUInt32,
          .plain .proceed])) ≤ base.program.top)
    (head : call.functor = .ofGoal rule.head)
    (official : base.guarded → call.functor.knowsLevel = true →
      rule ∈ Library.rules)
    (modest : base.reserved → rule.Modest)
    (sound : call.Sound) (isScoped : base.Scoped call)
    (sets : call.Sets (script.desk call)) {memory : Store}
    (starts : base.Starts setting call memory)
    (grown : base.program.Grows setting.program)
    (clear : (script.desk call).Clear Desk.anything activity) :
    setting.Heads (base.Turns setting call) setting.Stays position activity := by
  have arity : (script.desk call).arity = rule.head.arity := by
    show call.functor.arity = _
    rw [head]
    rfl
  have serves := script.serves call
  have footing : base.Footing setting call rule.goals := by
    refine starts.footing (fun guarded => ?_) fun guarded _ => ?_
    · by_contra finds
      have listed := official guarded (by simp [Functor.knowsLevel, finds])
      exact finds (head ▸ Library.rules_of_findsLevel rule listed)
    · by_contra cuts
      have listed := official guarded
        (by simp [Functor.knowsLevel, Functor.takesLevel, cuts])
      exact cuts (head ▸ Library.rules_of_cutsLevel rule listed)
  -- Unless the head is given a level, nothing needs to be known of its slots.
  have regular (levels : base.guarded →
      base.Levels setting call script.ready (script.desk call) rule.goals) :
      setting.Heads (base.Turns setting call) setting.Stays position
        activity := by
    refine script.plays.carries _ sets.sound arity
      (serves.left script.later) setting place _ _ matching
      (fun later laterClear => ?_) activity clear
    exact heads_goals script holds inside (serves.right script.plays.toLater)
      (fun _ => id) rfl head modest footing levels sound isScoped sets grown
      laterClear
  by_cases passes : base.guarded ∧ call.functor.passesLevel = true
  case neg =>
    refine regular fun guarded => .outside ?_
    exact Bool.eq_false_iff.mpr fun isTrue => passes ⟨guarded, isTrue⟩
  case pos =>
  obtain ⟨guarded, passes⟩ := passes
  have listed := official guarded (by simp [Functor.knowsLevel, passes])
  cases Library.hands_level listed (head ▸ passes) with
  | neither none => exact regular fun _ => .plain none
  | @begins rest goals absent sets levelled =>
      refine regular fun _ => ?_
      rw [← head] at sets
      rw [goals]
      refine .begins (script.unnamed "L" absent) ?_ levelled
      rw [isScoped.own guarded (Functor.not_takesLevel_of_setsLevel sets)]
      exact (starts.same guarded (by simp [Functor.isSimple, sets])).1
  | @takes earlier ends given levelled =>
      rw [← head] at given
      obtain ⟨word, last, denotes⟩ := isScoped.given guarded given
      have length : call.arguments.length = earlier.length + 1 := by
        rw [sound.arity, show call.functor.arity = _ from arity, Goal.arity,
          ends.args, List.length_append, List.length_singleton]
      rw [List.getLast?_eq_getElem?, length, Nat.add_sub_cancel] at last
      have known : (script.desk call).below[(script.desk call).below.length -
          3 - earlier.length]? = some word :=
        (Call.below_argument (by omega)).trans last
      obtain ⟨slot, named, keeps, servesLater, carries⟩ :=
        (script.takes earlier "L" ends).carries script.laid sets.sound arity
          (by rw [← arity]; show _ < call.functor.arity; rw [← sound.arity]; omega)
          script.later serves known
      refine carries setting place _ _ matching
        (fun later laterClear => ?_) activity clear
      refine @heads_goals _ _ _ _ ((script.desk call).fixing slot.index word) _ _
        _ _ script holds inside servesLater
        (fun pair member => List.mem_cons_of_mem _ member) rfl head modest
        footing (fun _ => ?_) sound isScoped
        ⟨sets.sound.fixing keeps word, sets.below, sets.arity⟩ grown laterClear
      exact .known named List.mem_cons_self (denotes.persists starts.persists)
        levelled

/-- The clause of a rule. -/
theorem heads_rule {rule : Rule} (script : rule.Script base.program.naming)
    (holds : base.program.Holds place position
      (Assembler.clauseText script.locals rule.head.arity script.text))
    (inside : position + textSize
      (Assembler.clauseText script.locals rule.head.arity script.text) ≤
        base.program.top)
    (few : script.locals ≤ textSize script.text)
    (head : call.functor = .ofGoal rule.head)
    (official : base.guarded → call.functor.knowsLevel = true →
      rule ∈ Library.rules)
    (modest : base.reserved → rule.Modest)
    (sound : call.Sound) (isScoped : base.Scoped call)
    (grown : base.program.Grows setting.program) {memory : Store}
    (starts : base.Starts setting call memory) :
    setting.Heads (base.Turns setting call) setting.Stays position
      (call.waiting memory) := by
  have room := base.linked.top.2
  have small := base.small
  have held := grown.holds holds inside
  have size : textSize (Assembler.clauseText script.locals rule.head.arity
      script.text) = 5 + textSize script.text := by
    simp [Assembler.clauseText, Item.codeWords]
    omega
  have count : script.locals < 2 ^ 31 := by omega
  have arity : (script.desk call).arity = rule.head.arity := by
    show call.functor.arity = _
    rw [head]
    rfl
  have sets : call.Sets (script.desk call) :=
    sound.sets count fun _ _ => script.apart
  have divided : Assembler.clauseText script.locals rule.head.arity
      script.text = .operand .allocate script.locals.toUInt32 ::
        (keepLevel rule.hasCut ++ (reportText .trace script.traced ++
          (script.head ++ (script.body ++
            (reportText .endTrace script.traced ++
              [.operand .deallocate (script.desk call).arity.toUInt32,
                .plain .proceed]))))) := by
    simp [Assembler.clauseText, Rule.Script.text, arity]
  rw [divided] at held holds inside
  refine .allocate held ?_
  rw [Program.toNat_toUInt32 (Nat.lt_trans count (by decide))]
  obtain ⟨keeps, rest⟩ := Program.holds_append.mp held.2.2
  refine heads_keepLevel script memory sound keeps fun ready clear => ?_
  obtain ⟨traces, rest⟩ := Program.holds_append.mp rest
  refine .straight traces ?_
  refine Activity.then_report (.inl rfl) ?_
  obtain ⟨matching, -⟩ := Program.holds_append.mp rest
  obtain ⟨-, ending⟩ := Program.holds_append.mp holds.2.2
  obtain ⟨-, ending⟩ := Program.holds_append.mp ending
  obtain ⟨-, ending⟩ := Program.holds_append.mp ending
  refine heads_matching script matching ending ?_ head official modest sound
    isScoped sets starts grown clear
  simp only [textSize_cons, textSize_append, Item.codeWords,
    List.length_cons, List.length_nil] at inside ⊢
  omega

/-- A clause that was assembled by hand has been entered. -/
theorem clear_entered (call : Call) (count : Nat) (memory : Store) :
    (call.desk count [] []).Clear Desk.anything
      ((call.waiting memory).entered count) := by
  refine ⟨⟨(call.waiting memory).entered_framed count, ?_,
    List.length_replicate, ?_, nofun⟩, rfl, trivial⟩
  · show (call.waiting memory).stack ++ _ = _
    rw [call.stack_waiting]
    rfl
  · intro index word _ found
    rw [List.eq_of_mem_replicate (List.mem_of_getElem? found)]
    exact Word.plain_zero

/-- The end of a clause that was assembled by hand. -/
theorem Body.of_end {arity : Nat} (same : desk.arity = arity)
    (holds : base.program.Holds place position
      [.operand .deallocate arity.toUInt32, .plain .proceed])
    (inside : position + 3 ≤ base.program.top)
    (footing : base.Footing setting call []) :
    base.Body setting call desk [] position := by
  subst same
  have serves : Draft.Serves Draft.empty Draft.empty desk :=
    ⟨fun _ owns => absurd owns.inside (Nat.not_lt_zero _),
      fun _ owns => absurd owns.inside (Nat.not_lt_zero _), nofun⟩
  exact @Body.intro _ _ _ _ _ _ _ place .empty .empty [] none holds inside
    Draft.laid_empty .nil serves (fun _ _ none => absurd none List.not_mem_nil)
    nofun footing fun _ => .plain nofun

/-- The clause of a native predicate. -/
theorem heads_native {index : Nat} {native : Native} {words : List UInt32}
    (found : base.program.natives[index]? = some native)
    (known : ∀ builtin, native = .builtin builtin →
      .native call.functor builtin ∈ Library.natives)
    (code : (Assembler.empty.add (.operand .native index.toUInt32)).clause
      call.functor.arity = .ok words)
    (stands : base.program.HasWords position words)
    (inside : position + words.length ≤ base.program.top)
    (foreign : ∀ key, native = .foreign key → base.guarded →
      call.functor.knowsLevel = false)
    (sound : call.Sound) (grown : base.program.Grows setting.program)
    {memory : Store} (starts : base.Starts setting call memory) :
    setting.Heads (base.Turns setting call) setting.Stays position
      (call.waiting memory) := by
  have contains : (Assembler.empty.add
      (.operand .native index.toUInt32)).Contains
        [.operand .native index.toUInt32] :=
    Draft.text_empty.contains.add_plain rfl
  have holds := contains.holds_clause code stands
  rw [contains.length_clause code] at inside
  have held := grown.holds holds inside
  refine .allocate held ?_
  intro machine runs
  refine .here runs.toStays (.consults runs held.2.2.1 held.2.2.2.1 found known
    (sound.sets (by decide) (by simp)) (clear_entered call 0 memory) foreign
    starts fun later footing => .of_end rfl holds.2.2.2.2 ?_ footing)
  simpa [Assembler.clauseText, Item.codeWords] using inside

end Base

end LogicMachine
