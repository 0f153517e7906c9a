import LogicMachine.Proofs.Control.Assembled

/-!
# Taking up a call

The dispatch code of a predicate leads to its clauses.
-/

namespace LogicMachine

/-- The first piece of dispatch code is the entry. -/
theorem Chain.Matches.exists_blocks {chain : Chain} {predicate : Predicate}
    (matching : chain.Matches predicate) :
    ∃ blocks, chain.blocks = predicate.entry :: blocks := by
  cases predicate with
  | undefined entry => exact ⟨[], matching.1⟩
  | single entry => exact ⟨[], matching.1⟩
  | chain entry last =>
      obtain ⟨-, middle, shape⟩ := matching
      exact ⟨middle ++ [last], shape⟩

theorem Linkage.clauses_of_chain {linkage : Linkage} {functor : Functor}
    {chain : Chain} (known : linkage.chains functor = some chain) :
    linkage.clauses functor = chain.clauses := by
  rw [Linkage.clauses, known]
  rfl

theorem Chain.Matches.length_clauses {chain : Chain} {predicate : Predicate}
    (matching : chain.Matches predicate) (several : 2 ≤ chain.blocks.length) :
    chain.clauses.length = chain.blocks.length := by
  cases predicate with
  | undefined entry =>
      rw [matching.1] at several
      exact absurd several (by simp)
  | single entry =>
      rw [matching.1] at several
      exact absurd several (by simp)
  | chain entry last => exact matching.1

theorem Program.Linked.exists_predicate {program : Program} {linkage : Linkage}
    (linked : program.Linked linkage) {functor : Functor} {chain : Chain}
    (found : linkage.chains functor = some chain) :
    ∃ predicate, program.predicate? functor = some predicate ∧
      chain.Matches predicate := by
  cases known : program.predicate? functor with
  | none =>
      rw [linked.unknown functor known] at found
      cases found
  | some predicate =>
      obtain ⟨other, same, matching⟩ := linked.known functor predicate known
      cases found.symm.trans same
      exact ⟨predicate, rfl, matching⟩

variable [Atoms]

namespace Base

variable {base : Base} {setting : Setting} {call : Call} {position : Nat}

/-- In a guarded run the clauses of a predicate that knows of levels are those of
the library. -/
theorem Origin.of_source {functor : Functor} {words : List UInt32}
    (source : base.program.Source functor words)
    (official : base.guarded → functor.knowsLevel = true →
      base.program.Official functor words)
    (modest : base.reserved →
      base.program.Written Rule.Modest functor words) :
    base.Origin functor words := by
  by_cases deals : base.guarded ∧ functor.knowsLevel = true
  case pos =>
    cases official deals.1 deals.2 with
    | rule rule trace listed head compiled =>
        exact .rule rule trace head compiled (fun _ _ => listed)
          fun _ => Library.modest_of_mem listed
    | native index builtin known found code =>
        exact .native index _ (by rintro _ ⟨⟩; exact known)
          (by rintro _ ⟨⟩) found code
    | assembled known => exact .assembled known
  case neg =>
    have outside (guarded : base.guarded) : functor.knowsLevel = false :=
      Bool.eq_false_iff.mpr fun knows => deals ⟨guarded, knows⟩
    have vacuous {rule : Rule} (guarded : base.guarded)
        (knows : functor.knowsLevel = true) : rule ∈ Library.rules :=
      absurd ⟨guarded, knows⟩ deals
    by_cases reserved : base.reserved
    case pos =>
      cases modest reserved with
      | rule rule trace isModest head compiled =>
          exact .rule rule trace head compiled vacuous fun _ => isModest
      | native index native builtin found code =>
          exact .native index native builtin (fun _ _ => outside) found code
      | assembled known => exact .assembled known
    case neg =>
      cases source with
      | rule rule trace head compiled =>
          exact .rule rule trace head compiled vacuous
            fun isReserved => absurd isReserved reserved
      | native index builtin known found code =>
          exact .native index _ (by rintro _ ⟨⟩; exact known)
            (fun _ _ => outside) found code
      | foreign index key found code =>
          exact .native index _ (by rintro _ ⟨⟩) (fun _ _ => outside) found code
      | assembled known => exact .assembled known

theorem Includes.heads {clause : Clause}
    (included : base.Includes call.functor clause) (sound : call.Sound)
    (isScoped : base.Scoped call)
    (grown : base.program.Grows setting.program) {memory : Store}
    (starts : base.Starts setting call memory) :
    setting.Heads (base.Turns setting call) setting.Stays clause.address
      (call.waiting memory) := by
  obtain ⟨stands, origin, inside⟩ := included
  cases origin with
  | rule rule trace head compiled official modest =>
      obtain ⟨script, place, length, few, holds⟩ :=
        compiled.script base.atomic stands
      rw [length] at inside
      exact heads_rule script holds inside few head official modest sound
        isScoped grown starts
  | native index native builtin foreign found code =>
      exact heads_native found builtin code stands inside foreign sound grown
        starts
  | assembled known =>
      exact heads_assembled stands inside sound isScoped grown starts known

/-- A jump to another place. -/
theorem heads_branchAbsolute {turning given : Machine → Prop}
    {activity : Activity} {target : Nat}
    (there : setting.program.code[position]? =
      some Opcode.branchAbsolute.encode)
    (argument : setting.program.code[position + 1]? =
      some target.toUInt32)
    (next : setting.Heads turning given target activity) :
    setting.Heads turning given position activity := by
  refine .quiet target.toUInt32 there argument rfl fun ready runs => ?_
  exact next _ (runs.jumped target ready.program.journal)

theorem heads_nop {turning given : Machine → Prop} {activity : Activity}
    (there : setting.program.code[position]? = some Opcode.nop.encode)
    (next : setting.Heads turning given (position + 1) activity) :
    setting.Heads turning given position activity :=
  .quiet 0 there rfl rfl fun ready runs => next ready runs

theorem Tries.heads (tries : base.Tries call.functor position)
    (sound : call.Sound) (isScoped : base.Scoped call)
    (grown : base.program.Grows setting.program) {memory : Store}
    (starts : base.Starts setting call memory) :
    setting.Heads (base.Turns setting call) setting.Stays position
      (call.waiting memory) := by
  cases tries with
  | clause branches target inside included =>
      exact heads_branchAbsolute
        ((grown.code position (by omega)).trans branches)
        ((grown.code (position + 1) (by omega)).trans target)
        (included.heads sound isScoped grown starts)
  | again repeats =>
      have inside := repeats.inside
      have none : call.arguments = [] :=
        List.length_eq_zero_iff.mp (sound.arity.trans repeats.arity)
      intro machine runs
      refine .here runs.toStays (.leaves runs
        ((grown.code _ (by omega)).trans repeats.leaves) rfl rfl ?_
        (starts.footing (fun _ => Functor.not_findsLevel repeats.arity) nofun))
      rw [Call.stack_waiting, Call.stack, none]
      exact List.append_nil _

/-- The dispatch code of a predicate without clauses. -/
theorem heads_undefined {activity : Activity} {turning given : Machine → Prop}
    (stands : setting.program.HasWords position dispatchUndefined)
    (gives : ∀ machine, setting.Stays machine → given machine) :
    setting.Heads turning given position activity :=
  @Setting.Heads.fail _ _ _ _ (fun _ => 0) _ _ [] ⟨stands 0 _ rfl, trivial⟩
    fun machine runs => gives machine runs.toStays

theorem Offers.heads {block : Nat} {blocks : List Nat} {clauses : List Clause}
    (offers : base.Offers call.functor (block :: blocks) clauses)
    (sound : call.Sound) (isScoped : base.Scoped call)
    (grown : base.program.Grows setting.program) {memory : Store}
    (starts : base.Starts setting call memory) :
    setting.Heads (base.Turns setting call) setting.Stays block
      (call.waiting memory) := by
  have inside := offers.blocks block List.mem_cons_self
  have dispatches := offers.dispatches
  match blocks, clauses with
  | [], [] => exact heads_undefined (grown.hasWords dispatches inside) fun _ => id
  | [], [clause] =>
      have stands := grown.hasWords dispatches inside
      have included := offers.clauses clause List.mem_cons_self
      refine heads_nop (stands 0 _ rfl) (heads_nop (stands 1 _ rfl) ?_)
      exact heads_branchAbsolute (stands 2 _ rfl) (stands 3 _ rfl)
        (included.heads sound isScoped grown starts)
  | next :: others, clause :: rest =>
      have stands := grown.hasWords dispatches.1 inside
      have several (guarded : base.guarded) :=
        offers.several guarded (Nat.le_add_left 2 _)
      have later : base.Offers call.functor (next :: others) rest :=
        ⟨dispatches.2, fun guarded _ => several guarded,
          fun other member => offers.blocks other
            (List.mem_cons_of_mem _ member),
          fun other member => offers.clauses other
            (List.mem_cons_of_mem _ member)⟩
      intro machine runs
      exact .here runs.toStays (.opens runs (stands 0 _ rfl) (stands 1 _ rfl)
        (.inl rfl) rfl (.dispatch later)
        (.clause (dispatches.1 2 _ rfl) (dispatches.1 3 _ rfl) inside
          (offers.clauses clause List.mem_cons_self)) starts several)

theorem TakesUp.heads {clauses : List Clause}
    (takesUp : base.TakesUp call.functor clauses position)
    (sound : call.Sound) (isScoped : base.Scoped call)
    (grown : base.program.Grows setting.program) {memory : Store}
    (starts : base.Starts setting call memory) :
    setting.Heads (base.Turns setting call) setting.Stays position
      (call.waiting memory) := by
  cases takesUp with
  | dispatch offers => exact offers.heads sound isScoped grown starts
  | again repeats => exact repeats.heads grown starts

/-- The chain of a predicate that the program started with. -/
theorem offers {functor : Functor} {chain : Chain} {entry : Nat}
    {blocks : List Nat} (known : base.linkage.chains functor = some chain)
    (shape : chain.blocks = entry :: blocks) :
    base.Offers functor (entry :: blocks) chain.clauses where
  dispatches := shape ▸ base.linked.dispatches functor chain known
  several := by
    intro guarded more
    obtain ⟨predicate, -, matching⟩ := base.linked.exists_predicate known
    have length := matching.length_clauses (shape ▸ more)
    refine Bool.eq_false_iff.mpr fun isSimple => ?_
    have few := (base.stocked guarded).simple functor isSimple
    rw [Linkage.clauses_of_chain known, length, shape] at few
    exact absurd more (Nat.not_le.mpr (Nat.lt_succ_of_le few))
  blocks := fun block member =>
    (base.linked.block_lt known (shape ▸ member)).2
  clauses := by
    intro clause member
    obtain ⟨stands, source⟩ :=
      base.linked.clauses functor chain known clause member
    have listed : clause ∈ base.linkage.clauses functor := by
      rwa [Linkage.clauses_of_chain known]
    exact ⟨stands, .of_source source
      (fun guarded knows =>
        (base.stocked guarded).official functor knows clause listed)
      fun reserved => base.modest reserved functor clause listed,
      base.linked.clause_le known member source.words_ne_nil⟩

/-- A call has been made.  A predicate that the program did not start with has
no clauses. -/
theorem heads_entry {predicate : Predicate} (sound : call.Sound)
    (isScoped : base.Scoped call)
    (advances : base.program.Advances setting.program)
    (known : setting.program.predicate? call.functor = some predicate)
    {memory : Store} (starts : base.Starts setting call memory) :
    setting.Heads (base.Turns setting call) setting.Stays predicate.entry
      (call.waiting memory) := by
  obtain ⟨linkage, linked, isExtended⟩ :=
    advances.linked base.linkage base.linked
  obtain ⟨chain, found, matching⟩ := linked.known call.functor predicate known
  obtain ⟨blocks, shape⟩ : ∃ blocks, chain.blocks = predicate.entry :: blocks :=
    matching.exists_blocks
  rcases isExtended.fresh call.functor chain found with old | none
  · exact (base.offers old shape).heads sound isScoped advances.grows starts
  · have dispatches := linked.dispatches call.functor chain found
    rw [none, shape] at dispatches
    cases blocks with
    | nil => exact heads_undefined dispatches fun _ => id
    | cons next others => cases dispatches

end Base

end LogicMachine
