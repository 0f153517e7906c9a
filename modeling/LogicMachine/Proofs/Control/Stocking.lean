import LogicMachine.Proofs.Control.Sessions

/-!
# Predicates that are left to the library

Levels are found and handed on by a few predicates of the library.  A session
whose embedding program adds no clauses to them has them as the library made
them, whatever else it is used for.  No two predicates of a session have the same
entry, so a call tells which predicate it is of.
-/

namespace LogicMachine

/-! ## Entries -/

/-- A predicate is entered at the first piece of its chain. -/
theorem Chain.Matches.head {chain : Chain} {predicate : Predicate}
    (matching : chain.Matches predicate) :
    chain.blocks[0]? = some predicate.entry := by
  cases predicate with
  | undefined entry => simp [matching.1, Predicate.entry]
  | single entry => simp [matching.1, Predicate.entry]
  | chain entry last =>
      obtain ⟨-, middle, shape⟩ := matching
      simp [shape, Predicate.entry]

/-- The dispatch code of a predicate belongs to no other. -/
theorem Program.Linked.keepsApart {program : Program} {linkage : Linkage}
    (linked : program.Linked linkage) (small : program.code.size < 2 ^ 31) :
    program.KeepsApart := by
  have owned {functor : Functor} {predicate : Predicate}
      (known : program.predicate? functor = some predicate) :
      predicate.entry < 2 ^ 31 ∧
        linkage.owner predicate.entry = some (.dispatch functor 0) := by
    obtain ⟨chain, found, matching⟩ := linked.known functor predicate known
    have owner := (linked.owns functor chain found).blocks 0 _ matching.head 0
      (by decide)
    have inside := (linked.owned _ _ owner).2
    have top := linked.top.2
    exact ⟨by omega, owner⟩
  intro first second one other knownOne knownOther same
  obtain ⟨smallOne, ownerOne⟩ := owned knownOne
  obtain ⟨smallOther, ownerOther⟩ := owned knownOther
  have entries : one.entry = other.entry := by
    have values := congrArg (UInt32.toNat ∘ Int32.toUInt32) same
    simpa only [Function.comp, UInt32.toUInt32_toInt32,
      toNat_toUInt32 (Nat.lt_trans smallOne (by decide)),
      toNat_toUInt32 (Nat.lt_trans smallOther (by decide))] using values
  rw [entries, ownerOther] at ownerOne
  cases ownerOne
  rfl

/-! ## The library -/

/-- The code of a native predicate runs what has been added for it. -/
theorem Addition.exists_native {functor : Functor} {native : Native}
    {program prepared : Program} {words : List UInt32}
    (made : (ofNative functor native).code program = .ok words prepared) :
    ∃ index : Nat, prepared.natives[index]? = some native ∧
      (Assembler.empty.add (.operand .native index.toUInt32)).clause
        functor.arity = .ok words := by
  simp only [ofNative, bind, EStateM.bind, ProgramM.addNative,
    modifyGet_apply] at made
  generalize assembled : (Assembler.empty.add (.operand .native
    program.natives.size.toUInt32)).clause functor.arity = code at made
  cases code with
  | error fault => cases made
  | ok text =>
      cases made
      exact ⟨_, by simp, assembled⟩

/-- Whatever an entry of the library adds comes from the library. -/
theorem Addition.official {definition : Definition}
    (known : definition ∈ Library.definitions) {program prepared : Program}
    (consistent : program.functors.Small → program.functors.Consistent)
    {words : List UInt32}
    (made : (ofDefinition definition).code program = .ok words prepared) :
    prepared.Official (ofDefinition definition).functor words := by
  cases definition with
  | assembled functor code =>
      cases code with
      | error fault => cases made
      | ok text =>
          cases made
          exact .assembled (Library.mem_assembled known)
  | native functor builtin =>
      obtain ⟨index, found, assembled⟩ := exists_native made
      exact .native index builtin (Library.mem_natives known) found assembled
  | clause rule =>
      exact .rule rule false (Library.mem_rules known) rfl
        ⟨program, prepared, consistent, made, .refl _⟩

/-- The rules of the library call with a level only what they are to hand it
to. -/
theorem Program.Official.written {program : Program} {functor : Functor}
    {words : List UInt32} (official : program.Official functor words) :
    program.Written Rule.Modest functor words := by
  cases official with
  | rule rule trace listed head compiled =>
      exact .rule rule trace (Library.modest_of_mem listed) head compiled
  | native index builtin known found code =>
      exact .native index _ (by rintro _ ⟨⟩; exact known) found code
  | assembled known => exact .assembled known

/-- What is known of all clauses is known with one more. -/
theorem Linkage.All.gains {known : Program → Functor → List UInt32 → Prop}
    {before after : Program} {linkage later : Linkage} {functor : Functor}
    {clause : Clause} (all : linkage.All known before)
    (gains : before.Gains linkage functor clause after later)
    (kept : ∀ functor words, known before functor words →
      known after functor words)
    (added : known after functor clause.words) : later.All known after := by
  intro other old member
  rw [gains.clauses other] at member
  split at member
  case isFalse => exact kept _ _ (all other old member)
  case isTrue same =>
    subst same
    rcases List.mem_append.mp member with present | new
    · exact kept _ _ (all _ old present)
    · cases List.mem_singleton.mp new
      exact added

/-- The entries for a predicate. -/
def Library.count (definitions : List Definition) (functor : Functor) : Nat :=
  definitions.countP fun definition =>
    functor = (Addition.ofDefinition definition).functor

namespace ProgramM

/-- Each entry of the library adds one clause to its predicate. -/
theorem installAll_stocks {definitions : List Definition}
    (listed : ∀ definition ∈ definitions, definition ∈ Library.definitions)
    {program : Program} {linkage : Linkage} (linked : program.Linked linkage)
    (official : linkage.All Program.Official program) :
    Ends (definitions.forM install program)
      (fun _ final => ∃ later, final.Linked later ∧
        later.All Program.Official final ∧
        ∀ functor, (later.clauses functor).length =
          (linkage.clauses functor).length +
            Library.count definitions functor)
      (fun _ _ => True) := by
  induction definitions generalizing program linkage with
  | nil => exact ⟨linkage, linked, official, fun _ => rfl⟩
  | cons definition rest ih =>
      have known := listed definition List.mem_cons_self
      show Ends ((install definition >>= fun _ => rest.forM install) program) _ _
      rw [ends_bind]
      refine (install_prepares known program linkage linked).imp ?_
        fun _ _ _ => trivial
      rintro _ middle ⟨words, prepared, made, keeps, between, gains⟩
      have officialBetween : between.All Program.Official middle :=
        official.gains gains (fun _ _ old => old.keeps gains.keeps)
          ((Addition.official known linked.consistent made).keeps keeps)
      refine (ih (fun other member => listed other
        (List.mem_cons_of_mem _ member)) gains.linked officialBetween).imp ?_
        fun _ _ => id
      rintro _ final ⟨later, linkedLater, officialLater, lengths⟩
      refine ⟨later, linkedLater, officialLater, fun functor => ?_⟩
      rw [lengths functor, gains.clauses functor, Library.count, Library.count,
        List.countP_cons]
      split
      case isTrue same =>
        subst same
        simp
        omega
      case isFalse different => simp [different]

end ProgramM

theorem Library.count_le_one {functor : Functor}
    (simple : functor.isSimple = true) : count definitions functor ≤ 1 := by
  simp only [Functor.isSimple, Functor.setsLevel, Functor.findsLevel,
    Bool.or_eq_true, beq_iff_eq] at simple
  rcases simple with (rfl | rfl) | rfl <;> decide +kernel

/-! ## Sessions -/

namespace Session

theorem exists_library {config : Config} {journal : Journal}
    {session : Session} (created : create config journal = .ok session) :
    ∃ program, ProgramM.installLibrary (.empty config.codeSize journal) =
        .ok () program ∧
      session = .ofMachine { Machine.empty config journal with program }
        config.trace := by
  unfold create MachineM.onProgram at created
  cases result : ProgramM.installLibrary (.empty config.codeSize journal) with
  | error fault program =>
      simp only [Machine.empty, result] at created
      cases created
  | ok value program =>
      simp only [Machine.empty, result] at created
      cases created
      exact ⟨program, rfl, rfl⟩

/-- What an embedding program can make of a session without adding clauses to the
predicates that have a part in handing on levels, with rules and queries of one
kind only. -/
inductive ArisesSparing (admits : Rule → Prop) (config : Config)
    (journal : Journal) : Session → Option Report → Prop where
  | create {session : Session}
      (created : Session.create config journal = .ok session) :
      ArisesSparing admits config journal session none
  | addRule {session : Session} {last : Option Report} (rule : Rule)
      (spares : (Functor.ofGoal rule.head).knowsLevel = false)
      (admitted : admits rule)
      (arises : ArisesSparing admits config journal session last) :
      ArisesSparing admits config journal
        (session.since (SessionM.addRule rule)) none
  | defineForeign {session : Session} {last : Option Report}
      (functor : Functor) (key : Nat) (spares : functor.knowsLevel = false)
      (arises : ArisesSparing admits config journal session last) :
      ArisesSparing admits config journal
        (session.since (SessionM.defineForeign functor key)) none
  | query {session after : Session} {last : Option Report} {status : Status}
      {steps : Nat} {goals : List Goal}
      (arises : ArisesSparing admits config journal session last)
      (admitted : admits (Rule.ofQuery goals))
      (asked : SessionM.query steps goals session = .ok status after) :
      ArisesSparing admits config journal after (some (.ok status))
  | refuse {session after : Session} {last : Option Report} {fault : Fault}
      {steps : Nat} {goals : List Goal}
      (arises : ArisesSparing admits config journal session last)
      (admitted : admits (Rule.ofQuery goals))
      (asked : SessionM.query steps goals session = .error fault after) :
      ArisesSparing admits config journal after none
  | goOn {session : Session} (steps : Nat)
      (arises : ArisesSparing admits config journal session
        (some (.ok .running))) :
      ArisesSparing admits config journal
        (session.tell (Continuation.goOn steps).perform).2
        (some (session.tell (Continuation.goOn steps).perform).1)
  | answer {session : Session} {key : Nat} (steps : Nat) (success : Bool)
      (arises : ArisesSparing admits config journal session
        (some (.ok (.awaiting key)))) :
      ArisesSparing admits config journal
        (session.tell (Continuation.serve steps (return success)).perform).2
        (some (session.tell
          (Continuation.serve steps (return success)).perform).1)
  | resume {session : Session} {report : Report} (steps : Nat)
      (arises : ArisesSparing admits config journal session (some report)) :
      ArisesSparing admits config journal
        (session.tell (Continuation.resume steps).perform).2
        (some (session.tell (Continuation.resume steps).perform).1)

variable {admits : Rule → Prop} {config : Config} {journal : Journal}
  {session : Session} {last : Option Report}

theorem ArisesSparing.arises
    (sparing : ArisesSparing admits config journal session last) :
    Arises config journal session last := by
  induction sparing with
  | create created => exact .create created
  | addRule rule _ _ _ ih => exact .addRule rule ih
  | defineForeign functor key _ _ ih => exact .defineForeign functor key ih
  | query _ _ asked ih => exact .query ih asked
  | refuse _ _ asked ih => exact .refuse ih asked
  | goOn steps _ ih => exact .goOn steps ih
  | answer steps success _ ih => exact .answer steps success ih
  | resume steps _ ih => exact .resume steps ih

/-! ### The clauses -/

/-- The predicates that deal in levels are those of the library.  In a reserved
session whatever takes a level is called by what hands it on. -/
def Stocked (reserved : Prop) (session : Session) : Prop :=
  ∃ linkage, session.Sound linkage ∧
    linkage.Stocked session.machine.program ∧
    (reserved → linkage.Written Rule.Modest session.machine.program)

variable {reserved : Prop}

theorem create_stocked (created : create config journal = .ok session) :
    session.Stocked reserved := by
  have stocks := ProgramM.installAll_stocks (fun _ => id)
    (Program.empty_linked config.codeSize journal) nofun
  obtain ⟨program, installed, rfl⟩ := exists_library created
  have ends : Ends (ProgramM.installLibrary (.empty config.codeSize journal))
      (fun _ after => ∃ linkage, after.Linked linkage ∧
        linkage.Stocked after ∧ linkage.Written Rule.Modest after)
      (fun _ _ => True) := by
    unfold ProgramM.installLibrary
    rw [ends_bind]
    refine stocks.imp ?_ fun _ _ => id
    rintro _ final ⟨linkage, linked, official, lengths⟩
    have kept := (Program.grows_journal final
      (final.journal.add (.builtinsInstalled final.top))).toKeeps
    refine ⟨linkage, linked.withJournal _,
      ⟨fun functor _ clause member =>
        (official functor clause member).keeps kept, fun functor simple => ?_⟩,
      fun functor clause member =>
        (official functor clause member).written.keeps kept⟩
    rw [lengths functor]
    exact Nat.le_trans (Nat.le_of_eq (Nat.zero_add _))
      (Library.count_le_one simple)
  rw [installed] at ends
  obtain ⟨linkage, linked, stocked, written⟩ := ends
  exact ⟨linkage, ⟨linked, by simp [ofMachine]⟩, stocked, fun _ => written⟩

theorem Carried.stocked {linkage : Linkage} {program : Program}
    (carried : Carried program linkage session)
    (stocked : linkage.Stocked program)
    (written : reserved → linkage.Written Rule.Modest program) :
    session.Stocked reserved := by
  obtain ⟨later, carries⟩ := carried
  refine ⟨later, carries.toSound, stocked.keeps carries.keeps
    fun functor _ => carries.clauses functor, fun isReserved functor clause => ?_⟩
  rw [carries.clauses functor]
  exact fun member =>
    (written isReserved functor clause member).keeps carries.keeps

theorem Stocked.since_carries {request : SessionM α}
    (stocked : session.Stocked reserved)
    (carries : ∀ program linkage, Keeps (Carried program linkage) request) :
    (session.since request).Stocked reserved := by
  obtain ⟨linkage, sound, stocked, written⟩ := stocked
  exact since_of_ends ((carries _ linkage session
    ⟨linkage, sound.carries⟩).imp
      (fun _ _ carried => carried.stocked stocked written)
      fun _ _ carried => carried.stocked stocked written)

/-- An addition to another predicate. -/
theorem Stocked.since_addition {addition : Addition} {action : ProgramM Unit}
    (stocked : session.Stocked reserved) (prepares : addition.PreparedBy action)
    (spares : addition.functor.knowsLevel = false)
    (modest : reserved → ∀ program words prepared,
      (program.functors.Small → program.functors.Consistent) →
        addition.code program = .ok words prepared →
          prepared.Written Rule.Modest addition.functor words) :
    (session.since (SessionM.onProgram action)).Stocked reserved := by
  obtain ⟨linkage, sound, stocked, written⟩ := stocked
  refine since_of_ends ((SessionM.addition_prepares prepares sound).imp ?_
    fun _ _ carried => carried.stocked stocked written)
  rintro _ after ⟨words, prepared, later, made, keeps, gains, soundLater⟩
  refine ⟨later, soundLater, stocked.keeps gains.keeps fun functor knows => ?_,
    fun isReserved => (written isReserved).gains gains
      (fun _ _ old => old.keeps gains.keeps)
      ((modest isReserved _ words prepared sound.linked.consistent made).keeps
        keeps)⟩
  have different : functor ≠ addition.functor := by
    rintro rfl
    rw [spares] at knows
    cases knows
  rw [gains.clauses functor, if_neg different]

theorem ArisesSparing.stocked
    (sparing : ArisesSparing admits config journal session last)
    (modest : reserved → ∀ rule, admits rule → rule.Modest) :
    session.Stocked reserved := by
  induction sparing with
  | create created => exact create_stocked created
  | @addRule session last rule spares admitted _ ih =>
      refine ih.since_addition (ProgramM.addRule_prepares rule session.trace)
        spares ?_
      intro isReserved program words prepared consistent made
      exact .rule rule session.trace (modest isReserved rule admitted) rfl
        ⟨program, prepared, consistent, made, .refl _⟩
  | @defineForeign session last functor key spares _ ih =>
      refine ih.since_addition
        (ProgramM.defineNative_prepares functor (.foreign key) (by simp)) spares
        ?_
      intro _ program words prepared _ made
      obtain ⟨index, found, assembled⟩ := Addition.exists_native made
      exact .native index (.foreign key) (by simp) found assembled
  | @query session after last status steps goals _ _ asked ih =>
      exact since_of_ok asked ▸ ih.since_carries
        fun _ _ => SessionM.query_carries steps goals
  | @refuse session after last fault steps goals _ _ asked ih =>
      exact since_of_error asked ▸ ih.since_carries
        fun _ _ => SessionM.query_carries steps goals
  | goOn steps _ ih =>
      exact tell_snd _ _ ▸ ih.since_carries fun _ _ => goOn_carries steps
  | answer steps success _ ih =>
      exact tell_snd _ _ ▸ ih.since_carries
        fun _ _ => SessionM.serve_carries steps (.pure success)
  | resume steps _ ih =>
      exact tell_snd _ _ ▸ ih.since_carries
        fun _ _ => SessionM.resume_carries steps

end Session

/-! ### The functors -/

namespace SessionM

/-- The request numbers no functor that takes a level. -/
abbrev LeavesUnspoken (request : SessionM α) : Prop :=
  Keeps (fun session => session.machine.program.Unspoken) request

theorem onMachine_unspoken {action : MachineM α}
    (upholds : Keeps (MachineM.Holding Program.Unspoken) action) :
    LeavesUnspoken (onMachine action) := by
  intro session unspoken
  rw [ends_onMachine]
  exact upholds session.machine unspoken

theorem onProgram_unspoken {action : ProgramM α}
    (keeps : Keeps Program.Unspoken action) :
    LeavesUnspoken (onProgram action) := by
  refine onMachine_unspoken fun machine unspoken => ?_
  rw [MachineM.ends_onProgram]
  exact keeps machine.program unspoken

theorem attempt_unspoken {action : MachineM Status}
    (upholds : Keeps (MachineM.Holding Program.Unspoken) action) :
    LeavesUnspoken (attempt action) :=
  (onMachine_unspoken upholds).bind fun _ =>
    .bind (.modifying fun _ unspoken => unspoken) fun _ => .pure _

theorem addRule_unspoken {rule : Rule}
    (spares : (Functor.ofGoal rule.head).knowsLevel = false)
    (discreet : rule.Discreet) : LeavesUnspoken (addRule rule) := by
  have head : (Functor.ofGoal rule.head).takesLevel = false := by
    simp only [Functor.knowsLevel, Bool.or_eq_false_iff] at spares
    exact spares.1.2
  exact .bind .get fun session => onProgram_unspoken
    (ProgramM.addRule_numbers (fun _ => head) discreet.speaks)

theorem releaseScratch_unspoken : LeavesUnspoken releaseScratch := by
  refine .bind .get fun session => ?_
  cases session.scratch with
  | none => exact .pure _
  | some range =>
      refine .bind (.modifying fun _ unspoken => unspoken) fun _ => ?_
      refine Keeps.bind (onProgram_unspoken ?_) fun _ => .pure _
      refine .bind .get fun program => ?_
      split
      · exact .bind (.modifying fun _ unspoken => unspoken) fun _ => .pure _
      · exact .pure _

theorem query_unspoken (steps : Nat) {goals : List Goal}
    (discreet : (Rule.ofQuery goals).Discreet) :
    LeavesUnspoken (query steps goals) := by
  have compiles : LeavesUnspoken (compileQuery (Rule.ofQuery goals)) := by
    refine releaseScratch_unspoken.bind fun _ => ?_
    refine (onProgram_unspoken (ProgramM.compile_numbers (by simp)
      discreet.speaks)).bind fun words => ?_
    refine (onProgram_unspoken (ProgramM.append_numbers words)).bind
      fun entry => ?_
    refine .bind .get fun _ => .bind (.modifying fun _ unspoken => unspoken)
      fun _ => ?_
    exact (onProgram_unspoken (ProgramM.report_numbers _)).bind
      fun _ => .pure _
  refine .bind (.modifying fun _ unspoken => unspoken) fun _ => ?_
  refine compiles.bind fun entry => ?_
  exact (onMachine_unspoken (MachineM.start_upholds _ _)).bind
    fun _ => attempt_unspoken (MachineM.run_upholds steps)

theorem resume_unspoken (steps : Nat) : LeavesUnspoken (resume steps) := by
  refine .bind .get fun session => ?_
  split
  · exact attempt_unspoken (MachineM.resume_upholds steps)
  · exact attempt_unspoken (.pure _)

end SessionM

theorem Library.unspoken : ∀ definition ∈ definitions,
    ∀ functor ∈ definition.functors, functor.takesLevel = false := by
  decide +kernel

/-- Without rules and queries that speak of them, the functors that take levels
stay without numbers. -/
theorem Session.ArisesSparing.unspoken {admits : Rule → Prop} {config : Config}
    {journal : Journal} {session : Session} {last : Option Report}
    (sparing : ArisesSparing admits config journal session last)
    (discreet : ∀ rule, admits rule → rule.Discreet) :
    session.machine.program.Unspoken := by
  induction sparing with
  | create created =>
      obtain ⟨program, installed, rfl⟩ := exists_library created
      have numbers := ProgramM.installLibrary_numbers Library.unspoken
        (.empty config.codeSize journal) FunctorTable.Within.empty
      rw [installed] at numbers
      exact numbers
  | addRule rule spares admitted _ ih =>
      exact since_of_ends
        (SessionM.addRule_unspoken spares (discreet rule admitted) _ ih)
  | defineForeign functor key _ _ ih =>
      exact since_of_ends (SessionM.onProgram_unspoken
        (ProgramM.defineNative_numbers functor _) _ ih)
  | @query _ after _ _ steps goals _ admitted asked ih =>
      exact since_of_ok asked ▸ since_of_ends
        (SessionM.query_unspoken steps (discreet _ admitted) _ ih)
  | @refuse _ after _ _ steps goals _ admitted asked ih =>
      exact since_of_error asked ▸ since_of_ends
        (SessionM.query_unspoken steps (discreet _ admitted) _ ih)
  | goOn steps _ ih =>
      exact tell_snd _ _ ▸ since_of_ends
        (SessionM.attempt_unspoken (MachineM.run_upholds steps) _ ih)
  | answer steps success _ ih =>
      exact tell_snd _ _ ▸ since_of_ends (SessionM.attempt_unspoken
        (Keeps.bind (.pure _) fun _ => MachineM.answer_upholds steps _) _ ih)
  | resume steps _ ih =>
      exact tell_snd _ _ ▸ since_of_ends
        (SessionM.resume_unspoken steps _ ih)

end LogicMachine
