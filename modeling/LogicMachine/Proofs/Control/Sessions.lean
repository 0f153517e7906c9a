import LogicMachine.Proofs.Control.Starting
import LogicMachine.Proofs.Session.Reports

/-!
# From one query to the next

A session adds rules and solves queries one after another.  A run may be left off
at any time, and after a fault it may be taken up again by going back.  Whatever
happened before, the next query starts on tidy cells.
-/

namespace LogicMachine

namespace Session

/-- The session after a request, whether it ends in a fault or not. -/
def since (session : Session) (request : SessionM α) : Session :=
  match request session with
  | .ok _ after => after
  | .error _ after => after

theorem since_of_ends {session : Session} {request : SessionM α}
    {holds : Session → Prop}
    (ends : Ends (request session) (fun _ => holds) (fun _ => holds)) :
    holds (session.since request) := by
  unfold since
  cases result : request session with
  | ok value after =>
      rw [result] at ends
      exact ends
  | error fault after =>
      rw [result] at ends
      exact ends

/-- What an embedding program can make of a session, with the last report on the
query that is still being solved.  A run that has been put off goes on, a
predicate of the embedding program is answered, and after any end of an attempt
another solution can be asked for.  A query that ends in a fault at once has no
run, and no rule is added to a run.  The predicates of the embedding program that
are meant here test what they are given: they leave the machine as it is. -/
inductive Arises (config : Config) (journal : Journal) :
    Session → Option Report → Prop where
  | create {session : Session}
      (created : Session.create config journal = .ok session) :
      Arises config journal session none
  | addRule {session : Session} {last : Option Report} (rule : Rule)
      (arises : Arises config journal session last) :
      Arises config journal (session.since (SessionM.addRule rule)) none
  | defineForeign {session : Session} {last : Option Report}
      (functor : Functor) (key : Nat)
      (arises : Arises config journal session last) :
      Arises config journal
        (session.since (SessionM.defineForeign functor key)) none
  | query {session after : Session} {last : Option Report} {status : Status}
      {steps : Nat} {goals : List Goal}
      (arises : Arises config journal session last)
      (asked : SessionM.query steps goals session = .ok status after) :
      Arises config journal after (some (.ok status))
  | refuse {session after : Session} {last : Option Report} {fault : Fault}
      {steps : Nat} {goals : List Goal}
      (arises : Arises config journal session last)
      (asked : SessionM.query steps goals session = .error fault after) :
      Arises config journal after none
  | goOn {session : Session} (steps : Nat)
      (arises : Arises config journal session (some (.ok .running))) :
      Arises config journal
        (session.tell (Continuation.goOn steps).perform).2
        (some (session.tell (Continuation.goOn steps).perform).1)
  | answer {session : Session} {key : Nat} (steps : Nat) (success : Bool)
      (arises : Arises config journal session
        (some (.ok (.awaiting key)))) :
      Arises config journal
        (session.tell (Continuation.serve steps (return success)).perform).2
        (some (session.tell
          (Continuation.serve steps (return success)).perform).1)
  | resume {session : Session} {report : Report} (steps : Nat)
      (arises : Arises config journal session (some report)) :
      Arises config journal
        (session.tell (Continuation.resume steps).perform).2
        (some (session.tell (Continuation.resume steps).perform).1)

end Session

/-! ## The code of a session -/

namespace Session

/-- The session is sound and has all functors and predicates that there were. -/
def Continues (program : Program) (session : Session) : Prop :=
  ∃ linkage, session.Sound linkage ∧ program.Keeps session.machine.program

variable {program : Program} {linkage : Linkage} {session : Session}

theorem Carried.continues (carried : Carried program linkage session) :
    Continues program session := by
  obtain ⟨later, carries⟩ := carried
  exact ⟨later, carries.toSound, carries.keeps⟩

theorem Sound.since_carried (sound : session.Sound linkage)
    {request : SessionM α}
    (carries : Keeps (Carried session.machine.program linkage) request) :
    Continues session.machine.program (session.since request) :=
  since_of_ends ((carries session ⟨linkage, sound.carries⟩).imp
    (fun _ _ carried => carried.continues)
    fun _ _ carried => carried.continues)

theorem Sound.since_addition (sound : session.Sound linkage)
    {addition : Addition} {action : ProgramM Unit}
    (links : addition.LinkedBy action) :
    Continues session.machine.program
      (session.since (SessionM.onProgram action)) := by
  refine since_of_ends ((SessionM.addition_links links sound).imp ?_
    fun _ _ carried => carried.continues)
  rintro _ after ⟨clause, later, -, gains, soundLater⟩
  exact ⟨later, soundLater, gains.keeps⟩

/-- What is done to the program leaves the store alone. -/
theorem store_since_onProgram (session : Session) (action : ProgramM α) :
    (session.since (SessionM.onProgram action)).machine.store =
      session.machine.store := by
  have ends : Ends (SessionM.onProgram action session)
      (fun _ after => after.machine.store = session.machine.store)
      (fun _ after => after.machine.store = session.machine.store) := by
    simp only [SessionM.onProgram, SessionM.ends_onMachine,
      MachineM.ends_onProgram]
    cases action session.machine.program <;> trivial
  exact since_of_ends ends

theorem tell_snd (session : Session) (request : SessionM Status) :
    (session.tell request).2 = session.since request := by
  unfold tell since
  cases request session <;> rfl

theorem goOn_carries (steps : Nat) :
    Keeps (Carried program linkage) (Continuation.goOn steps).perform :=
  SessionM.attempt_carries fun _ => MachineM.run_advances steps

theorem Continues.tell {request : SessionM Status}
    (continues : Continues program (session.since request)) :
    ∃ linkage, (session.tell request).2.Sound linkage := by
  obtain ⟨later, sound, -⟩ := continues
  exact ⟨later, tell_snd _ _ ▸ sound⟩

theorem since_of_ok {request : SessionM α} {value : α} {after : Session}
    (asked : request session = .ok value after) :
    session.since request = after := by
  rw [since, asked]

theorem since_of_error {request : SessionM α} {fault : Fault} {after : Session}
    (asked : request session = .error fault after) :
    session.since request = after := by
  rw [since, asked]

theorem Arises.sound {config : Config} {journal : Journal}
    {last : Option Report} (arises : Arises config journal session last) :
    ∃ linkage, session.Sound linkage := by
  induction arises with
  | @create session created =>
      have account : Account.create config journal = .ok ⟨session,
          ClauseLog.empty.install (.empty config.codeSize journal)
            Library.definitions⟩ := by
        unfold Account.create
        rw [created]
        rfl
      obtain ⟨linkage, sound⟩ := Account.create_sound account
      exact ⟨linkage, sound.toSound⟩
  | @addRule session last rule arises ih =>
      obtain ⟨linkage, sound⟩ := ih
      obtain ⟨later, soundLater, -⟩ :=
        sound.since_addition (ProgramM.addRule_links rule session.trace)
      exact ⟨later, soundLater⟩
  | @defineForeign session last functor key arises ih =>
      obtain ⟨linkage, sound⟩ := ih
      obtain ⟨later, soundLater, -⟩ := sound.since_addition
        (ProgramM.defineNative_links functor (.foreign key) (by simp))
      exact ⟨later, soundLater⟩
  | @query session after last status steps goals arises asked ih =>
      obtain ⟨linkage, sound⟩ := ih
      obtain ⟨later, soundLater, -⟩ :=
        sound.since_carried (SessionM.query_carries steps goals)
      exact ⟨later, since_of_ok asked ▸ soundLater⟩
  | @refuse session after last fault steps goals arises asked ih =>
      obtain ⟨linkage, sound⟩ := ih
      obtain ⟨later, soundLater, -⟩ :=
        sound.since_carried (SessionM.query_carries steps goals)
      exact ⟨later, since_of_error asked ▸ soundLater⟩
  | goOn steps arises ih =>
      obtain ⟨linkage, sound⟩ := ih
      exact (sound.since_carried (goOn_carries steps)).tell
  | answer steps success arises ih =>
      obtain ⟨linkage, sound⟩ := ih
      exact (sound.since_carried (SessionM.serve_carries steps (.pure _))).tell
  | resume steps arises ih =>
      obtain ⟨linkage, sound⟩ := ih
      exact (sound.since_carried (SessionM.resume_carries steps)).tell

end Session

namespace SessionM

open Session

/-! ## Compiling a query -/

theorem compileQuery_carries {program : Program} {linkage : Linkage}
    (rule : Rule) : Keeps (Carried program linkage) (compileQuery rule) :=
  releaseScratch_carries.bind fun _ =>
    (compile_carries rule false).bind fun words => placeQuery_carries words rule

/-- The store is left alone, and so are the numbers of functors. -/
theorem releaseScratch_leaves (session : Session) :
    Ends (releaseScratch session)
      (fun _ after => after.machine.store = session.machine.store ∧
        after.machine.program.functors = session.machine.program.functors)
      (fun _ _ => False) := by
  unfold releaseScratch
  rw [ends_bind, ends_get]
  cases session.scratch with
  | none => exact ⟨rfl, rfl⟩
  | some range =>
      simp only [ends_bind, ends_modify, ends_discard, onProgram,
        ends_onMachine, MachineM.ends_onProgram, ProgramM.release, ends_get]
      split
      case isTrue => exact ⟨trivial, rfl⟩
      case isFalse => exact ⟨trivial, rfl⟩

/-- The code of the query stands at its entry. -/
structure Places (session : Session) (rule : Rule) (entry : Nat)
    (after : Session) : Prop where
  store : after.machine.store = session.machine.store
  code : ∃ words, after.machine.program.HasWords entry words ∧
    entry + words.length ≤ after.machine.program.top ∧
    after.machine.program.Compiled rule false words

theorem compileQuery_places (rule : Rule) {session : Session}
    {linkage : Linkage} (sound : session.Sound linkage) :
    Ends (compileQuery rule session)
      (fun entry after => Places session rule entry after)
      (fun _ after => after.machine.store = session.machine.store) := by
  simp only [compileQuery, ends_bind]
  refine (releaseScratch_leaves session).imp ?_ fun _ _ => False.elim
  rintro _ released ⟨store, functors⟩
  simp only [onProgram, ends_onMachine, MachineM.ends_onProgram]
  cases compiled : ProgramM.compile rule false released.machine.program with
  | error fault program => exact store
  | ok words program =>
      refine ProgramM.ends_append (fun fits => ?_) store
      simp only [ends_get, ends_modify, ProgramM.report, ends_pure]
      refine ⟨store, words, Program.extended_hasWords fits, ?_, ?_⟩
      · simp [Program.extended]
      · refine ⟨released.machine.program, program, ?_, compiled, ?_⟩
        · rw [functors]
          exact sound.linked.consistent
        · exact (Program.extended_advances fits).grows.toKeeps.trans
            (Program.Advances.journal _ _).grows.toKeeps

/-! ## Starting a query -/

/-- All that a query does before its first attempt. -/
def begin (goals : List Goal) : SessionM Unit := do
  let rule := Rule.ofQuery goals
  let names := Term.varsOf rule.head.args
  modify fun session => { session with current := .unsolved names }
  let entry ← compileQuery rule
  onMachine (MachineM.start entry.toUInt32 names.length)

theorem query_eq (steps : Nat) (goals : List Goal) :
    query steps goals = begin goals >>= fun _ => attempt (MachineM.run steps) := by
  simp only [query, begin, bind_assoc]

end SessionM

/-- The head of a query has its named variables as arguments. -/
theorem Rule.length_varsOf_ofQuery (goals : List Goal) :
    (Term.varsOf (Rule.ofQuery goals).head.args).length =
      (Rule.ofQuery goals).head.arity := by
  simp only [Rule.ofQuery, Goal.arity]
  generalize ((goals.flatMap Goal.vars).filter
    (· ≠ Term.anonymous)).eraseDups = names
  induction names with
  | nil => rfl
  | cons name rest ih =>
      rw [List.map_cons, Term.varsOf, List.length_append, ih, List.length_cons,
        Term.vars, List.length_singleton, Nat.add_comm]

variable [Atoms]

namespace Session

/-- The run of a query that the session has begun, guarded or reserved or neither,
is known. -/
def Starts (guarded reserved : Prop) (horizon : Program) (session : Session) :
    Prop :=
  ∃ base : Base, base.horizon = horizon ∧ base.guarded = guarded ∧
    base.reserved = reserved ∧
    ∃ outlook : Outlook, base.Known outlook session.machine ∧
      outlook.Tracks (.start session.machine)

/-- The run of a query that the session has begun is known. -/
def Begun (horizon : Program) (session : Session) : Prop :=
  ∃ base : Base, base.horizon = horizon ∧
    base.Knows (.start session.machine)

theorem Starts.begun {horizon : Program} {session : Session}
    (starts : Starts False False horizon session) : Begun horizon session := by
  obtain ⟨base, same, none, -, outlook, known, tracks⟩ := starts
  exact ⟨base, same, outlook, ⟨known, by simp [none]⟩, tracks⟩

end Session

namespace SessionM

open Session

variable {horizon : Program} (fits : horizon.Fits) (lists : horizon.Lists)

include fits lists

theorem begin_starts (goals : List Goal) {session : Session}
    {linkage : Linkage} (sound : session.Sound linkage)
    (tidy : session.machine.store.reset.Tidy) {guarded reserved : Prop}
    (assures : linkage.Assures guarded reserved session.machine.program horizon)
    (modest : reserved → (Rule.ofQuery goals).Modest) :
    Ends (begin goals session)
      (fun _ after => after.machine.program.Keeps horizon →
        Starts guarded reserved horizon after)
      (fun _ after => after.machine.program.Keeps horizon →
        after.machine.store.reset.Tidy) := by
  simp only [begin, ends_bind, ends_modify]
  have ready : Session.Sound { session with
      current := .unsolved (Term.varsOf (Rule.ofQuery goals).head.args) }
      linkage := ⟨sound.linked, sound.scratch⟩
  have carried := (compileQuery_carries (Rule.ofQuery goals)) _
    ⟨linkage, ready.carries⟩
  refine ((compileQuery_places _ ready).and carried).imp ?_ ?_
  · rintro entry placed ⟨⟨store, words, stands, inside, compiled⟩,
      later, carries⟩
    rw [ends_onMachine]
    refine MachineM.ends_of_advances
      (MachineM.start_advances _ _ _ (.refl placed.machine.program)) ?_
    intro keeps
    let base := Base.between carries.linked keeps fits lists
      (assures.keeps carries.keeps carries.clauses)
    have outside : (Functor.ofGoal (Rule.ofQuery goals).head).knowsLevel =
        false := by
      simp [Functor.knowsLevel, Functor.passesLevel, Functor.setsLevel,
        Functor.takesLevel, Functor.cutsLevel, Functor.findsLevel,
        Functor.ofGoal, Rule.ofQuery]
    have included : base.Includes (.ofGoal (Rule.ofQuery goals).head)
        ⟨entry, words⟩ :=
      ⟨stands, .rule _ false rfl compiled (fun _ knows => by
        rw [outside] at knows
        cases knows) modest, inside⟩
    have clean : placed.machine.store.reset.Tidy := store.symm ▸ tidy
    refine (MachineM.start_ends clean base.small entry _).imp ?_
      fun _ _ stopped _ => stopped
    rintro _ after ⟨arguments, length, plain, runs⟩ within
    exact ⟨base, rfl, rfl, rfl, base.known_start included (fun _ => outside)
      (length.trans (Rule.length_varsOf_ofQuery goals)) plain runs keeps⟩
  · rintro _ placed ⟨store, -⟩ -
    rw [store]
    exact tidy

theorem begin_knows (goals : List Goal) {session : Session} {linkage : Linkage}
    (sound : session.Sound linkage) (tidy : session.machine.store.reset.Tidy) :
    Ends (begin goals session)
      (fun _ after => after.machine.program.Keeps horizon →
        Begun horizon after)
      (fun _ after => after.machine.program.Keeps horizon →
        after.machine.store.reset.Tidy) :=
  (begin_starts fits lists goals sound tidy Linkage.assures_nothing
    False.elim).imp (fun _ _ starts within => (starts within).begun)
    fun _ _ => id

end SessionM

/-! ## Between queries -/

/-- Segments that addresses of 32 bits reach all of. -/
def Config.Addressable (config : Config) : Prop :=
  (Store.empty config.heapSize config.retainedSize
    config.stackSize).Addressable

namespace Store

omit [Atoms] in
/-- All cells of an empty store are zero. -/
theorem load_empty {heap retained stack : Nat} {address : Address} {word : Word}
    (found : (empty heap retained stack).load address = .ok word) :
    word = .zero := by
  have replicated {size : Nat} {index : Int32}
      (present : wordAt? (Array.replicate size Word.zero) index = some word) :
      word = .zero := by
    have there := (wordAt?_eq_some.mp present).2
    rw [Array.getElem?_replicate] at there
    split at there
    case isTrue => exact (Option.some.inj there).symm
    case isFalse => cases there
  cases address with
  | heap index | retained index | stack index =>
      simp only [load] at found
      split at found
      case h_1 other present =>
        cases found
        exact replicated present
      case h_2 => cases found
  | code index | register index | blank index => cases found

theorem tidy_empty {heap retained stack : Nat}
    (addressable : (empty heap retained stack).Addressable) :
    (empty heap retained stack).Tidy where
  cells := fun _ found => load_empty found ▸ Word.plain_zero
  saved := fun _ member => absurd member List.not_mem_nil
  addressable := addressable
  room := fun region => by
    cases region <;> exact ⟨Int32.le_refl _, Nat.zero_le _⟩

end Store

/-- What is known of the machine after an attempt. -/
def Base.Admits (base : Base) (report : Report) (machine : Machine) : Prop :=
  match report with
  | .ok status => base.Stays status machine
  | .error _ => base.Stops machine

namespace Session

/-- The last attempt at the query of the session can be followed by another
one. -/
def Stands (horizon : Program) (session : Session) (report : Report) : Prop :=
  ∃ base : Base, base.horizon = horizon ∧ base.Admits report session.machine

theorem Stands.stops {horizon : Program} {session : Session} {report : Report}
    (stands : Stands horizon session report) :
    ∃ base : Base, base.horizon = horizon ∧ base.Stops session.machine := by
  obtain ⟨base, same, known⟩ := stands
  cases report with
  | ok status => exact ⟨base, same, known.stops⟩
  | error fault => exact ⟨base, same, known⟩

/-- The next query will start on tidy cells, and the current one can be gone on
with. -/
structure Settled (horizon : Program) (session : Session)
    (last : Option Report) : Prop where
  tidy : session.machine.store.reset.Tidy
  stands : ∀ report ∈ last, Stands horizon session report

variable {horizon : Program} {session : Session}

theorem Stands.settled {report : Report} (stands : Stands horizon session report) :
    Settled horizon session (some report) := by
  refine ⟨?_, ?_⟩
  · obtain ⟨base, -, outlook, -, setting, -, -, stays⟩ := stands.stops
    exact stays.tidy.reset
  · rintro _ ⟨⟩
    exact stands

/-- An attempt at the query of the session. -/
theorem attempt_settled {base : Base} (same : base.horizon = horizon)
    {action : MachineM Status}
    (attempts : base.Attempts (action session.machine)) :
    Ends (SessionM.attempt action session)
      (fun status after => after.machine.program.Keeps horizon →
        Settled horizon after (some (.ok status)))
      (fun fault after => after.machine.program.Keeps horizon →
        Settled horizon after (some (.error fault))) := by
  subst same
  simp only [SessionM.attempt, ends_bind, SessionM.ends_onMachine, ends_modify,
    ends_pure]
  refine attempts.imp ?_ ?_
  · exact fun status machine stays within =>
      Stands.settled ⟨base, rfl, stays within⟩
  · exact fun fault machine stops within =>
      Stands.settled ⟨base, rfl, stops within⟩

/-- Going on with the current query. -/
theorem Settled.tell {report : Report}
    (settled : Settled horizon session (some report))
    {request : SessionM Status}
    (goesOn : ∀ base : Base, base.horizon = horizon →
      base.Admits report session.machine →
      Ends (request session)
        (fun status after => after.machine.program.Keeps horizon →
          Settled horizon after (some (.ok status)))
        (fun fault after => after.machine.program.Keeps horizon →
          Settled horizon after (some (.error fault))))
    (within : (session.tell request).2.machine.program.Keeps horizon) :
    Settled horizon (session.tell request).2
      (some (session.tell request).1) := by
  obtain ⟨base, same, known⟩ := settled.stands report rfl
  have ends := goesOn base same known
  unfold Session.tell at within ⊢
  cases result : request session with
  | ok status after =>
      rw [result] at ends within
      exact ends within
  | error fault after =>
      rw [result] at ends within
      exact ends within

/-- Asking for another solution. -/
theorem resume_settled {base : Base} (same : base.horizon = horizon)
    (stops : base.Stops session.machine) (steps : Nat) :
    Ends (SessionM.resume steps session)
      (fun status after => after.machine.program.Keeps horizon →
        Settled horizon after (some (.ok status)))
      (fun fault after => after.machine.program.Keeps horizon →
        Settled horizon after (some (.error fault))) := by
  rw [SessionM.resume, ends_bind, ends_get]
  split
  case isTrue => exact attempt_settled same (stops.resume steps)
  case isFalse =>
    refine attempt_settled same ?_
    obtain ⟨outlook, stopped⟩ := stops
    intro _
    refine ⟨outlook, ?_⟩
    rw [if_pos rfl]
    exact stopped

variable (fits : horizon.Fits) (lists : horizon.Lists)

include fits lists

/-- A query and its first attempt. -/
theorem query_settled {linkage : Linkage} (sound : session.Sound linkage)
    (tidy : session.machine.store.reset.Tidy) (steps : Nat)
    (goals : List Goal) :
    Ends (SessionM.query steps goals session)
      (fun status after => after.machine.program.Keeps horizon →
        Settled horizon after (some (.ok status)))
      (fun _ after => after.machine.program.Keeps horizon →
        Settled horizon after none) := by
  have begins := SessionM.begin_knows fits lists goals sound tidy
  rw [SessionM.query_eq, ends_bind]
  cases result : SessionM.begin goals session with
  | error fault middle =>
      rw [result] at begins
      exact fun within => ⟨begins within, fun _ none =>
        absurd none (Option.not_mem_none _)⟩
  | ok _ middle =>
      rw [result] at begins
      simp only [SessionM.attempt, ends_bind, SessionM.ends_onMachine,
        ends_modify, ends_pure]
      refine MachineM.ends_of_advances (MachineM.run_advances steps
        middle.machine (.refl middle.machine.program)) fun keeps => ?_
      obtain ⟨base, rfl, outlook, good, -⟩ := begins keeps
      refine (Base.Good.run good steps).imp ?_ ?_
      · exact fun status machine stays within =>
          Stands.settled ⟨base, rfl, stays within⟩
      · exact fun fault machine stops within =>
          have stands : Stands base.horizon { middle with machine }
              (.error fault) := ⟨base, rfl, stops within⟩
          ⟨stands.settled.tidy, fun _ none =>
            absurd none (Option.not_mem_none _)⟩

/-- The calls of a run are known from its start on. -/
theorem starts_of_query {linkage : Linkage} (sound : session.Sound linkage)
    (tidy : session.machine.store.reset.Tidy) {guarded reserved : Prop}
    (assures : linkage.Assures guarded reserved session.machine.program horizon)
    {goals : List Goal} (modest : reserved → (Rule.ofQuery goals).Modest)
    {begun : Session}
    (begins : SessionM.query 0 goals session = .ok .running begun)
    (within : begun.machine.program.Keeps horizon) :
    Starts guarded reserved horizon begun := by
  have starts :=
    SessionM.begin_starts fits lists goals sound tidy assures modest
  rw [SessionM.query_eq] at begins
  simp only [bind, EStateM.bind] at begins
  cases result : SessionM.begin goals session with
  | error fault middle =>
      rw [result] at begins
      cases begins
  | ok _ middle =>
      rw [result] at begins starts
      cases begins
      exact starts within

theorem begun_of_query {linkage : Linkage} (sound : session.Sound linkage)
    (tidy : session.machine.store.reset.Tidy) {goals : List Goal}
    {begun : Session}
    (begins : SessionM.query 0 goals session = .ok .running begun)
    (within : begun.machine.program.Keeps horizon) : Begun horizon begun :=
  (starts_of_query fits lists sound tidy Linkage.assures_nothing False.elim
    begins within).begun

/-- Whatever an embedding program makes of a session, the session can be gone on
with. -/
theorem Arises.settled {config : Config} {journal : Journal}
    {last : Option Report} (addressable : config.Addressable)
    (arises : Arises config journal session last)
    (within : session.machine.program.Keeps horizon) :
    Settled horizon session last := by
  induction arises with
  | @create session created =>
      have same : session.machine.store = .empty config.heapSize
          config.retainedSize config.stackSize := by
        unfold Session.create MachineM.onProgram at created
        cases result : ProgramM.installLibrary
            (.empty config.codeSize journal) <;>
          simp only [Machine.empty, result] at created <;> cases created
        rfl
      refine ⟨?_, fun _ none => absurd none (Option.not_mem_none _)⟩
      rw [same]
      exact (Store.tidy_empty addressable).reset
  | @addRule session last rule arises ih =>
      obtain ⟨linkage, sound⟩ := arises.sound
      obtain ⟨later, -, keeps⟩ :=
        sound.since_addition (ProgramM.addRule_links rule session.trace)
      refine ⟨?_, fun _ none => absurd none (Option.not_mem_none _)⟩
      have same := session.store_since_onProgram
        (ProgramM.addRule rule session.trace)
      exact same ▸ (ih (keeps.trans within)).tidy
  | @defineForeign session last functor key arises ih =>
      obtain ⟨linkage, sound⟩ := arises.sound
      obtain ⟨later, -, keeps⟩ := sound.since_addition
        (ProgramM.defineNative_links functor (.foreign key) (by simp))
      refine ⟨?_, fun _ none => absurd none (Option.not_mem_none _)⟩
      have same := session.store_since_onProgram
        (ProgramM.defineNative functor (.foreign key))
      exact same ▸ (ih (keeps.trans within)).tidy
  | @query session after last status steps goals arises asked ih =>
      obtain ⟨linkage, sound⟩ := arises.sound
      obtain ⟨later, -, keeps⟩ :=
        sound.since_carried (SessionM.query_carries steps goals)
      rw [since_of_ok asked] at keeps
      have ends := query_settled fits lists sound
        (ih (keeps.trans within)).tidy steps goals
      rw [asked] at ends
      exact ends within
  | @refuse session after last fault steps goals arises asked ih =>
      obtain ⟨linkage, sound⟩ := arises.sound
      obtain ⟨later, -, keeps⟩ :=
        sound.since_carried (SessionM.query_carries steps goals)
      rw [since_of_error asked] at keeps
      have ends := query_settled fits lists sound
        (ih (keeps.trans within)).tidy steps goals
      rw [asked] at ends
      exact ends within
  | @goOn session steps arises ih =>
      obtain ⟨linkage, sound⟩ := arises.sound
      obtain ⟨later, -, keeps⟩ :=
        sound.since_carried (goOn_carries steps)
      rw [← tell_snd] at keeps
      refine (ih (keeps.trans within)).tell ?_ within
      rintro base same ⟨outlook, good⟩
      exact attempt_settled same (Base.Good.run good steps)
  | @answer session key steps success arises ih =>
      obtain ⟨linkage, sound⟩ := arises.sound
      obtain ⟨later, -, keeps⟩ :=
        sound.since_carried (SessionM.serve_carries steps (.pure success))
      rw [← tell_snd] at keeps
      refine (ih (keeps.trans within)).tell ?_ within
      intro base same stays
      exact attempt_settled same (Base.Stays.answer stays steps success)
  | @resume session report steps arises ih =>
      obtain ⟨linkage, sound⟩ := arises.sound
      obtain ⟨later, -, keeps⟩ :=
        sound.since_carried (SessionM.resume_carries steps)
      rw [← tell_snd] at keeps
      have settled := ih (keeps.trans within)
      obtain ⟨base, same, stops⟩ := (settled.stands report rfl).stops
      refine settled.tell ?_ within
      exact fun _ _ _ => resume_settled same stops steps

end Session

end LogicMachine
