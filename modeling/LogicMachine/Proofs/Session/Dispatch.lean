import LogicMachine.Proofs.Code.Library
import LogicMachine.Proofs.Session.Foreign

/-!
# The dispatch code of a session

A session is asked to add clauses and to solve queries, in any order, and some of
what it is asked fails.  Whatever happens, the dispatch code of every predicate
leads to the clauses that were added to it, in their order, and the pieces of
code that predicates are made of stay apart and unchanged.

Query code is the only code that is given back.  It belongs to no predicate, and
it is given back only while nothing stands above it.
-/

namespace LogicMachine

/-! ## What is asked of a session -/

/-- What is asked of a session. -/
inductive Request where
  | addRule (rule : Rule)
  | defineForeign (functor : Functor) (key : Nat)
  | query (steps : Nat) (goals : List Goal)
  | resume (steps : Nat)
  /-- A predicate of the embedding program acts on the machine and answers, or
  ends in a fault. -/
  | serve (steps : Nat) (foreign : Foreign)

namespace Request

def perform : Request → SessionM Unit
  | .addRule rule => SessionM.addRule rule
  | .defineForeign functor key => SessionM.defineForeign functor key
  | .query steps goals => discard (SessionM.query steps goals)
  | .resume steps => discard (SessionM.resume steps)
  | .serve steps foreign => discard (SessionM.serve steps foreign.act)

/-- The clause that is to be added. -/
def addition? (trace : Bool) : Request → Option Addition
  | .addRule rule => some (.ofRule rule trace)
  | .defineForeign functor key => some (.ofNative functor (.foreign key))
  | .query .. | .resume .. | .serve .. => none

end Request

/-- The clauses that have been added to each predicate, oldest first. -/
abbrev ClauseLog := Functor → List Clause

namespace ClauseLog

def empty : ClauseLog :=
  fun _ => []

/-- Takes note of an addition to a program. -/
def note (log : ClauseLog) (program : Program) (addition : Addition) :
    ClauseLog :=
  fun functor =>
    if functor = addition.functor then
      log functor ++ (addition.clause? program).toList
    else
      log functor

/-- Takes note of the additions that make up a part of the library. -/
def install (log : ClauseLog) (program : Program) :
    List Definition → ClauseLog
  | [] => log
  | definition :: rest =>
      match ProgramM.install definition program with
      | .ok _ later => (log.note program (.ofDefinition definition)).install later rest
      | .error _ _ => log

end ClauseLog

/-- A session with the clauses that have been added to it. -/
structure Account where
  session : Session
  log : ClauseLog

namespace Account

def program (account : Account) : Program :=
  account.session.machine.program

/-- A new session with its library. -/
def create (config : Config) (journal : Journal) : Except Fault Account := do
  let session ← Session.create config journal
  return ⟨session,
    ClauseLog.empty.install (.empty config.codeSize journal) Library.definitions⟩

/-- What a request leads to.  Only requests that succeed are noted. -/
def after (account : Account) (request : Request) : Account :=
  match request.perform account.session with
  | .ok _ session =>
      ⟨session,
        match request.addition? account.session.trace with
        | some addition => account.log.note account.program addition
        | none => account.log⟩
  | .error _ session => ⟨session, account.log⟩

/-- What a sequence of requests leads to. -/
def afterAll (account : Account) (requests : List Request) : Account :=
  requests.foldl after account

end Account

/-! ## Following dispatch code -/

namespace Program

/-- Follows dispatch code from a piece on: the pieces met and the clauses they
lead to. -/
def follow (program : Program) : Nat → Nat → Option (List Nat × List Nat)
  | 0, _ => none
  | steps + 1, block => do
      let first ← program.code[block]?
      let second ← program.code[block + 1]?
      let third ← program.code[block + 2]?
      let fourth ← program.code[block + 3]?
      match Opcode.decode? first, Opcode.decode? third with
      | some .fail, _ => some ([block], [])
      | some .nop, some .branchAbsolute => some ([block], [fourth.toNat])
      | some .choicePoint, some .branchAbsolute => do
          let (blocks, clauses) ← program.follow steps second.toNat
          return (block :: blocks, fourth.toNat :: clauses)
      | _, _ => none

theorem follow_undefined {program : Program} {block : Nat}
    (stands : program.HasWords block dispatchUndefined) (steps : Nat) :
    program.follow (steps + 1) block = some ([block], []) := by
  have first := stands 0 _ rfl
  have second := stands 1 _ rfl
  have third := stands 2 _ rfl
  have fourth := stands 3 _ rfl
  rw [Nat.add_zero] at first
  simp only [follow, first, second, third, fourth, Option.bind_eq_bind,
    Option.bind_some, Opcode.decode?_encode]

theorem toNat_toUInt32 {number : Nat} (small : number < 2 ^ 32) :
    number.toUInt32.toNat = number := by
  simp only [Nat.toUInt32, UInt32.toNat_ofNat']
  omega

theorem follow_last {program : Program} {block clause : Nat}
    (stands : program.HasWords block (dispatchLast clause))
    (small : clause < 2 ^ 32) (steps : Nat) :
    program.follow (steps + 1) block = some ([block], [clause]) := by
  have first := stands 0 _ rfl
  have second := stands 1 _ rfl
  have third := stands 2 _ rfl
  have fourth := stands 3 _ rfl
  rw [Nat.add_zero] at first
  simp only [follow, first, second, third, fourth, Option.bind_eq_bind,
    Option.bind_some, Opcode.decode?_encode, toNat_toUInt32 small]

theorem follow_other {program : Program} {block next clause : Nat}
    (stands : program.HasWords block (dispatchOther next clause))
    (smallNext : next < 2 ^ 32) (small : clause < 2 ^ 32) (steps : Nat) :
    program.follow (steps + 1) block =
      (program.follow steps next).map fun (blocks, clauses) =>
        (block :: blocks, clause :: clauses) := by
  have first := stands 0 _ rfl
  have second := stands 1 _ rfl
  have third := stands 2 _ rfl
  have fourth := stands 3 _ rfl
  rw [Nat.add_zero] at first
  simp only [follow, first, second, third, fourth, Option.bind_eq_bind,
    Option.bind_some, Opcode.decode?_encode, toNat_toUInt32 small,
    toNat_toUInt32 smallNext]
  cases program.follow steps next <;> rfl

/-- Following a chain meets its pieces and leads to its clauses, given a step for
every piece. -/
theorem Dispatches.follow_eq {program : Program} {blocks : List Nat}
    {clauses : List Clause} (dispatches : program.Dispatches blocks clauses)
    (smallBlocks : ∀ block ∈ blocks, block < 2 ^ 32)
    (smallClauses : ∀ clause ∈ clauses, clause.address < 2 ^ 32)
    (steps : Nat) :
    program.follow steps (blocks.headD 0) =
      if blocks.length ≤ steps then
        some (blocks, clauses.map Clause.address)
      else none := by
  induction blocks generalizing clauses steps with
  | nil => cases dispatches
  | cons block rest ih =>
      cases steps with
      | zero => rfl
      | succ steps =>
          cases rest with
          | nil =>
              match clauses, dispatches with
              | [], stands =>
                  simpa using follow_undefined stands steps
              | [only], stands =>
                  have small := smallClauses only List.mem_cons_self
                  simpa using follow_last stands small steps
          | cons next blocks =>
              cases clauses with
              | nil => cases dispatches
              | cons clause clauses =>
                  have later := ih dispatches.2
                    (fun other member =>
                      smallBlocks other (List.mem_cons_of_mem _ member))
                    (fun other member =>
                      smallClauses other (List.mem_cons_of_mem _ member))
                    steps
                  rw [List.headD_cons] at later ⊢
                  rw [follow_other dispatches.1 (smallBlocks next (by simp))
                    (smallClauses clause List.mem_cons_self), later]
                  by_cases enough : (next :: blocks).length ≤ steps
                  · rw [if_pos enough,
                      if_pos (by simpa using Nat.succ_le_succ enough)]
                    rfl
                  · rw [if_neg enough,
                      if_neg (by simp only [List.length_cons] at *; omega)]
                    rfl

/-- The code of a clause is never empty. -/
theorem Source.words_ne_nil {program : Program} {functor : Functor}
    {words : List UInt32} (source : program.Source functor words) :
    words ≠ [] := by
  have clause {assembler : Assembler} {arity : Nat}
      (assembled : assembler.clause arity = .ok words) : words ≠ [] := by
    unfold Assembler.clause at assembled
    cases finished : assembler.finish with
    | error fault =>
        rw [finished] at assembled
        cases assembled
    | ok body =>
        rw [finished] at assembled
        cases assembled
        simp
  cases source with
  | rule rule trace head compiled =>
      obtain ⟨before, after, -, result, -⟩ := compiled
      have planned := ProgramM.compile_advances rule trace before
      rw [result] at planned
      have code := planned.2 after.naming after.names_naming
      unfold Rule.code at code
      cases drafted : rule.draft trace after.naming with
      | error fault =>
          rw [drafted] at code
          cases code
      | ok draft =>
          rw [drafted] at code
          exact clause code
  | native index builtin known found code => exact clause code
  | foreign index key found code => exact clause code
  | assembled known =>
      simp only [Library.assembled, List.mem_cons, Definition.assembled.injEq,
        List.not_mem_nil, or_false] at known
      have repeats : Library.repeatCode ≠ .ok [] := by
        have length : Library.repeatCode.map List.length = .ok 3 := by rfl
        intro empty
        rw [empty] at length
        cases length
      rcases known with ⟨-, code⟩ | ⟨-, code⟩ | ⟨-, code⟩ | ⟨-, code⟩ |
        ⟨-, code⟩ | ⟨-, code⟩ | ⟨-, code⟩ | ⟨-, code⟩ | ⟨-, code⟩
      case inr.inr.inr.inl =>
        intro empty
        rw [empty] at code
        exact repeats code.symm
      all_goals exact clause code.symm

end Program

/-! ## Sessions that keep their predicates apart -/

namespace SessionM

@[simp]
theorem ends_onMachine {action : MachineM α} {session : Session}
    {regular : α → Session → Prop} {faulty : Fault → Session → Prop} :
    Ends (onMachine action session) regular faulty ↔
      Ends (action session.machine)
        (fun value machine => regular value { session with machine })
        (fun fault machine => faulty fault { session with machine }) := by
  obtain ⟨machine, scratch, trace, current⟩ := session
  simp only [onMachine]
  cases action machine <;> rfl

end SessionM

namespace Session

/-- The program is linked, and the code of the last query belongs to no
predicate. -/
structure Sound (session : Session) (linkage : Linkage) : Prop where
  linked : session.machine.program.Linked linkage
  scratch : ∀ start stop, session.scratch = some (start, stop) →
    1 ≤ start ∧ start ≤ stop ∧ stop ≤ session.machine.program.top ∧
      ∀ index, start ≤ index → index < stop → linkage.owner index = none

/-- The session has all chains that there were before, and no new clauses. -/
structure Carries (program : Program) (linkage : Linkage) (session : Session)
    (later : Linkage) : Prop extends session.Sound later where
  keeps : program.Keeps session.machine.program
  chains : ∀ functor chain, linkage.chains functor = some chain →
    later.chains functor = some chain
  clauses : ∀ functor, later.clauses functor = linkage.clauses functor

/-- No predicate has gained or lost a clause. -/
def Carried (program : Program) (linkage : Linkage) (session : Session) :
    Prop :=
  ∃ later, Carries program linkage session later

theorem Sound.carries {session : Session} {linkage : Linkage}
    (sound : session.Sound linkage) :
    Carries session.machine.program linkage session linkage :=
  ⟨sound, .refl _, fun _ _ found => found, fun _ => rfl⟩

/-- A clause that is gained leaves the code of the query alone. -/
theorem Sound.gains {session : Session} {linkage later : Linkage}
    (sound : session.Sound linkage) {functor : Functor} {clause : Clause}
    {program : Program}
    (gains : session.machine.program.Gains linkage functor clause program
      later) :
    Sound { session with machine.program := program } later := by
  refine ⟨gains.linked, fun start stop isScratch => ?_⟩
  obtain ⟨positive, order, below, free⟩ := sound.scratch start stop isScratch
  refine ⟨positive, order, Nat.le_trans below gains.top, ?_⟩
  intro index low high
  exact gains.free index (Nat.lt_of_lt_of_le high below) (free index low high)

theorem Carried.advance {program : Program} {linkage : Linkage}
    {session : Session} (carried : Carried program linkage session)
    {machine : Machine}
    (advances : session.machine.program.Advances machine.program) :
    Carried program linkage { session with machine } := by
  obtain ⟨middle, carries⟩ := carried
  obtain ⟨later, linked, extended⟩ := advances.linked middle carries.linked
  refine ⟨later, ⟨linked, ?_⟩, carries.keeps.trans advances.grows.toKeeps,
    ?_, ?_⟩
  · intro start stop isScratch
    obtain ⟨positive, order, below, free⟩ :=
      carries.scratch start stop isScratch
    refine ⟨positive, order, Nat.le_trans below advances.grows.top, ?_⟩
    intro index low high
    rw [extended.owner index (Nat.lt_of_lt_of_le high below)]
    exact free index low high
  · intro functor chain found
    exact extended.chains functor chain (carries.chains functor chain found)
  · intro functor
    rw [extended.clauses_eq functor, carries.clauses functor]

end Session

namespace Program

/-- Code that belongs to nobody can be given back. -/
theorem Linked.released {program : Program} {linkage : Linkage}
    (linked : program.Linked linkage) {start : Nat} (positive : 1 ≤ start)
    (below : start ≤ program.top)
    (free : ∀ index, start ≤ index → index < program.top →
      linkage.owner index = none) :
    Program.Linked { program with top := start } linkage where
  unknown := linked.unknown
  known := linked.known
  dispatches := fun functor chain found =>
    (linked.dispatches functor chain found).congr fun _ _ _ _ => rfl
  clauses := by
    intro functor chain found clause member
    obtain ⟨stands, source⟩ := linked.clauses functor chain found clause member
    exact ⟨stands.congr fun _ _ => rfl,
      source.mono ⟨fun _ _ same => same, fun _ _ same => same,
        fun _ _ same => ⟨_, same, rfl⟩, fun _ _ same => same, Nat.le_refl _,
        rfl⟩⟩
  owns := linked.owns
  owned := by
    intro index piece found
    have inside := linked.owned index piece found
    refine ⟨inside.1, ?_⟩
    apply Classical.byContradiction
    intro high
    rw [free index (Nat.not_lt.mp high) inside.2] at found
    cases found
  top := ⟨positive, Nat.le_trans below linked.top.2⟩
  halt := linked.halt
  consistent := linked.consistent

end Program

namespace SessionM

open Session

section Carry

variable {program : Program} {linkage : Linkage}

theorem onMachine_carries {action : MachineM α}
    (advances : ∀ first, Keeps (MachineM.Advanced first) action) :
    Keeps (Carried program linkage) (onMachine action) := by
  intro session carried
  rw [ends_onMachine]
  refine (advances session.machine.program session.machine (.refl _)).imp ?_ ?_
  · exact fun _ machine advanced => carried.advance advanced
  · exact fun _ machine advanced => carried.advance advanced

theorem report_carries (event : Event) :
    Keeps (Carried program linkage) (onProgram (ProgramM.report event)) :=
  onMachine_carries fun _ => MachineM.report_advances event

theorem compile_carries (rule : Rule) (trace : Bool) :
    Keeps (Carried program linkage)
      (onProgram (ProgramM.compile rule trace)) := by
  apply onMachine_carries
  intro first machine advanced
  rw [MachineM.ends_onProgram]
  refine (ProgramM.compile_advances rule trace machine.program).imp ?_ ?_
  · exact fun _ _ compiled => advanced.trans compiled.1.toAdvances
  · exact fun _ _ compiled => advanced.trans compiled.1.toAdvances

theorem attempt_carries {action : MachineM Status}
    (advances : ∀ first, Keeps (MachineM.Advanced first) action) :
    Keeps (Carried program linkage) (attempt action) := by
  refine Keeps.bind (onMachine_carries advances) fun status => ?_
  refine Keeps.bind (Keeps.modifying ?_) fun _ => Keeps.pure _
  rintro session ⟨later, carries⟩
  exact ⟨later, ⟨carries.linked, carries.scratch⟩, carries.keeps,
    carries.chains, carries.clauses⟩

/-- Giving back the code of the last query. -/
theorem releaseScratch_carries :
    Keeps (Carried program linkage) releaseScratch := by
  rintro session ⟨later, carries⟩
  unfold releaseScratch
  rw [ends_bind, ends_get]
  cases isScratch : session.scratch with
  | none => exact ⟨later, carries⟩
  | some range =>
      obtain ⟨start, stop⟩ := range
      obtain ⟨positive, order, below, free⟩ :=
        carries.scratch start stop isScratch
      simp only [ends_bind, ends_modify, ends_discard, onProgram,
        ends_onMachine, MachineM.ends_onProgram, ProgramM.release, ends_get]
      split
      case isTrue isLast =>
        rw [ends_bind, ends_modify, ends_pure]
        refine ⟨later, ⟨?_, by simp⟩, ?_, carries.chains, carries.clauses⟩
        · exact carries.linked.released positive (isLast.1 ▸ order)
            (isLast.1 ▸ free)
        · exact carries.keeps.trans
            ⟨fun _ _ same => same, fun _ _ same => same,
              fun _ _ same => ⟨_, same, rfl⟩, fun _ _ same => same,
              Nat.le_refl _, rfl⟩
      case isFalse =>
        exact ⟨later, ⟨carries.linked, by simp⟩, carries.keeps, carries.chains,
          carries.clauses⟩

/-- Putting the code of a query in its place. -/
theorem placeQuery_carries (words : List UInt32) (rule : Rule) :
    Keeps (Carried program linkage) (do
      let entry ← onProgram (ProgramM.append words)
      let top := (← get).machine.program.top
      modify fun session => { session with scratch := some (entry, top) }
      onProgram (ProgramM.report (.queryCompiled rule entry))
      return entry) := by
  rintro session ⟨later, carries⟩
  rw [ends_bind]
  simp only [onProgram, ends_onMachine, MachineM.ends_onProgram]
  refine ProgramM.ends_append (fun fits => ?_) ⟨later, carries⟩
  rw [ends_bind, ends_get, ends_bind, ends_modify, ends_bind]
  have grows := Program.extended_grows fits
  refine (@report_carries program linkage _ _
    ⟨later, ⟨carries.linked.extended fits, ?_⟩,
      carries.keeps.trans grows.toKeeps, carries.chains,
      carries.clauses⟩).imp (fun _ _ kept => kept) (fun _ _ kept => kept)
  intro start stop isScratch
  cases isScratch
  refine ⟨carries.linked.top.1, grows.top, Nat.le_refl _, ?_⟩
  intro index low _
  exact carries.linked.owner_of_top_le low

theorem query_carries (steps : Nat) (goals : List Goal) :
    Keeps (Carried program linkage) (query steps goals) := by
  refine Keeps.bind (Keeps.modifying ?_) fun _ => ?_
  · intro session ⟨later, carries⟩
    exact ⟨later, ⟨carries.linked, carries.scratch⟩, carries.keeps,
      carries.chains, carries.clauses⟩
  refine Keeps.bind ?_ fun entry => ?_
  · refine Keeps.bind releaseScratch_carries fun _ => ?_
    exact Keeps.bind (compile_carries _ false) fun words =>
      placeQuery_carries words _
  refine Keeps.bind (onMachine_carries fun _ =>
    MachineM.start_advances _ _) fun _ => ?_
  exact attempt_carries fun _ => MachineM.run_advances steps

theorem resume_carries (steps : Nat) :
    Keeps (Carried program linkage) (resume steps) := by
  refine Keeps.bind Keeps.get fun session => ?_
  split
  · exact attempt_carries fun _ => MachineM.resume_advances steps
  · exact attempt_carries fun _ => Keeps.pure _

theorem serve_carries (steps : Nat) {act : MachineM Bool}
    (consults : MachineM.Consults act) :
    Keeps (Carried program linkage) (serve steps act) :=
  attempt_carries fun first => (consults.advances first).bind fun success =>
    MachineM.answer_advances steps success

end Carry

end SessionM

/-! ## Accounts -/

namespace SessionM

/-- An addition to a session. -/
theorem addition_links {addition : Addition} {action : ProgramM Unit}
    (links : addition.LinkedBy action) {session : Session} {linkage : Linkage}
    (sound : session.Sound linkage) :
    Ends (onProgram action session)
      (fun _ after => ∃ clause later,
        addition.clause? session.machine.program = some clause ∧
          session.machine.program.Gains linkage addition.functor clause
            after.machine.program later ∧ after.Sound later)
      (fun _ after =>
        Session.Carried session.machine.program linkage after) := by
  simp only [onProgram, ends_onMachine, MachineM.ends_onProgram]
  refine (links _ linkage sound.linked).imp ?_ ?_
  · rintro _ program ⟨clause, later, made, gains⟩
    exact ⟨clause, later, made, gains, sound.gains gains⟩
  · intro _ program advances
    exact Session.Carried.advance ⟨linkage, sound.carries⟩ advances

/-- An addition to a session, with the code that was prepared for it. -/
theorem addition_prepares {addition : Addition} {action : ProgramM Unit}
    (prepares : addition.PreparedBy action) {session : Session}
    {linkage : Linkage} (sound : session.Sound linkage) :
    Ends (onProgram action session)
      (fun _ after => ∃ words prepared later,
        addition.code session.machine.program = .ok words prepared ∧
          prepared.Keeps after.machine.program ∧
          session.machine.program.Gains linkage addition.functor
            ⟨prepared.top, words⟩ after.machine.program later ∧
          after.Sound later)
      (fun _ after =>
        Session.Carried session.machine.program linkage after) := by
  simp only [onProgram, ends_onMachine, MachineM.ends_onProgram]
  refine (prepares _ linkage sound.linked).imp ?_ ?_
  · rintro _ program ⟨words, prepared, made, keeps, later, gains⟩
    exact ⟨words, prepared, later, made, keeps, gains,
      sound.gains gains⟩
  · intro _ program advances
    exact Session.Carried.advance ⟨linkage, sound.carries⟩ advances

end SessionM

namespace Request

/-- A request that is no addition adds nothing, and neither does one that
fails. -/
theorem perform_links (request : Request) {session : Session}
    {linkage : Linkage} (sound : session.Sound linkage) :
    Ends (request.perform session)
      (fun _ after =>
        match request.addition? session.trace with
        | some addition => ∃ clause later,
            addition.clause? session.machine.program = some clause ∧
              session.machine.program.Gains linkage addition.functor clause
                after.machine.program later ∧ after.Sound later
        | none => Session.Carried session.machine.program linkage after)
      (fun _ after =>
        Session.Carried session.machine.program linkage after) := by
  have carried := Exists.intro linkage sound.carries
  cases request with
  | addRule rule =>
      simp only [perform, SessionM.addRule, ends_bind, ends_get]
      exact SessionM.addition_links
        (ProgramM.addRule_links rule session.trace) sound
  | defineForeign functor key =>
      exact SessionM.addition_links
        (ProgramM.defineNative_links functor (.foreign key) (by simp)) sound
  | query steps goals =>
      rw [perform, ends_discard]
      exact SessionM.query_carries steps goals session carried
  | resume steps =>
      rw [perform, ends_discard]
      exact SessionM.resume_carries steps session carried
  | serve steps foreign =>
      rw [perform, ends_discard]
      exact SessionM.serve_carries steps foreign.consults session carried

end Request

namespace Account

/-- The log says which clauses the predicates of the session have. -/
structure Sound (account : Account) (linkage : Linkage) : Prop
    extends account.session.Sound linkage where
  log : ∀ functor, account.log functor = linkage.clauses functor

/-- A request leads from a sound account to a sound account, and predicates keep
their entries. -/
theorem Sound.after {account : Account} {linkage : Linkage}
    (sound : account.Sound linkage) (request : Request) :
    ∃ later, (account.after request).Sound later ∧
      account.program.Keeps (account.after request).program := by
  have performed := request.perform_links sound.toSound
  unfold Account.after
  cases result : request.perform account.session with
  | error fault session =>
      rw [result] at performed
      obtain ⟨later, carries⟩ := performed
      refine ⟨later, ⟨carries.toSound, ?_⟩, carries.keeps⟩
      intro functor
      rw [carries.clauses functor]
      exact sound.log functor
  | ok value session =>
      rw [result, ends_ok] at performed
      cases added : request.addition? account.session.trace with
      | none =>
          rw [added] at performed
          obtain ⟨later, carries⟩ := performed
          refine ⟨later, ⟨carries.toSound, ?_⟩, carries.keeps⟩
          intro functor
          rw [carries.clauses functor]
          exact sound.log functor
      | some addition =>
          rw [added] at performed
          obtain ⟨clause, later, made, gains, soundLater⟩ := performed
          refine ⟨later, ⟨soundLater, ?_⟩, gains.keeps⟩
          intro functor
          have clauses := gains.clauses functor
          simp only [ClauseLog.note, Account.program, made, Option.toList]
          rw [clauses]
          split
          case isTrue same => rw [sound.log functor, same]
          case isFalse => exact sound.log functor

theorem Sound.afterAll {account : Account} {linkage : Linkage}
    (sound : account.Sound linkage) (requests : List Request) :
    ∃ later, (account.afterAll requests).Sound later := by
  induction requests generalizing account linkage with
  | nil => exact ⟨linkage, sound⟩
  | cons request rest ih =>
      obtain ⟨middle, soundMiddle, -⟩ := sound.after request
      exact ih soundMiddle

/-- Installing a part of the library. -/
theorem install_sound {definitions : List Definition}
    (known : ∀ definition ∈ definitions, definition ∈ Library.definitions)
    {program : Program} {linkage : Linkage} {log : ClauseLog}
    (linked : program.Linked linkage)
    (logged : ∀ functor, log functor = linkage.clauses functor) :
    Ends (definitions.forM ProgramM.install program)
      (fun _ after => ∃ later, after.Linked later ∧
        ∀ functor, log.install program definitions functor =
          later.clauses functor)
      (fun _ _ => True) := by
  induction definitions generalizing program linkage log with
  | nil => exact ⟨linkage, linked, logged⟩
  | cons definition rest ih =>
      have links := ProgramM.install_links
        (known definition List.mem_cons_self) program linkage linked
      show Ends ((ProgramM.install definition >>= fun _ =>
        rest.forM ProgramM.install) program) _ _
      rw [ends_bind]
      cases result : ProgramM.install definition program with
      | error fault middle => trivial
      | ok value middle =>
          rw [result] at links
          obtain ⟨clause, later, made, gains⟩ := links
          simp only [ClauseLog.install, result]
          refine ih (fun other member =>
            known other (List.mem_cons_of_mem _ member)) gains.linked ?_
          intro functor
          rw [gains.clauses functor]
          simp only [ClauseLog.note, made, Option.toList]
          split
          case isTrue same => rw [logged functor, same]
          case isFalse => exact logged functor

theorem create_sound {config : Config} {journal : Journal} {account : Account}
    (created : create config journal = .ok account) :
    ∃ linkage, account.Sound linkage := by
  have installed : Ends (ProgramM.installLibrary
      (Program.empty config.codeSize journal))
      (fun _ after => ∃ later, after.Linked later ∧ ∀ functor,
        ClauseLog.empty.install (.empty config.codeSize journal)
          Library.definitions functor = later.clauses functor)
      (fun _ _ => True) := by
    unfold ProgramM.installLibrary
    rw [ends_bind]
    refine (install_sound (fun _ member => member)
      (Program.empty_linked _ journal) (fun _ => rfl)).imp ?_
      (fun _ _ _ => trivial)
    intro _ after ⟨later, linked, logged⟩
    exact ⟨later, linked.withJournal _, logged⟩
  unfold create Session.create MachineM.onProgram at created
  cases result : ProgramM.installLibrary
      (Program.empty config.codeSize journal) with
  | error fault program =>
      simp only [Machine.empty, result] at created
      cases created
  | ok value program =>
      simp only [Machine.empty, result] at created
      cases created
      rw [result] at installed
      obtain ⟨later, linked, logged⟩ := installed
      exact ⟨later, ⟨⟨linked, nofun⟩, logged⟩⟩

/-- A session can be created if its code segment has room for the library. -/
theorem exists_create {config : Config} (journal : Journal)
    (room : ProgramM.libraryBulk ≤ config.codeSize) :
    ∃ account, create config journal = .ok account ∧
      account.program.code.size = max config.codeSize dispatchSize := by
  have installed := ProgramM.installLibrary_ends journal room
  unfold create Session.create MachineM.onProgram
  cases result : ProgramM.installLibrary
      (Program.empty config.codeSize journal) with
  | error fault program =>
      rw [result] at installed
      cases installed
  | ok value program =>
      rw [result] at installed
      simp only [Machine.empty, result]
      exact ⟨_, rfl, installed⟩

theorem Sound.keeps_afterAll {account : Account} {linkage : Linkage}
    (sound : account.Sound linkage) (requests : List Request) :
    account.program.Keeps (account.afterAll requests).program := by
  induction requests generalizing account linkage with
  | nil => exact .refl _
  | cons request rest ih =>
      obtain ⟨middle, soundMiddle, keeps⟩ := sound.after request
      exact keeps.trans (ih soundMiddle)

/-- The code segment of a session never grows. -/
theorem Sound.top_le_afterAll {account : Account} {linkage : Linkage}
    (sound : account.Sound linkage) (requests : List Request) :
    (account.afterAll requests).program.top ≤ account.program.code.size := by
  obtain ⟨later, soundAfter⟩ := sound.afterAll requests
  exact Nat.le_trans soundAfter.linked.top.2
    (Nat.le_of_eq (sound.keeps_afterAll requests).capacity)

/-! ## Where dispatch code leads -/

/-- The code words that the pieces of the predicates take up. -/
inductive Occupies (account : Account) : Piece → Nat → Prop where
  | dispatch {functor : Functor} {predicate : Predicate} {steps : Nat}
      {blocks addresses : List Nat} {index block offset : Nat}
      (known : account.program.predicate? functor = some predicate)
      (followed : account.program.follow steps predicate.entry =
        some (blocks, addresses))
      (met : blocks[index]? = some block) (inside : offset < dispatchSize) :
      account.Occupies (.dispatch functor index) (block + offset)
  | clause {functor : Functor} {index offset : Nat} {clause : Clause}
      (added : (account.log functor)[index]? = some clause)
      (inside : offset < clause.words.length) :
      account.Occupies (.clause functor index) (clause.address + offset)

/-- Dispatch code leads to the clauses that have been added, and all pieces of
code are whole. -/
structure Dispatched (account : Account) : Prop where
  /-- Following the dispatch code of a predicate comes to an end, and leads to
  the clauses that were added to it, in their order. -/
  visits : ∀ functor predicate,
    account.program.predicate? functor = some predicate →
      ∃ steps blocks, account.program.follow steps predicate.entry =
        some (blocks, (account.log functor).map Clause.address)
  /-- Only known predicates have clauses. -/
  unknown : ∀ functor, account.program.predicate? functor = none →
    account.log functor = []
  /-- The code of a clause is what it was when the clause was added. -/
  unaltered : ∀ functor, ∀ clause ∈ account.log functor,
    account.program.HasWords clause.address clause.words
  /-- All pieces lie in the code in use. -/
  below : ∀ piece index, account.Occupies piece index →
    index < account.program.top
  /-- No word belongs to two pieces. -/
  apart : ∀ index piece other, account.Occupies piece index →
    account.Occupies other index → piece = other

namespace Sound

variable {account : Account} {linkage : Linkage}

/-- The chain of a predicate, and following it in any program that has its
pieces. -/
theorem follow_chain (sound : account.Sound linkage)
    (small : account.program.top ≤ 2 ^ 32) {functor : Functor}
    {predicate : Predicate}
    (known : account.program.predicate? functor = some predicate) :
    ∃ chain, linkage.chains functor = some chain ∧
      ∀ program : Program, program.Dispatches chain.blocks chain.clauses →
        ∀ steps, program.follow steps predicate.entry =
          if chain.blocks.length ≤ steps then
            some (chain.blocks, (account.log functor).map Clause.address)
          else none := by
  obtain ⟨chain, found, matching⟩ := sound.linked.known functor predicate known
  refine ⟨chain, found, ?_⟩
  intro program dispatches steps
  have logged : account.log functor = chain.clauses := by
    rw [sound.log functor]
    simp only [Linkage.clauses, found, Option.elim]
  rw [← matching.entry_eq, logged]
  apply dispatches.follow_eq
  · intro block member
    have inside := sound.linked.block_lt found member
    simp only [dispatchSize] at inside
    have limit : account.session.machine.program.top ≤ 2 ^ 32 := small
    omega
  · intro clause member
    obtain ⟨-, source⟩ := sound.linked.clauses functor chain found clause member
    have inside := sound.linked.clause_le found member source.words_ne_nil
    have positive := List.length_pos_iff.mpr source.words_ne_nil
    have limit : account.session.machine.program.top ≤ 2 ^ 32 := small
    omega

/-- What a piece takes up belongs to it. -/
theorem owner_of_occupies (sound : account.Sound linkage)
    (small : account.program.top ≤ 2 ^ 32) {piece : Piece} {index : Nat}
    (occupies : account.Occupies piece index) :
    linkage.owner index = some piece := by
  cases occupies with
  | dispatch known followed met inside =>
      obtain ⟨chain, found, follows⟩ := sound.follow_chain small known
      rw [follows account.program
        (sound.linked.dispatches _ chain found)] at followed
      split at followed
      · cases followed
        exact (sound.linked.owns _ chain found).blocks _ _ met _ inside
      · cases followed
  | clause added inside =>
      rename_i functor place offset clause
      rw [sound.log functor] at added
      unfold Linkage.clauses at added
      cases found : linkage.chains functor with
      | none =>
          rw [found] at added
          cases added
      | some chain =>
          rw [found] at added
          exact (sound.linked.owns functor chain found).clauses _ _ added _
            inside

theorem dispatched (sound : account.Sound linkage)
    (small : account.program.top ≤ 2 ^ 32) : account.Dispatched where
  visits := by
    intro functor predicate known
    obtain ⟨chain, found, follows⟩ := sound.follow_chain small known
    refine ⟨chain.blocks.length, chain.blocks, ?_⟩
    rw [follows account.program
      (sound.linked.dispatches functor chain found), if_pos (Nat.le_refl _)]
  unknown := by
    intro functor missing
    rw [sound.log functor]
    simp only [Linkage.clauses, sound.linked.unknown functor missing,
      Option.elim]
  unaltered := by
    intro functor clause member
    rw [sound.log functor] at member
    unfold Linkage.clauses at member
    cases found : linkage.chains functor with
    | none =>
        rw [found] at member
        cases member
    | some chain =>
        rw [found] at member
        exact (sound.linked.clauses functor chain found clause member).1
  below := fun _ _ occupies =>
    (sound.linked.owned _ _ (sound.owner_of_occupies small occupies)).2
  apart := by
    intro index piece other first second
    have one := sound.owner_of_occupies small first
    have two := sound.owner_of_occupies small second
    rw [one] at two
    exact Option.some.inj two

/-- A request that fails leaves every chain as it was. -/
theorem follow_of_error (sound : account.Sound linkage)
    (small : account.program.top ≤ 2 ^ 32) {request : Request} {fault : Fault}
    {session : Session}
    (failed : request.perform account.session = .error fault session)
    {functor : Functor} {predicate : Predicate}
    (known : account.program.predicate? functor = some predicate)
    (steps : Nat) :
    session.machine.program.follow steps predicate.entry =
      account.program.follow steps predicate.entry := by
  have performed := request.perform_links sound.toSound
  rw [failed] at performed
  obtain ⟨later, carries⟩ := performed
  obtain ⟨chain, found, follows⟩ := sound.follow_chain small known
  rw [follows account.program (sound.linked.dispatches functor chain found),
    follows _ (carries.linked.dispatches functor chain
      (carries.chains functor chain found))]

end Sound

/-- Whatever a session has been asked for, the dispatch code of every predicate
leads to the clauses that were added to it.  Predicates keep their entries, and
a request that fails changes no chain.  Code addresses have 32 bits. -/
theorem dispatched_afterAll {config : Config} {journal : Journal}
    {account : Account} (created : create config journal = .ok account)
    (requests : List Request)
    (small : (account.afterAll requests).program.top ≤ 2 ^ 32) :
    (account.afterAll requests).Dispatched ∧
      (∀ functor predicate,
        (account.afterAll requests).program.predicate? functor =
            some predicate →
          (∀ more, ∃ later,
            ((account.afterAll requests).afterAll more).program.predicate?
                functor = some later ∧
              later.entry = predicate.entry) ∧
          ∀ (request : Request) fault session,
            request.perform (account.afterAll requests).session =
                .error fault session →
              ∀ steps,
                session.machine.program.follow steps predicate.entry =
                  (account.afterAll requests).program.follow steps
                    predicate.entry) := by
  obtain ⟨first, soundFirst⟩ := create_sound created
  obtain ⟨linkage, sound⟩ := soundFirst.afterAll requests
  refine ⟨sound.dispatched small, fun functor predicate known => ⟨?_, ?_⟩⟩
  · intro more
    exact (sound.keeps_afterAll more).entries functor predicate known
  · intro request fault session failed steps
    exact sound.follow_of_error small failed known steps

/-- A predicate is called before it has clauses, and one of its clauses is
refused.  The embedding program greets, calls a predicate that is not known, and
ends in a fault. -/
def forwardRequests : List Request :=
  [.addRule (.fact ⟨"p", [.atom "a"]⟩),
    .query 100 [⟨"p", [.var "X"]⟩, ⟨"q", [.var "X"]⟩],
    .addRule (.fact ⟨"q", [.compound Term.listFunctor [.var "X"]]⟩),
    .resume 100, .addRule (.fact ⟨"p", [.atom "b"]⟩),
    .defineForeign ⟨"greeting", 1⟩ 0,
    .query 100 [⟨"greeting", [.var "X"]⟩], .serve 100 (.greet "hello"),
    .query 100 [⟨"greeting", [.var "X"]⟩], .serve 100 (.forward "later"),
    .addRule (.fact ⟨"later", [.atom "a"]⟩),
    .query 100 [⟨"greeting", [.var "X"]⟩],
    .serve 100 (.refuse (.unknownNative 1))]

theorem dispatched_afterAll_forward :
    ∃ account, create .default .silent = .ok account ∧
      (account.afterAll forwardRequests).program.top ≤ 2 ^ 32 ∧
      (account.afterAll forwardRequests).Dispatched := by
  obtain ⟨account, created, size⟩ :=
    exists_create .silent ProgramM.libraryBulk_le
  obtain ⟨first, soundFirst⟩ := create_sound created
  have small : (account.afterAll forwardRequests).program.top ≤ 2 ^ 32 := by
    calc (account.afterAll forwardRequests).program.top
        ≤ account.program.code.size := soundFirst.top_le_afterAll forwardRequests
      _ = max Config.default.codeSize dispatchSize := size
      _ ≤ 2 ^ 32 := by decide
  exact ⟨account, created, small,
    (dispatched_afterAll created forwardRequests small).1⟩

end Account

end LogicMachine
