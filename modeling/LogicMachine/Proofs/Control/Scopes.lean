import LogicMachine.Proofs.Control.Returning
import LogicMachine.Proofs.Control.Stocking
import LogicMachine.Proofs.Session.Computing

/-!
# What calls leave open

A call that returns leaves every choice point open that was open when it was
made, and a cut closes exactly those that were opened since.  In a goal that is
called with a level, the choice points that count are those of the call that found
the level.
-/

namespace LogicMachine

/-! ## Open choice points -/

/-- The record saves a register. -/
def Record.ofRegister (record : Record) : Bool :=
  match record.address with
  | .register _ => true
  | _ => false

namespace Machine

/-- The registers that the open choice points lead back to, newest first. -/
def openPoints (machine : Machine) : List (List Record) :=
  machine.store.trail.frames.map fun frame =>
    frame.records.filter Record.ofRegister

theorem length_openPoints (machine : Machine) :
    machine.openPoints.length = machine.level := by
  rw [openPoints, List.length_map, level, Trail.level_eq]

/-- The machine is at the entry of the predicate. -/
def EntryOf (machine : Machine) (functor : Functor) : Prop :=
  ∃ predicate, machine.program.predicate? functor = some predicate ∧
    machine.registers.instruction = .code predicate.entry.toUInt32.toInt32

/-- The machine is at the entry of the predicate and of no other. -/
def Calls (machine : Machine) (functor : Functor) : Prop :=
  machine.EntryOf functor ∧
    ∀ other, machine.EntryOf other → other = functor

end Machine

/-- The frames of a choice point save the registers that it leads back to. -/
theorem Guards.filter_records {store : Store} {frame : Frame}
    {checkpoint : Checkpoint} (guards : Guards store frame checkpoint) :
    frame.records.filter Record.ofRegister = checkpoint.registerRecords := by
  obtain ⟨changes, shape, present⟩ := guards.records
  have none : changes.filter Record.ofRegister = [] := by
    rw [List.filter_eq_nil_iff]
    rintro ⟨address, saved⟩ member isRegister
    obtain ⟨word, found⟩ := present _ member
    cases address <;> first | cases found | cases isRegister
  rw [shape, List.filter_append, none]
  rfl

theorem Store.Follows.openPoints {machine : Machine}
    {checkpoints : List Checkpoint}
    (follows : machine.store.Follows checkpoints []) :
    machine.openPoints = checkpoints.map Checkpoint.registerRecords := by
  obtain ⟨history, frames, rfl, remembers⟩ := follows.remembers
  rw [Machine.openPoints, frames, List.append_nil, List.map_map, List.map_map]
  exact List.map_congr_left fun entry member =>
    (remembers.guards entry member).filter_records

namespace Traced

/-- The level of the innermost call can be told from a word. -/
def Shallow (traced : Traced) : Prop :=
  ∀ callee ∈ traced.calls.head?, callee.level < 2 ^ 31

instance : DecidablePred Shallow := fun traced =>
  inferInstanceAs (Decidable (∀ callee ∈ traced.calls.head?, _))

/-- If the predicate of the innermost call takes a level, then it was called by a
predicate that hands one on, and not by the query. -/
def Discreet (traced : Traced) : Prop :=
  ∀ callee caller rest, traced.calls = callee :: caller :: rest →
    ∀ functor, callee.Calls functor → functor.takesLevel = true →
      rest ≠ [] ∧ ∃ outer, caller.Calls outer ∧ outer.passesLevel = true

/-- The innermost calls are given a level, and the one outside of them has found
it. -/
structure Scope (traced : Traced) (inner : List Machine) (outer : Machine)
    (rest : List Machine) : Prop where
  calls : traced.calls = inner ++ outer :: rest
  given : ∀ call ∈ inner, ∃ functor, call.Calls functor ∧
    functor.takesLevel = true
  found : inner ≠ [] → ∃ functor, outer.Calls functor ∧
    functor.setsLevel = true
  own : rest ≠ [] → ∀ functor, outer.Calls functor →
    functor.takesLevel = false
  bottom : rest = [] → outer.openPoints = []

/-- A call that is not given a level has its own scope. -/
theorem Scope.eq_call {traced : Traced} {inner : List Machine}
    {outer : Machine} {rest : List Machine}
    (scope : traced.Scope inner outer rest) {call : Machine}
    {others : List Machine} (calls : traced.calls = call :: others)
    (plain : ∀ functor, call.Calls functor → functor.takesLevel = false) :
    outer = call := by
  have split := scope.calls
  rw [calls] at split
  cases inner with
  | nil =>
      cases split
      rfl
  | cons first inner =>
      cases split
      obtain ⟨functor, isCall, takes⟩ := scope.given call List.mem_cons_self
      rw [plain functor isCall] at takes
      cases takes

end Traced

/-! ## Calls and their scopes -/

section Calls

variable [Atoms]

namespace Base

variable {base : Base} {outlook : Outlook} {traced : Traced}
  {call caller : Call} {others : List Call}

/-- No two predicates have the same entry. -/
theorem Enters.calls (enters : Enters call) (guarded : base.guarded)
    (within : call.machine.program.Keeps base.horizon) :
    call.machine.Calls call.functor := by
  refine ⟨enters, fun functor entryOf => ?_⟩
  obtain ⟨one, known, here⟩ := entryOf
  obtain ⟨other, knownOther, there⟩ := enters
  obtain ⟨oneLater, knownLater, same⟩ := within.entries _ _ known
  obtain ⟨otherLater, knownOtherLater, sameOther⟩ :=
    within.entries _ _ knownOther
  refine base.apart guarded _ _ _ _ knownLater knownOtherLater ?_
  rw [same, sameOther]
  exact Address.code.inj (here.symm.trans there)

theorem Pending.calls (pending : base.Pending (call :: caller :: others))
    (guarded : base.guarded) : call.machine.Calls call.functor := by
  cases pending with
  | call _ enters _ _ _ _ _ within => exact enters.calls guarded within

theorem Pending.functor_eq (pending : base.Pending (call :: caller :: others))
    (guarded : base.guarded) {functor : Functor}
    (calls : call.machine.Calls functor) : functor = call.functor :=
  (pending.calls guarded).2 functor calls.1

/-- Following the calls that are given a level leads to the one that has found
it. -/
theorem Pending.exists_outer (guarded : base.guarded) {calls : List Call}
    (pending : base.Pending calls) :
    ∀ call others, calls = call :: others →
      ∃ inner outer rest, calls = inner ++ outer :: rest ∧
        (∀ other ∈ inner, other.machine.Calls other.functor ∧
          other.functor.takesLevel = true) ∧
        (inner ≠ [] → outer.machine.Calls outer.functor ∧
          outer.functor.setsLevel = true) ∧
        outer.functor.takesLevel = false ∧ outer.scope = call.scope ∧
        base.Pending (outer :: rest) := by
  induction pending with
  | @query first sound lower continuation isScoped outside bottom =>
      rintro call others ⟨⟩
      refine ⟨[], first, [], rfl, by simp, fun none => absurd rfl none, ?_, rfl,
        .query sound lower continuation isScoped outside bottom⟩
      have outside := outside guarded
      simp only [Functor.knowsLevel, Bool.or_eq_false_iff] at outside
      exact outside.1.2
  | @call first caller others sound enters resumes persists callers isScoped
      hands within ih =>
      rintro call rest ⟨⟩
      have pending : base.Pending (first :: caller :: others) :=
        .call sound enters resumes persists callers isScoped hands within
      cases takes : first.functor.takesLevel with
      | false =>
          exact ⟨[], first, _, rfl, by simp, fun none => absurd rfl none, takes,
            rfl, pending⟩
      | true =>
          obtain ⟨inner, outer, rest, split, given, found, own, scope, last⟩ :=
            ih caller others rfl
          refine ⟨first :: inner, outer, rest, by rw [split]; rfl, ?_, fun _ => ?_,
            own, scope.trans (hands.scope guarded takes).symm, last⟩
          · intro other member
            rcases List.mem_cons.mp member with rfl | old
            · exact ⟨pending.calls guarded, takes⟩
            · exact given other old
          · cases inner with
            | cons => exact found (by simp)
            | nil =>
                cases split
                have passes := hands.passes guarded takes
                have sets : caller.functor.setsLevel = true := by
                  by_contra none
                  have isCall := Functor.eq_of_passesLevel passes
                    (Bool.eq_false_iff.mpr none)
                  rw [isCall] at own
                  exact absurd own (by decide)
                refine ⟨?_, sets⟩
                cases callers with
                | query _ _ _ _ outside =>
                    have outside := outside guarded
                    simp [Functor.knowsLevel, passes] at outside
                | call _ entersCaller _ _ _ _ _ withinCaller =>
                    exact entersCaller.calls guarded withinCaller

theorem Pending.calls_cut (pending : base.Pending (call :: others))
    (guarded : base.guarded) (cuts : call.functor.cutsLevel = true) :
    call.machine.Calls ⟨"$cut", 1⟩ := by
  cases pending with
  | query _ _ _ _ outside =>
      have outside := outside guarded
      simp [Functor.knowsLevel, Functor.takesLevel, cuts] at outside
  | call _ enters _ _ _ _ _ within =>
      exact eq_of_beq cuts ▸ enters.calls guarded within

/-- Whatever cuts back to a level is given one. -/
theorem Pending.target_eq_scope (pending : base.Pending (call :: others))
    (guarded : base.guarded) (calls : call.machine.Calls ⟨"$cut", 1⟩) :
    call.target = call.scope := by
  cases others with
  | nil =>
      cases pending with
      | query _ _ _ isScoped outside =>
          have outside := outside guarded
          simp only [Functor.knowsLevel, Bool.or_eq_false_iff] at outside
          rw [Call.target, isScoped.own guarded outside.1.2, ite_self]
  | cons caller others =>
      rw [Call.target, ← pending.functor_eq guarded calls]
      rfl

/-! ## Guarded runs -/

theorem Leads.tracked {turn : Turn} {after : Machine}
    (leads : base.Leads outlook turn after)
    (known : base.Known outlook traced.machine) (tracks : outlook.Tracks traced)
    (within : after.program.Keeps base.horizon)
    (shallow : (traced.follow turn after).Shallow)
    (discreet : base.reserved ∨ (traced.follow turn after).Discreet) :
    ∃ later, base.Known later (traced.follow turn after).machine ∧
      later.Tracks (traced.follow turn after) := by
  obtain ⟨later, moves, goesOn⟩ := leads
  refine ⟨later, ?_, moves.tracks tracks⟩
  rw [Traced.follow_machine]
  refine goesOn ?_
  rintro rfl guarded call others split
  cases moves with
  | enters made same entered modest =>
      cases split
      subst made
      refine ⟨shallow _ rfl, fun takes caller rest calls => ?_⟩
      rcases discreet with reserved | discreet
      · obtain ⟨other, _, same, passes⟩ := modest reserved takes
        cases calls.symm.trans same
        exact passes
      · have isCalls : traced.calls =
            caller.machine :: rest.map Call.machine := by
          rw [tracks.calls, calls, List.map_cons]
        have split : (traced.follow .enters call.machine).calls =
            call.machine :: caller.machine :: rest.map Call.machine :=
          congrArg (call.machine :: ·) isCalls
        obtain ⟨hasCaller, outer, isCall, passes⟩ := discreet _ _ _ split
          call.functor (entered.calls guarded within) takes
        cases rest with
        | nil => exact absurd rfl hasCaller
        | cons next rest =>
            have pending := known.stands.pending calls
            exact pending.functor_eq guarded isCall ▸ passes

/-- What is known at the start of a guarded run is known all along. -/
theorem Known.through {kind : Traced → Prop} {first : Machine}
    (known : base.Known outlook first) (tracks : outlook.Tracks (.start first))
    (run : Traced.Through kind first traced)
    (shallow : ∀ traced, kind traced → traced.Shallow)
    (discreet : base.reserved ∨ ∀ traced, kind traced → traced.Discreet)
    (within : traced.machine.program.Keeps base.horizon) :
    ∃ later, base.Known later traced.machine ∧ later.Tracks traced := by
  induction run with
  | start => exact ⟨outlook, known, tracks⟩
  | goOn _ next allowed ih =>
      obtain ⟨outlook, known, tracks⟩ := ih (next.keeps.trans within)
      obtain ⟨turn, after, rfl, leads⟩ := known.goesOn next within
      rw [Traced.follow_machine] at within
      exact leads.tracked known tracks within (shallow _ allowed)
        (discreet.imp_right fun each => each _ allowed)

theorem Pending.scope_calls (pending : base.Pending (call :: others))
    (guarded : base.guarded) (calls : traced.calls =
      (call :: others).map Call.machine) :
    ∃ inner, ∃ outer : Call, ∃ rest, traced.Scope inner outer.machine rest ∧
      outer.checkpoints = call.scope ∧
      outer.machine.openPoints =
        outer.checkpoints.map Checkpoint.registerRecords := by
  obtain ⟨inner, outer, rest, split, given, found, own, scope, last⟩ :=
    pending.exists_outer guarded call others rfl
  have openPoints := last.sound.follows.openPoints
  refine ⟨inner.map Call.machine, outer, rest.map Call.machine,
    ⟨?_, ?_, ?_, ?_, ?_⟩, ?_, openPoints⟩
  · rw [calls, split, List.map_append, List.map_cons]
  · intro machine member
    obtain ⟨other, isInner, rfl⟩ := List.mem_map.mp member
    exact ⟨_, given other isInner⟩
  · intro some
    exact ⟨_, found fun none => some (by rw [none, List.map_nil])⟩
  · intro some functor isCall
    cases rest with
    | nil => exact absurd rfl some
    | cons next rest =>
        rw [last.functor_eq guarded isCall]
        exact own
  · intro none
    cases List.map_eq_nil_iff.mp none
    rw [openPoints]
    cases last with
    | query _ _ _ _ _ bottom => rw [bottom, List.map_nil]
  · rw [← scope, last.isScoped.own guarded own]

/-- A step of a guarded run closes those choice points only that it should. -/
theorem Known.scopes (known : base.Known outlook traced.machine)
    (tracks : outlook.Tracks traced) (guarded : base.guarded) {fuel : Nat}
    {turn : Turn} {status : Status} {after : Machine}
    (step : MachineM.stepTurn fuel traced.machine = .ok (turn, status) after)
    (within : after.program.Keeps base.horizon) :
    ∃ call others, traced.calls = call :: others ∧
      (others = [] → call.openPoints = []) ∧
      (turn = .commits → ¬call.Calls ⟨"$cut", 1⟩ →
        after.openPoints = call.openPoints) ∧
      ∃ inner outer rest, traced.Scope inner outer rest ∧
        (turn = .returns → outer.openPoints <:+ after.openPoints) ∧
        (turn = .commits → call.Calls ⟨"$cut", 1⟩ →
          after.openPoints = outer.openPoints) := by
  have goesOn := MachineM.stepTurn_goesOn fuel traced.machine
  have proceeds := known.step fuel
  rw [step] at goesOn proceeds
  have leads := proceeds within
  cases known.stands with
  | finished _ _ instruction =>
      rw [MachineM.stepTurn_finished instruction] at step
      cases step
  | @busy call others calls pending spans heads =>
      have traces : traced.calls = (call :: others).map Call.machine := by
        rw [tracks.calls, calls]
      obtain ⟨inner, outer, rest, scope, same, openPoints⟩ :=
        pending.scope_calls guarded traces
      -- What is left open when the step closes choice points.
      have commits (isCommit : turn = .commits) : after.openPoints =
          call.target.map Checkpoint.registerRecords := by
        subst isCommit
        rw [if_neg (goesOn (by simp))] at leads
        obtain ⟨later, moves, knownLater⟩ := leads
        have follows := (knownLater (by rintro ⟨⟩)).stands.fits.follows
        cases moves with
        | commits _ targeted =>
            rw [follows.openPoints, targeted guarded call others calls]
      refine ⟨call.machine, _, traces, ?_, ?_, inner, outer.machine, rest,
        scope, ?_, ?_⟩
      · intro none
        cases List.map_eq_nil_iff.mp none
        cases pending with
        | query sound _ _ _ _ bottom =>
            rw [sound.follows.openPoints, bottom, List.map_nil]
      · intro isCommit other
        have plain : call.functor.cutsLevel = false := by
          by_contra cuts
          exact other (pending.calls_cut guarded (Bool.not_eq_false _ ▸ cuts))
        rw [commits isCommit, Call.target, plain, if_neg Bool.false_ne_true,
          pending.sound.follows.openPoints]
      · rintro rfl
        rw [if_neg (goesOn (by simp))] at leads
        obtain ⟨later, moves, knownLater⟩ := leads
        have follows := (knownLater (by rintro ⟨⟩)).stands.fits.follows
        cases moves with
        | @returns _ _ _ same' _ _ kept =>
            cases calls.symm.trans same'
            rw [follows.openPoints, openPoints, same]
            exact (kept guarded).map _
      · intro isCommit cuts
        rw [commits isCommit, pending.target_eq_scope guarded cuts, openPoints,
          same]

end Base

end Calls

namespace Traced.Through

/-- Whatever a session has been used for before, a call that returns leaves every
choice point open that was open when it was made, unless it was given a level.  A
cut closes those that have been opened since the call of its clause.  What is
called with a level may close those that have been opened since the level was
found, and a cut that is called as a goal closes exactly these.  Nothing but the
library may call the predicates that take levels, either because no rule and no
query speaks of them, or because it does not come to that in the run. -/
theorem keeps_open_points {admits : Rule → Prop} {kind : Traced → Prop}
    {config : Config} {journal : Journal} {session begun : Session}
    {last : Option Report} {goals : List Goal} {traced : Traced} {fuel : Nat}
    {turn : Turn} {status : Status} {after : Machine}
    (addressable : config.Addressable)
    (sparing : Session.ArisesSparing admits config journal session last)
    (admitted : admits (Rule.ofQuery goals))
    (begins : SessionM.query 0 goals session = .ok .running begun)
    (run : Traced.Through kind begun.machine traced)
    (shallow : ∀ traced, kind traced → traced.Shallow)
    (discreet : (∀ rule, admits rule → rule.Discreet) ∨
      ∀ traced, kind traced → traced.Discreet)
    (step : MachineM.stepTurn fuel traced.machine = .ok (turn, status) after)
    (fits : after.program.Fits) :
    ∃ call others, traced.calls = call :: others ∧
      (others = [] → call.openPoints = []) ∧
      (turn = .returns →
        (∀ functor, call.Calls functor → functor.takesLevel = false) →
          call.openPoints <:+ after.openPoints) ∧
      (turn = .commits → ¬call.Calls ⟨"$cut", 1⟩ →
        after.openPoints = call.openPoints) ∧
      ∃ inner outer rest, traced.Scope inner outer rest ∧
        (turn = .returns → outer.openPoints <:+ after.openPoints) ∧
        (turn = .commits → call.Calls ⟨"$cut", 1⟩ →
          after.openPoints = outer.openPoints) := by
  let atoms := after.program.atoms
  have lists : after.program.Lists := after.program.lists_atoms
  let reserved : Prop := ∀ rule, admits rule → rule.Discreet
  have advances := MachineM.stepTurn_advances fuel traced.machine
    (.refl traced.machine.program)
  rw [step] at advances
  have advancesRun := run.run.advances.trans advances
  have keepsRun := advancesRun.grows.toKeeps
  have stocks : session.Stocked reserved :=
    sparing.stocked fun isReserved rule isAdmitted =>
      (isReserved rule isAdmitted).modest
  obtain ⟨linkage, sound, stocked, written⟩ := stocks
  obtain ⟨later, carries⟩ := Session.since_of_ok begins ▸
    Session.since_of_ends (SessionM.query_carries 0 goals session
      ⟨linkage, sound.carries⟩)
  have settled := sparing.arises.settled fits lists addressable
    (carries.keeps.trans keepsRun)
  obtain ⟨_, linked, -⟩ := advancesRun.linked later carries.linked
  have unspoken (isReserved : reserved) : after.program.Unspoken := by
    have asked := Session.ArisesSparing.unspoken
      (.query sparing admitted begins) isReserved
    have steps := MachineM.stepTurn_upholds fuel traced.machine
      (run.run.upholds asked)
    rw [step] at steps
    exact steps
  have starts : Session.Starts True reserved after.program begun :=
    Session.starts_of_query fits lists sound settled.tidy
      ⟨fun _ => stocked, fun _ => linked.keepsApart fits.code, written, unspoken⟩
      (fun isReserved => (isReserved _ admitted).modest) begins keepsRun
  obtain ⟨base, same, guarded, isReserved, outlook, known, tracks⟩ := starts
  obtain ⟨outlook, known, tracks⟩ := known.through tracks run shallow
    (isReserved ▸ discreet) (same ▸ advances.grows.toKeeps)
  obtain ⟨call, others, calls, bottom, commits, inner, outer, rest, scope,
      returns, cuts⟩ :=
    known.scopes tracks (guarded ▸ trivial) step (same ▸ .refl _)
  refine ⟨call, others, calls, bottom, fun isReturn plain => ?_, commits, inner,
    outer, rest, scope, returns, cuts⟩
  exact scope.eq_call calls plain ▸ returns isReturn

end Traced.Through

/-! ## A cut that is called as a goal -/

/-- A conjunction whose second goal closes the choice point of the first. -/
def Goal.repeatOnce : Goal :=
  ⟨"call", [.compound "," [.atom "repeat", .atom "!"]]⟩

/-- Fewer choice points are open than at the innermost call. -/
def Traced.Closes (traced : Traced) (after : Machine) : Prop :=
  ∃ call ∈ traced.calls.head?, after.level < call.level

instance (traced : Traced) (after : Machine) :
    Decidable (traced.Closes after) :=
  inferInstanceAs (Decidable (∃ call ∈ traced.calls.head?, _))

/-- In a new session the goal leads to a cut, which closes a choice point that was
open when the cut was called, and then to the return from that call. -/
theorem Session.exists_repeatOnce :
    ∃ session begun : Session,
      ArisesSparing Rule.Discreet ⟨8, 32, 0, 1660, false⟩ .silent session none ∧
      SessionM.query 0 [.repeatOnce] session = .ok .running begun ∧
      (∃ traced after,
        Traced.Through Traced.Shallow begun.machine traced ∧
        MachineM.stepTurn 16 traced.machine = .ok (.commits, .running) after ∧
        traced.Closes after ∧ after.program.Fits) ∧
      ∃ traced after,
        Traced.Through Traced.Shallow begun.machine traced ∧
        MachineM.stepTurn 16 traced.machine = .ok (.returns, .running) after ∧
        traced.Closes after := by
  have computes : Computes ⟨8, 32, 0, 1660, false⟩ .silent
      (Access.quick.query 0 [.repeatOnce])
      fun status begun => status = .running ∧
        (begun.Leads Traced.Shallow 291 fun traced outcome after =>
          outcome = (.commits, .running) ∧ traced.Closes after ∧
            after.program.Fits) ∧
        begun.Leads Traced.Shallow 293 fun traced outcome after =>
          outcome = (.returns, .running) ∧ traced.Closes after := by
    decide +kernel
  rw [Access.query_quick] at computes
  obtain ⟨session, _, begun, created, begins, rfl, commits, returns⟩ :=
    computes.exists_session
  obtain ⟨traced, _, after, run, step, rfl, deeper, fits⟩ := commits.exists_run
  obtain ⟨later, _, last, runOn, leaves, rfl, above⟩ := returns.exists_run
  exact ⟨session, begun, .create created, begins,
    ⟨traced, after, run, step, deeper, fits⟩, later, last, runOn, leaves, above⟩

namespace Traced.Through

/-- The call of the cut returns with fewer open choice points than there were when
it was made. -/
theorem returns_below_call_repeatOnce :
    ∃ (session begun : Session) (traced : Traced) (call : Machine)
      (others : List Machine) (after : Machine),
      Session.ArisesSparing Rule.Discreet ⟨8, 32, 0, 1660, false⟩ .silent
        session none ∧
      (Rule.ofQuery [.repeatOnce]).Discreet ∧
      SessionM.query 0 [.repeatOnce] session = .ok .running begun ∧
      Traced.Through Traced.Shallow begun.machine traced ∧
      MachineM.stepTurn 16 traced.machine = .ok (.returns, .running) after ∧
      traced.calls = call :: others ∧ after.level < call.level ∧
      ¬call.openPoints <:+ after.openPoints := by
  obtain ⟨session, begun, sparing, begins, -, traced, after, run, step, call,
    isCall, below⟩ := Session.exists_repeatOnce
  obtain ⟨others, calls⟩ := List.head?_eq_some_iff.mp isCall
  refine ⟨session, begun, traced, call, others, after, sparing,
    by decide +kernel, begins, run, step, calls, below, fun kept => ?_⟩
  have longer := kept.length_le
  rw [Machine.length_openPoints, Machine.length_openPoints] at longer
  omega

/-- The cut leaves what was open when the level for it was found. -/
theorem keeps_open_points_repeatOnce :
    ∃ (session begun : Session) (traced : Traced) (call outer after : Machine)
      (others inner rest : List Machine),
      Session.ArisesSparing Rule.Discreet ⟨8, 32, 0, 1660, false⟩ .silent
        session none ∧
      SessionM.query 0 [.repeatOnce] session = .ok .running begun ∧
      Traced.Through Traced.Shallow begun.machine traced ∧
      MachineM.stepTurn 16 traced.machine = .ok (.commits, .running) after ∧
      traced.calls = call :: others ∧ call.Calls ⟨"$cut", 1⟩ ∧
      traced.Scope inner outer rest ∧ after.level < call.level ∧
      after.openPoints = outer.openPoints := by
  obtain ⟨session, begun, sparing, begins, ⟨traced, after, run, step, ⟨call,
    isCall, below⟩, fits⟩, -⟩ := Session.exists_repeatOnce
  obtain ⟨others, calls⟩ := List.head?_eq_some_iff.mp isCall
  obtain ⟨first, following, traces, -, -, commits, inner, outer, rest, scope, -,
      cuts⟩ :=
    keeps_open_points ⟨by decide, by decide, by decide⟩ sparing
      (by decide +kernel) begins run (fun _ => id) (.inl fun _ => id) step fits
  cases calls.symm.trans traces
  have isCut : call.Calls ⟨"$cut", 1⟩ := by
    by_contra other
    have same := congrArg List.length (commits rfl other)
    rw [Machine.length_openPoints, Machine.length_openPoints] at same
    omega
  exact ⟨session, begun, traced, call, outer, after, others, inner, rest,
    sparing, begins, run, step, calls, isCut, scope, below, cuts rfl isCut⟩

end Traced.Through

end LogicMachine
