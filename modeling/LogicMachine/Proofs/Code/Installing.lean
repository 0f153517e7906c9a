import LogicMachine.Proofs.Code.Plan

/-!
# Clauses on their way into a program

Every clause gets into a program the same way: its code is prepared, put at the
top of the code in use, and made the last clause of its predicate.  What differs
is how the code is prepared.  If any step fails, the program has advanced at
most, so no predicate has gained or lost a clause.
-/

namespace LogicMachine

namespace Linkage

/-- The clauses of a predicate in the order in which they are tried. -/
def clauses (linkage : Linkage) (functor : Functor) : List Clause :=
  (linkage.chains functor).elim [] Chain.clauses

theorem Extends.clauses_eq {linkage later : Linkage} {top : Nat}
    (extended : linkage.Extends later top) (functor : Functor) :
    later.clauses functor = linkage.clauses functor := by
  unfold clauses
  cases before : linkage.chains functor with
  | some chain => rw [extended.chains functor chain before]
  | none =>
      cases after : later.chains functor with
      | none => rfl
      | some chain =>
          rcases extended.fresh functor chain after with old | empty
          · rw [before] at old
            cases old
          · exact empty

end Linkage

namespace Program

/-- The later program has one more clause of one predicate, and nothing was done
to the code that was in use but belonged to nobody. -/
structure Gains (before : Program) (linkage : Linkage) (functor : Functor)
    (clause : Clause) (after : Program) (later : Linkage) : Prop where
  keeps : before.Keeps after
  top : before.top ≤ after.top
  linked : after.Linked later
  clauses : ∀ other, later.clauses other =
    if other = functor then linkage.clauses functor ++ [clause]
    else linkage.clauses other
  free : ∀ index < before.top, linkage.owner index = none →
    later.owner index = none

end Program

namespace ProgramM

/-- Linking code that has just been put at the top. -/
theorem ends_link {before prepared : Program} {linkage : Linkage}
    {functor : Functor} {words : List UInt32}
    (linked : before.Linked linkage) (advances : before.Advances prepared)
    (source : prepared.Source functor words)
    (fits : prepared.top + words.length ≤ prepared.code.size)
    (journal : Journal) :
    Ends (addClause functor prepared.top
        { prepared.extended words with journal })
      (fun _ after => prepared.Keeps after ∧ ∃ later,
        before.Gains linkage functor ⟨prepared.top, words⟩ after later)
      (fun _ after => before.Advances after) := by
  obtain ⟨middle, linkedMiddle, extended⟩ := advances.linked linkage linked
  have placed := (linkedMiddle.extended fits).withJournal journal
  have grown := (Program.extended_grows fits).trans
    (Program.grows_journal _ journal)
  have unclaimed : Program.Unclaimed { prepared.extended words with journal }
      middle ⟨prepared.top, words⟩ := by
    refine ⟨?_, linkedMiddle.top.1, Nat.le_refl _, ?_⟩
    · exact (Program.extended_hasWords fits).congr fun _ _ => rfl
    · intro offset _
      exact linkedMiddle.owner_of_top_le (Nat.le_add_right _ _)
  refine (addClause_linked placed unclaimed
    (source.mono grown.toKeeps)).imp ?_ ?_
  · intro _ after ⟨keeps, higher, later, linkedLater, adds⟩
    refine ⟨grown.toKeeps.trans keeps, later,
      ⟨(advances.grows.trans grown).toKeeps.trans keeps, ?_, linkedLater, ?_,
        ?_⟩⟩
    · exact Nat.le_trans (advances.grows.trans grown).top higher
    · intro other
      split
      case isTrue same =>
        obtain ⟨chain, found, clauses⟩ := adds.chain
        rw [same, ← extended.clauses_eq functor]
        simp only [Linkage.clauses, found]
        exact clauses
      case isFalse different =>
        rw [← extended.clauses_eq other]
        simp only [Linkage.clauses, adds.others other different]
    · intro index below unowned
      cases owned : later.owner index with
      | none => rfl
      | some piece =>
          have lower := advances.grows.top
          rcases adds.owner index piece owned with old | high | ⟨offset, _, at_⟩
          · rw [extended.owner index below, unowned] at old
            cases old
          · have above : prepared.top + words.length ≤ index := high
            omega
          · dsimp only at at_
            omega
  · intro fault after ⟨_, same⟩
    rw [same]
    exact (advances.trans (Program.extended_advances fits)).trans
      (.journal _ journal)

end ProgramM

/-- A clause on its way into a program: its predicate and how its code is
prepared. -/
structure Addition where
  functor : Functor
  code : ProgramM (List UInt32)

namespace Addition

/-- The clause as it is put at the top of the code in use. -/
def clause? (addition : Addition) (program : Program) : Option Clause :=
  match addition.code program with
  | .ok words after => some ⟨after.top, words⟩
  | .error _ _ => none

def ofRule (rule : Rule) (trace : Bool) : Addition :=
  ⟨.ofGoal rule.head, ProgramM.compile rule trace⟩

def ofNative (functor : Functor) (native : Native) : Addition where
  functor := functor
  code := do
    let index ← ProgramM.addNative native
    let body := Assembler.empty.add (.operand .native index.toUInt32)
    ProgramM.ofExcept (body.clause functor.arity)

def ofDefinition : Definition → Addition
  | .assembled functor code => ⟨functor, ProgramM.ofExcept code⟩
  | .native functor builtin => ofNative functor (.builtin builtin)
  | .clause rule => ofRule rule false

/-- An action that adds the clause, or fails and leaves all clauses alone. -/
def LinkedBy (addition : Addition) (action : ProgramM Unit) : Prop :=
  ∀ program linkage, program.Linked linkage →
    Ends (action program)
      (fun _ after => ∃ clause later,
        addition.clause? program = some clause ∧
          program.Gains linkage addition.functor clause after later)
      (fun _ after => program.Advances after)

/-- An action that prepares the code of the clause and then adds it, or fails and
leaves all clauses alone. -/
def PreparedBy (addition : Addition) (action : ProgramM Unit) : Prop :=
  ∀ program linkage, program.Linked linkage →
    Ends (action program)
      (fun _ after => ∃ words prepared,
        addition.code program = .ok words prepared ∧ prepared.Keeps after ∧
          ∃ later, program.Gains linkage addition.functor
            ⟨prepared.top, words⟩ after later)
      (fun _ after => program.Advances after)

theorem PreparedBy.linkedBy {addition : Addition} {action : ProgramM Unit}
    (prepares : addition.PreparedBy action) : addition.LinkedBy action := by
  intro program linkage linked
  refine (prepares program linkage linked).imp ?_ fun _ _ advanced => advanced
  rintro _ after ⟨words, prepared, made, -, later, gains⟩
  exact ⟨_, later, by rw [clause?, made], gains⟩

end Addition

namespace Library

variable {functor : Functor}

theorem mem_assembled {code : Except Fault (List UInt32)}
    (known : .assembled functor code ∈ definitions) :
    .assembled functor code ∈ assembled := by
  simp only [definitions, List.mem_append, List.mem_map] at known
  rcases known with (listed | listed) | ⟨rule, _, impossible⟩
  · exact listed
  · simp [natives] at listed
  · cases impossible

theorem mem_natives {builtin : Builtin}
    (known : .native functor builtin ∈ definitions) :
    .native functor builtin ∈ natives := by
  simp only [definitions, List.mem_append, List.mem_map] at known
  rcases known with (listed | listed) | ⟨rule, _, impossible⟩
  · simp [assembled] at listed
  · exact listed
  · cases impossible

theorem mem_rules {rule : Rule} (known : .clause rule ∈ definitions) :
    rule ∈ rules := by
  simp only [definitions, List.mem_append, List.mem_map] at known
  rcases known with (listed | listed) | ⟨other, listed, same⟩
  · simp [assembled] at listed
  · simp [natives] at listed
  · cases same
    exact listed

end Library

namespace ProgramM

theorem addRule_prepares (rule : Rule) (trace : Bool) :
    (Addition.ofRule rule trace).PreparedBy (addRule rule trace) := by
  intro program linkage linked
  have compiled := compile_advances rule trace program
  unfold addRule
  rw [ends_bind]
  cases result : compile rule trace program with
  | error fault after =>
      rw [result] at compiled
      exact compiled.1.toAdvances
  | ok words after =>
      rw [result] at compiled
      have advances := compiled.1.toAdvances
      rw [ends_ok, ends_bind]
      refine ends_append (fun fits => ?_) advances
      have source : after.Source (.ofGoal rule.head) words :=
        .rule rule trace rfl
          ⟨program, after, linked.consistent, result, .refl after⟩
      rw [ends_bind]
      refine (ends_link linked advances source fits _).imp ?_
        (fun _ _ advanced => advanced)
      exact fun _ final ⟨keeps, linked⟩ => ⟨words, after, result, keeps, linked⟩

theorem addRule_links (rule : Rule) (trace : Bool) :
    (Addition.ofRule rule trace).LinkedBy (addRule rule trace) :=
  (addRule_prepares rule trace).linkedBy

theorem addCode_links {functor : Functor} {before prepared : Program}
    {linkage : Linkage} {words : List UInt32}
    (linked : before.Linked linkage) (advances : before.Advances prepared)
    (source : prepared.Source functor words) :
    Ends (addCode functor words prepared)
      (fun _ after => prepared.Keeps after ∧ ∃ later,
        before.Gains linkage functor ⟨prepared.top, words⟩ after later)
      (fun _ after => before.Advances after) := by
  unfold addCode
  rw [ends_bind]
  exact ends_append (fun fits => ends_link linked advances source fits _)
    advances

/-- The program with another native predicate. -/
theorem addNative_advances (program : Program) (native : Native) :
    program.Advances
      { program with natives := program.natives.push native } := by
  have grows : program.Grows
      { program with natives := program.natives.push native } := by
    refine ⟨⟨fun _ _ found => found, fun _ _ found => found,
      fun _ _ found => ⟨_, found, rfl⟩, ?_, Nat.le_refl _, rfl⟩,
      fun _ _ => rfl, Nat.le_refl _⟩
    intro index known found
    have inside := (Array.getElem?_eq_some_iff.mp found).1
    rw [Array.getElem?_push_lt inside, ← found,
      Array.getElem?_eq_getElem inside]
  exact ⟨grows, fun linkage linked => ⟨linkage,
    linked.of_grows grows linked.top.2 (fun _ => rfl) linked.consistent,
    .refl _ _⟩⟩

theorem defineNative_prepares (functor : Functor) (native : Native)
    (known : ∀ builtin, native = .builtin builtin →
      .native functor builtin ∈ Library.natives) :
    (Addition.ofNative functor native).PreparedBy
      (defineNative functor native) := by
  intro program linkage linked
  have advances := addNative_advances program native
  have found :
      (program.natives.push native)[program.natives.size]? = some native := by
    simp
  simp only [defineNative, addNative, ends_bind, ends_modifyGet]
  generalize assembled : (Assembler.empty.add (.operand .native
    program.natives.size.toUInt32)).clause functor.arity = code
  cases code with
  | error fault => exact advances
  | ok words =>
      have source : Program.Source
          { program with natives := program.natives.push native } functor
          words := by
        cases native with
        | builtin builtin =>
            exact .native _ builtin (known builtin rfl) found assembled
        | foreign key => exact .foreign _ key found assembled
      show Ends (addCode functor words
        { program with
          natives := program.natives.push native
          journal := program.journal.add _ }) _ _
      have reported := advances.trans (.journal _
        (program.journal.add (.nativeDefined functor program.natives.size)))
      refine (addCode_links linked reported
        (source.mono (Program.grows_journal _ _).toKeeps)).imp ?_
        (fun _ _ advanced => advanced)
      rintro _ after ⟨keeps, linked⟩
      refine ⟨words, { program with natives := program.natives.push native },
        ?_, (Program.grows_journal _ _).toKeeps.trans keeps, linked⟩
      simp only [Addition.ofNative, bind, EStateM.bind, addNative,
        modifyGet_apply, assembled, ofExcept]

theorem defineNative_links (functor : Functor) (native : Native)
    (known : ∀ builtin, native = .builtin builtin →
      .native functor builtin ∈ Library.natives) :
    (Addition.ofNative functor native).LinkedBy
      (defineNative functor native) :=
  (defineNative_prepares functor native known).linkedBy

/-- Each entry of the library has its code prepared and added. -/
theorem install_prepares {definition : Definition}
    (known : definition ∈ Library.definitions) :
    (Addition.ofDefinition definition).PreparedBy (install definition) := by
  cases definition with
  | assembled functor code =>
      intro program linkage linked
      simp only [install, ends_bind]
      cases code with
      | error fault => exact .refl program
      | ok words =>
          refine (addCode_links linked (.refl program)
            (.assembled (Library.mem_assembled known))).imp ?_
            (fun _ _ advanced => advanced)
          rintro _ after ⟨keeps, linked⟩
          exact ⟨words, program, rfl, keeps, linked⟩
  | native functor builtin =>
      refine defineNative_prepares functor (.builtin builtin) ?_
      rintro same ⟨⟩
      exact Library.mem_natives known
  | clause rule => exact addRule_prepares rule false

/-- Each entry of the library adds one clause. -/
theorem install_links {definition : Definition}
    (known : definition ∈ Library.definitions) :
    (Addition.ofDefinition definition).LinkedBy (install definition) :=
  (install_prepares known).linkedBy

end ProgramM

/-! ## The empty program -/

/-- No predicate and no code. -/
def Linkage.empty : Linkage :=
  ⟨fun _ => none, fun _ => none⟩

namespace Program

theorem empty_linked (codeSize : Nat) (journal : Journal) :
    (empty codeSize journal).Linked .empty where
  unknown := fun _ _ => rfl
  known := by
    intro functor predicate found
    simp [predicate?, empty] at found
  dispatches := nofun
  clauses := nofun
  owns := nofun
  owned := nofun
  top := by
    refine ⟨Nat.le_refl 1, ?_⟩
    simp only [empty, Array.size_setIfInBounds, Array.size_replicate,
      dispatchSize]
    omega
  halt := by
    apply Array.getElem?_setIfInBounds_self_of_lt
    simp only [Array.size_replicate, dispatchSize]
    omega
  consistent := fun _ => FunctorTable.empty_consistent

end Program

end LogicMachine
