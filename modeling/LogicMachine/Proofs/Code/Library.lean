import LogicMachine.Proofs.Code.ClauseText
import LogicMachine.Proofs.Code.Installing

/-!
# Room for the library

Adding a clause fails only if the rule is not proper or the code segment is too
small.  The bounds on the sizes of texts tell how much room a clause needs at
most, so the library can be installed whenever the code segment has room for the
sum of these bounds.
-/

namespace LogicMachine

namespace Definition

/-- A bound on the code words that a library entry takes up, with the dispatch
code that it makes necessary. -/
def bulk : Definition → Nat
  | .assembled _ (.ok words) => words.length + dispatchSize
  | .assembled _ (.error _) => 0
  | .native _ _ => 7 + dispatchSize
  | .clause rule =>
      dispatchSize * rule.goals.length + rule.bulk + dispatchSize

/-- Nothing in the entry itself keeps it from being added. -/
def isProper : Definition → Bool
  | .assembled _ (.ok _) => true
  | .assembled _ (.error _) => false
  | .native _ _ => true
  | .clause rule => rule.isProper

end Definition

namespace ProgramM

/-- What is left after at most so many code words were used up. -/
def Uses (count : Nat) (before after : Program) : Prop :=
  after.top ≤ before.top + count ∧ after.code.size = before.code.size

theorem append_uses {program : Program} {words : List UInt32}
    (room : program.top + words.length ≤ program.code.size)
    {regular : Nat → Program → Prop}
    (holds : regular program.top (program.extended words)) :
    Ends (append words program) regular (fun _ _ => False) := by
  simp only [append, ends_bind, ends_get]
  exact ends_write (fun _ => holds) (fun full => by omega)

/-- Dispatch code goes to the top or replaces some that is there. -/
theorem dispatch_uses {program : Program} {linkage : Linkage}
    (linked : program.Linked linkage) (functor : Functor) (clause : Nat)
    (room : program.top + dispatchSize ≤ program.code.size) :
    Ends (dispatch (program.predicate? functor) clause program)
      (fun _ => Uses dispatchSize program) (fun _ _ => False) := by
  have chained (previous : Nat) (below : previous + dispatchSize ≤ program.top)
      (next : Nat → Predicate) :
      Ends ((do
          let last ← append (dispatchLast clause)
          write previous (dispatchNext last)
          return next last : ProgramM Predicate) program)
        (fun _ => Uses dispatchSize program) (fun _ _ => False) := by
    rw [ends_bind]
    refine append_uses room ?_
    rw [ends_bind]
    generalize isPlaced : program.extended (dispatchLast clause) = placed
    refine ends_write (fun _ => ?_) (fun full => ?_) <;> subst isPlaced
    · exact ⟨Nat.le_of_eq rfl, by simp [Program.overwritten, Program.extended,
        Program.size_writeWords]⟩
    · simp only [Program.extended, Program.size_writeWords, dispatchNext,
        List.length_cons, List.length_nil] at full
      simp only [dispatchSize] at below room
      omega
  unfold dispatch
  cases present : program.predicate? functor with
  | none =>
      rw [ends_bind]
      refine append_uses room ⟨Nat.le_of_eq rfl, ?_⟩
      simp [Program.extended, Program.size_writeWords]
  | some predicate =>
      obtain ⟨chain, found, matching⟩ := linked.known functor predicate present
      have inside {block : Nat} (member : block ∈ chain.blocks) :=
        (linked.block_lt found member).2
      cases predicate with
      | undefined entry =>
          have below := inside (matching.1 ▸ List.mem_cons_self)
          rw [ends_bind]
          refine ends_write (fun _ => ?_) (fun full => ?_)
          · exact ⟨Nat.le_add_right _ _,
              by simp [Program.overwritten, Program.size_writeWords]⟩
          · have size : (dispatchLast clause).length = dispatchSize := rfl
            omega
      | single entry =>
          exact chained entry (inside (matching.1 ▸ List.mem_cons_self)) _
      | chain entry last =>
          obtain ⟨-, middle, shape⟩ := matching
          exact chained last (inside (by simp [shape])) _

theorem addClause_uses {program : Program} {linkage : Linkage}
    (linked : program.Linked linkage) (functor : Functor) (clause : Nat)
    (room : program.top + dispatchSize ≤ program.code.size) :
    Ends (addClause functor clause program)
      (fun _ => Uses dispatchSize program) (fun _ _ => False) := by
  unfold addClause
  rw [ends_bind, ends_get, ends_bind]
  refine (dispatch_uses linked functor clause room).imp ?_ (fun _ _ => id)
  intro next after uses
  exact uses

/-- Code that has been prepared is added if there is room for it and for its
dispatch code. -/
theorem addCode_uses {program : Program} {linkage : Linkage}
    (linked : program.Linked linkage) (functor : Functor)
    {words : List UInt32} (journal : Journal)
    (room : program.top + words.length + dispatchSize ≤ program.code.size) :
    Ends (addClause functor program.top
        { program.extended words with journal })
      (fun _ => Uses (words.length + dispatchSize) program)
      (fun _ _ => False) := by
  have fits : program.top + words.length ≤ program.code.size := by omega
  have placed := (linked.extended fits).withJournal journal
  have size : (program.extended words).code.size = program.code.size := by
    simp [Program.extended, Program.size_writeWords]
  refine (addClause_uses placed functor program.top ?_).imp ?_ (fun _ _ => id)
  · show program.top + words.length + dispatchSize ≤
      (program.extended words).code.size
    omega
  · rintro _ after ⟨top, same⟩
    have top : after.top ≤ program.top + words.length + dispatchSize := top
    exact ⟨by omega, same.trans size⟩

end ProgramM

namespace Program

/-- The names that a program has, and any for those it does not have. -/
def totalNaming (program : Program) : Naming where
  number? := fun functor =>
    some (program.functors.numbers[functor]?.getD default)
  start? := fun functor =>
    some (((program.predicate? functor).map Predicate.entry).getD 0)

theorem totalNaming_total (program : Program) : program.totalNaming.Total :=
  fun _ => ⟨nofun, nofun⟩

theorem names_totalNaming (program : Program) :
    program.Names program.totalNaming := by
  constructor
  · intro functor id found
    simp [totalNaming, found]
  · intro functor predicate found
    simp [totalNaming, found]

end Program

namespace ProgramM

/-- A proper rule is compiled if there is room for the dispatch code of the
predicates that it calls. -/
theorem compile_uses (rule : Rule) (trace : Bool)
    (proper : rule.isProper = true) {program : Program}
    (room : program.top + dispatchSize * rule.goals.length ≤
      program.code.size) :
    Ends (compile rule trace program)
      (fun words after => program.Advances after ∧
        Uses (dispatchSize * rule.goals.length) program after ∧
        words.length ≤ rule.bulk)
      (fun _ _ => False) := by
  have coded (after : Program) :=
    rule.code_total trace after.totalNaming_total proper
  refine (compile_advances rule trace program).imp ?_ ?_
  · intro words after ⟨advances, planned⟩
    obtain ⟨found, code, size⟩ := coded after
    rw [planned _ after.names_totalNaming] at code
    cases code
    exact ⟨advances.toAdvances, ⟨advances.room, advances.grows.capacity⟩, size⟩
  · rintro fault after ⟨-, ⟨-, full⟩ | planned⟩
    · omega
    · obtain ⟨found, code, -⟩ := coded after
      rw [planned _ after.names_totalNaming] at code
      cases code

theorem install_uses {definition : Definition}
    (proper : definition.isProper = true) {program : Program}
    {linkage : Linkage} (linked : program.Linked linkage)
    (room : program.top + definition.bulk ≤ program.code.size) :
    Ends (install definition program)
      (fun _ => Uses definition.bulk program) (fun _ _ => False) := by
  cases definition with
  | assembled functor code =>
      cases code with
      | error fault => cases proper
      | ok words =>
          simp only [Definition.bulk] at room ⊢
          simp only [install, addCode, ends_bind]
          refine append_uses (by omega) ?_
          exact addCode_uses linked functor program.journal (by omega)
  | native functor builtin =>
      obtain ⟨words, assembled, length⟩ : ∃ words,
          (Assembler.empty.add (.operand .native
            program.natives.size.toUInt32)).clause functor.arity = .ok words ∧
          words.length = 7 := ⟨_, rfl, rfl⟩
      have advances := addNative_advances program (.builtin builtin)
      obtain ⟨later, linkedLater, -⟩ := advances.linked linkage linked
      simp only [Definition.bulk] at room ⊢
      simp only [install, defineNative, addNative, ends_bind, ends_modifyGet,
        assembled, addCode]
      show Ends (append words { program with natives := _, journal := _ }) _ _
      have fits : program.top + words.length + dispatchSize ≤
          program.code.size := by omega
      refine append_uses (by simp only; omega) ?_
      have added := addCode_uses linkedLater functor
        (program.journal.add (.nativeDefined functor program.natives.size)) fits
      rw [length] at added
      exact added
  | clause rule =>
      simp only [Definition.bulk] at room ⊢
      simp only [install, addRule, ends_bind]
      refine (compile_uses rule false proper (by omega)).imp ?_ (fun _ _ => id)
      rintro words after ⟨advances, ⟨top, size⟩, length⟩
      obtain ⟨later, linkedLater, -⟩ := advances.linked linkage linked
      refine append_uses (by omega) ?_
      refine (addCode_uses linkedLater _ _ (by omega)).imp ?_ (fun _ _ => id)
      rintro _ final ⟨finalTop, finalSize⟩
      exact ⟨by omega, finalSize.trans size⟩

theorem installAll_uses {definitions : List Definition}
    (known : ∀ definition ∈ definitions, definition ∈ Library.definitions)
    (proper : ∀ definition ∈ definitions, definition.isProper = true)
    {program : Program} {linkage : Linkage} (linked : program.Linked linkage)
    (room : program.top + (definitions.map Definition.bulk).sum ≤
      program.code.size) :
    Ends (definitions.forM install program)
      (fun _ => Uses (definitions.map Definition.bulk).sum program)
      (fun _ _ => False) := by
  induction definitions generalizing program linkage with
  | nil => exact ⟨Nat.le_refl _, rfl⟩
  | cons definition rest ih =>
      rw [List.map_cons, List.sum_cons] at room
      have here := install_uses (proper _ List.mem_cons_self) linked (by omega)
      have links := install_links (known _ List.mem_cons_self) program linkage
        linked
      show Ends ((install definition >>= fun _ => rest.forM install) program) _ _
      rw [ends_bind]
      refine (here.and links).imp ?_ (fun _ _ faulty => faulty.1)
      rintro _ after ⟨⟨top, size⟩, clause, later, -, gains⟩
      have others := ih
        (fun other member => known other (List.mem_cons_of_mem _ member))
        (fun other member => proper other (List.mem_cons_of_mem _ member))
        gains.linked (by omega)
      refine others.imp ?_ fun _ _ => id
      rintro _ final ⟨finalTop, finalSize⟩
      rw [List.map_cons, List.sum_cons]
      exact ⟨by omega, finalSize.trans size⟩

/-- The room that the library takes up at most, with the instruction that ends a
run. -/
def libraryBulk : Nat :=
  1 + (Library.definitions.map Definition.bulk).sum

theorem library_isProper :
    ∀ definition ∈ Library.definitions, definition.isProper = true := by
  decide +kernel

theorem installLibrary_uses {codeSize : Nat} (journal : Journal)
    (room : libraryBulk ≤ codeSize) :
    Ends (installLibrary (Program.empty codeSize journal))
      (fun _ after => after.top ≤ libraryBulk ∧
        after.code.size = max codeSize dispatchSize)
      (fun _ _ => False) := by
  have size : (Program.empty codeSize journal).code.size =
      max codeSize dispatchSize := by
    simp only [Program.empty, Array.size_setIfInBounds, Array.size_replicate]
  unfold installLibrary
  rw [ends_bind]
  refine (installAll_uses (fun _ => id) library_isProper
    (Program.empty_linked codeSize journal) ?_).imp ?_ (fun _ _ => id)
  · rw [size]
    exact Nat.le_trans room (Nat.le_max_left _ _)
  · rintro _ after ⟨top, same⟩
    exact ⟨top, same.trans size⟩

theorem installLibrary_ends {codeSize : Nat} (journal : Journal)
    (room : libraryBulk ≤ codeSize) :
    Ends (installLibrary (Program.empty codeSize journal))
      (fun _ after => after.code.size = max codeSize dispatchSize)
      (fun _ _ => False) :=
  (installLibrary_uses journal room).imp (fun _ _ => And.right) fun _ _ => id

/-- The library fits in the code segment of the default configuration. -/
theorem libraryBulk_le : libraryBulk ≤ Config.default.codeSize := by
  decide +kernel

end ProgramM

end LogicMachine
