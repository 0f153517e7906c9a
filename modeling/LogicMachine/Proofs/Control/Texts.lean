import LogicMachine.Proofs.Code.Slots
import LogicMachine.Proofs.Control.Compounds

/-!
# The texts of clauses

The compiler sets slots aside and writes texts that use them.  A slot that it
sets aside for a term is never used for anything else, so whatever it writes in
the head of a clause, or to build the arguments of a goal, works on the record
of the clause as it should.
-/

namespace LogicMachine

namespace Draft

/-- The desk has the slots of the later draft, and those that have been set
aside since the earlier one may be given terms. -/
structure Serves (before after : Draft) (desk : Desk) : Prop where
  keeps : ∀ slot, after.Owns slot → desk.Keeps slot
  frees : ∀ slot, after.Owns slot → ¬ before.Owns slot → desk.Frees slot
  works : ∀ subject cursor, after.working = some (subject, cursor) →
    desk.Works subject ∧ desk.Works cursor ∧ cursor.index ≠ subject.index

namespace Serves

variable {first second third : Draft} {desk : Desk}

theorem left (serves : Serves first third desk) (later : second.Later third) :
    Serves first second desk where
  keeps := fun slot owns => serves.keeps slot (later.owns slot owns)
  frees := fun slot owns => serves.frees slot (later.owns slot owns)
  works := fun subject cursor known =>
    serves.works subject cursor (later.working _ known)

theorem right (serves : Serves first third desk) (later : first.Later second) :
    Serves second third desk where
  keeps := serves.keeps
  frees := fun slot owns isNew =>
    serves.frees slot owns fun old => isNew (later.owns slot old)
  works := serves.works

/-- A slot that has been set aside for a term may be left alone from now on. -/
theorem fixing (serves : Serves first second desk) {slot : Local}
    (owns : first.Owns slot) (word : Word) :
    Serves first second (desk.fixing slot.index word) where
  keeps := fun other owned =>
    ⟨(serves.keeps other owned).inside, (serves.keeps other owned).apart⟩
  frees := by
    intro other owned isNew
    have frees := serves.frees other owned isNew
    refine ⟨⟨frees.inside, frees.apart⟩, ?_⟩
    intro kept content member
    rcases List.mem_cons.mp member with same | old
    · cases same
      intro equal
      have isSlot : slot = other := by
        cases slot
        cases other
        exact congrArg Local.mk equal
      exact isNew (isSlot ▸ owns)
    · exact frees.notFixed kept content old
  works := fun subject cursor known => by
    obtain ⟨one, two, different⟩ := serves.works subject cursor known
    exact ⟨⟨one.inside, one.member⟩, ⟨two.inside, two.member⟩, different⟩

end Serves

end Draft

/-! ## Names without a slot -/

theorem Shape.vars_of_compound {term : Term} {functor : Option Functor}
    {args : List Term} (decided : Shape.of term = .ok (.compound functor args)) :
    term.vars = Term.varsOf args := by
  unfold Shape.of at decided
  repeat' split at decided
  all_goals cases decided
  all_goals rfl

namespace Draft

variable {draft after : Draft} {naming : Naming} {name : String}

theorem unnamed_withVariable (unknown : draft.slots.lookup name = none)
    {other : String} (different : name ≠ other) :
    (draft.withVariable other).slots.lookup name = none := by
  have apart : (name == other) = false := beq_false_of_ne different
  simpa [withVariable, List.lookup_cons, apart] using unknown

theorem unnamed_emitted (unknown : draft.slots.lookup name = none)
    (items : List Item) :
    (draft.emitted items).slots.lookup name = none :=
  unknown

theorem unnamed_planned {term : Term} {slot : Slot}
    (planned : Slot.Planned naming draft term slot after)
    (unknown : draft.slots.lookup name = none) (absent : name ∉ term.vars) :
    after.slots.lookup name = none := by
  cases planned with
  | first =>
      exact unnamed_withVariable unknown fun same =>
        absent (same ▸ List.mem_singleton.mpr rfl)
  | _ => exact unknown

theorem unnamed_plannedAll {terms : List Term} {slots : List Slot}
    (planned : Slot.PlannedAll naming draft terms slots after)
    (unknown : draft.slots.lookup name = none)
    (absent : name ∉ Term.varsOf terms) :
    after.slots.lookup name = none := by
  induction planned with
  | nil => exact unknown
  | cons first _ ih =>
      rw [Term.varsOf, List.mem_append, not_or] at absent
      exact ih (unnamed_planned first unknown absent.1) absent.2

theorem unnamed_works {slots : Local × Local} {ready : Draft}
    (works : ClauseM.Works draft slots ready)
    (unknown : draft.slots.lookup name = none) :
    ready.slots.lookup name = none := by
  cases works <;> exact unknown

/-- The compounds that are put off have no other variables. -/
theorem absent_plannedAll {terms : List Term} {slots : List Slot}
    (planned : Slot.PlannedAll naming draft terms slots after)
    (absent : name ∉ Term.varsOf terms) :
    ∀ place functor args, .nested place functor args ∈ slots →
      name ∉ Term.varsOf args := by
  induction planned with
  | nil => nofun
  | cons first _ ih =>
      rw [Term.varsOf, List.mem_append, not_or] at absent
      intro place functor args member
      rcases List.mem_cons.mp member with same | other
      · cases first <;> cases same
        rename_i decided
        rw [← Shape.vars_of_compound decided]
        exact absent.1
      · exact ih absent.2 place functor args other

theorem unnamed_matches {pattern : Pattern} {text : List Item}
    {inner : List Pattern}
    (matched : ClauseM.Matches naming draft pattern text inner after)
    (unknown : draft.slots.lookup name = none)
    (absent : name ∉ Term.varsOf pattern.args) :
    after.slots.lookup name = none ∧
      ∀ other ∈ inner, name ∉ Term.varsOf other.args := by
  have kept := unnamed_plannedAll matched.planned
    (unnamed_works matched.works unknown) absent
  refine ⟨?_, ?_⟩
  · rw [matched.after_eq]
    exact @unnamed_emitted matched.reserved.withLabel.withLabel.withLabel _
      kept _
  · intro other member
    rw [matched.inner_eq] at member
    obtain ⟨slot, inside, isPattern⟩ := List.mem_filterMap.mp member
    cases slot with
    | nested place functor args =>
        cases isPattern
        exact absent_plannedAll matched.planned absent place functor args inside
    | _ => cases isPattern

/-- Matching an argument names its own variables only. -/
theorem unnamed_matchesArgument {index : Nat} {term : Term} {text : List Item}
    {inner : List Pattern}
    (matched : ClauseM.MatchesArgument naming draft index term text inner after)
    (unknown : draft.slots.lookup name = none) (absent : name ∉ term.vars) :
    after.slots.lookup name = none ∧
      ∀ other ∈ inner, name ∉ Term.varsOf other.args := by
  cases matched with
  | void => exact ⟨unknown, nofun⟩
  | again => exact ⟨unnamed_emitted unknown _, nofun⟩
  | first =>
      refine ⟨unnamed_emitted (unnamed_withVariable unknown fun same => ?_) _,
        nofun⟩
      exact absent (same ▸ List.mem_singleton.mpr rfl)
  | @constant _ _ _ _ _ ready _ _ works =>
      have kept := unnamed_works works unknown
      exact ⟨@unnamed_emitted ready.withLabel.withLabel _ kept _, nofun⟩
  | compound decided matched =>
      obtain ⟨matched⟩ := matched
      rw [Shape.vars_of_compound decided] at absent
      exact unnamed_matches matched unknown absent

end Draft

theorem Shape.arity_of_constant {term : Term} {functor : Functor}
    (decided : Shape.of term = .ok (.constant functor)) :
    functor.arity = 0 := by
  unfold Shape.of at decided
  repeat' split at decided
  all_goals cases decided
  all_goals rfl

variable [Atoms]

/-! ## The plan of a compound -/

/-- The numbers of constants are those of atoms. -/
def Naming.Atomic (naming : Naming) : Prop :=
  ∀ {functor : Functor} {id : FunctorId}, functor.arity = 0 →
    naming.number? functor = some id → Atoms.includes id

namespace Slot

open Draft

/-- The slots of the plan are those of terms. -/
theorem Planned.admits {naming : Naming} {draft after : Draft} {term : Term}
    {slot : Slot} (planned : Planned naming draft term slot after)
    (atomic : naming.Atomic) (laid : draft.Laid) {desk : Desk} (serves : Serves draft after desk) :
    desk.Admits slot := by
  cases planned with
  | void => trivial
  | constant decided known =>
      exact atomic (Shape.arity_of_constant decided) known
  | first unknown =>
      have next := Later.owns_next laid
      exact serves.frees _ ⟨next.inside, next.apart, next.notCut⟩
        draft.not_owns_next
  | again _ known => exact serves.keeps _ (laid.named _ _ known)
  | nested =>
      exact serves.frees _ (Later.owns_next laid) draft.not_owns_next

theorem PlannedAll.admits {naming : Naming} {draft after : Draft}
    {terms : List Term} {slots : List Slot}
    (planned : PlannedAll naming draft terms slots after)
    (atomic : naming.Atomic) (laid : draft.Laid) {desk : Desk}
    (serves : Serves draft after desk) : ∀ slot ∈ slots, desk.Admits slot := by
  induction planned with
  | nil => nofun
  | cons first rest ih =>
      have starts := Later.planned first
      intro slot member
      rcases List.mem_cons.mp member with rfl | other
      · exact first.admits atomic laid (serves.left (Later.plannedAll rest))
      · exact ih (starts.laid laid) (serves.right starts) slot other

omit [Atoms] in
/-- The slots of compounds that are put off are those of terms. -/
theorem PlannedAll.owns {naming : Naming} {draft after : Draft}
    {terms : List Term} {slots : List Slot}
    (planned : PlannedAll naming draft terms slots after)
    (laid : draft.Laid) :
    ∀ place functor args, .nested place functor args ∈ slots →
      after.Owns place := by
  induction planned with
  | nil => nofun
  | cons first rest ih =>
      intro place functor args member
      rcases List.mem_cons.mp member with same | other
      · cases first <;> cases same
        exact (Later.plannedAll rest).owns _ (Later.owns_next laid)
      · exact ih ((Later.planned first).laid laid) place functor args other

end Slot

/-! ## Texts that were written -/

namespace Draft

/-- A text that was written and works on the record of its clause. -/
structure Plays (arity : Nat) (before : Draft) (text : List Item)
    (after : Draft) : Prop extends before.Later after where
  writes : ∃ bound, before.Writes bound text after
  carries : ∀ desk : Desk, desk.Sound → desk.arity = arity →
    Serves before after desk → ∀ (setting : Setting) (place : Label → Nat),
      setting.Carries place (desk.Clear Desk.anything) text
        (desk.Clear Desk.anything)

namespace Plays

variable {arity : Nat} {first second third : Draft} {text more : List Item}

theorem nil (draft : Draft) : draft.Plays arity [] draft where
  toLater := .refl draft
  writes := ⟨0, .nil draft⟩
  carries := fun _ _ _ _ _ _ => .nil fun _ => id

theorem append (left : first.Plays arity text second)
    (right : second.Plays arity more third) :
    first.Plays arity (text ++ more) third where
  toLater := left.toLater.trans right.toLater
  writes := by
    obtain ⟨few, writes⟩ := left.writes
    obtain ⟨many, later⟩ := right.writes
    exact ⟨_, writes.append later⟩
  carries := fun desk sound same serves setting place =>
    (left.carries desk sound same (serves.left right.toLater) setting
      place).append (right.carries desk sound same
        (serves.right left.toLater) setting place)

end Plays

/-- The text works on the record of its clause, and on the way a new variable
takes the argument with that index. -/
inductive Takes (arity : Nat) (name : String) (index : Nat) (before : Draft) :
    List Item → Draft → Prop where
  | intro {first last : List Item} {middle after : Draft}
      (starts : before.Plays arity first middle)
      (unknown : middle.slots.lookup name = none)
      (ends : ((middle.withVariable name).emitted (Pattern.takeVariable
        (.argument index) middle.nextLocal)).Plays arity last after) :
      Takes arity name index before
        (first ++ (Pattern.takeVariable (.argument index) middle.nextLocal ++
          last)) after

theorem Takes.prepend {arity index : Nat} {name : String}
    {before middle after : Draft} {text more : List Item}
    (plays : before.Plays arity text middle)
    (takes : middle.Takes arity name index more after) :
    before.Takes arity name index (text ++ more) after := by
  cases takes with
  | @intro first last _ _ starts unknown ends =>
      rw [← List.append_assoc]
      exact .intro (plays.append starts) unknown ends

theorem Takes.append {arity index : Nat} {name : String}
    {before middle after : Draft} {text more : List Item}
    (takes : before.Takes arity name index text middle)
    (plays : middle.Plays arity more after) :
    before.Takes arity name index (text ++ more) after := by
  cases takes with
  | @intro first last _ _ starts unknown ends =>
      rw [List.append_assoc, List.append_assoc]
      exact .intro starts unknown (ends.append plays)

/-- The slot that the variable takes the argument in may be left alone from then
on. -/
theorem Takes.carries {arity index : Nat} {name : String}
    {before after last : Draft} {text : List Item}
    (takes : before.Takes arity name index text after) (laid : before.Laid)
    {desk : Desk} (sound : desk.Sound) (same : desk.arity = arity)
    (given : index < arity) (rest : after.Later last)
    (serves : Serves before last desk) {word : Word}
    (known : desk.below[desk.below.length - 3 - index]? = some word) :
    ∃ slot : Local, after.slots.lookup name = some slot ∧ desk.Keeps slot ∧
      Serves after last (desk.fixing slot.index word) ∧
      ∀ (setting : Setting) (place : Label → Nat),
        setting.Carries place (desk.Clear Desk.anything) text
          ((desk.fixing slot.index word).Clear Desk.anything) := by
  obtain @⟨_, _, middle, _, starts, unknown, ends⟩ := takes
  have next := Later.owns_next (starts.laid laid)
  have named := Later.withVariable unknown
  have emits := Later.emitted (middle.withVariable name)
    (Pattern.takeVariable (.argument index) middle.nextLocal)
  have owns := emits.owns middle.nextLocal
    ⟨next.inside, next.apart, next.notCut⟩
  have atMiddle := serves.right starts.toLater
  have frees := atMiddle.frees _ (rest.owns _ (ends.toLater.owns _ owns))
    middle.not_owns_next
  have fixed := ((atMiddle.right (named.trans emits)).left rest).fixing owns word
  refine ⟨middle.nextLocal, ends.toLater.slots _ _ (emits.slots _ _ ?_),
    frees.toKeeps, ?_, fun setting place => ?_⟩
  · simp [Draft.withVariable]
  · exact (atMiddle.right ((named.trans emits).trans ends.toLater)).fixing
      (ends.toLater.owns _ owns) word
  · have taking := @Desk.carries_takeArgument _ desk setting place sound _
      (same ▸ given) _ frees _ known
    refine (starts.carries desk sound same (serves.left
      ((named.trans emits).trans (ends.toLater.trans rest))) setting
        place).append (.append ?_ (ends.carries (desk.fixing _ word)
          (sound.fixing frees.toKeeps word) same fixed setting place))
    refine taking.imp fun later held => ?_
    exact held.1.fixing held.2

/-- The source leads to a term. -/
def Grants (arity : Nat) (draft : Draft) : Source → Prop
  | .argument index => index < arity
  | .slot place => draft.Owns place
  | .cursor _ => False

omit [Atoms] in
theorem Grants.later {arity : Nat} {before after : Draft} {source : Source}
    (grants : before.Grants arity source) (later : before.Later after) :
    after.Grants arity source := by
  cases source with
  | argument index => exact grants
  | slot place => exact later.owns place grants
  | cursor place => exact grants

omit [Atoms] in
theorem Grants.leads {arity : Nat} {draft : Draft} {source : Source}
    (grants : draft.Grants arity source) {desk : Desk}
    (same : desk.arity = arity)
    (keeps : ∀ slot, draft.Owns slot → desk.Keeps slot)
    (activity : Activity) : desk.Leads activity source := by
  cases source with
  | argument index =>
      show index < desk.arity
      rw [same]
      exact grants
  | slot place => exact keeps place grants
  | cursor place => exact grants.elim

end Draft

namespace ClauseM

open Draft

variable {draft : Draft} {naming : Naming} {arity : Nat}

/-- Reading through a source that leads to a term. -/
theorem carries_of_reads {desk : Desk} {setting : Setting}
    {place : Label → Nat} {subject : Local} {source : Source}
    {items : List Item}
    (reads : desk.Reads setting place subject source items)
    (leads : ∀ activity, desk.Leads activity source) :
    setting.Carries place (desk.Clear Desk.anything) items
      (desk.Clear Desk.anything) :=
  fun turning position holds next activity clear =>
    reads _ (Desk.steady_anything desk subject) turning position holds next
      activity ⟨clear, leads activity⟩

theorem Matches.plays {pattern : Pattern} {text : List Item}
    {inner : List Pattern} {after : Draft}
    (matched : Matches naming draft pattern text inner after)
    (atomic : naming.Atomic) (laid : draft.Laid)
    (grants : draft.Grants arity pattern.source) :
    draft.Plays arity text after ∧
      ∀ other ∈ inner, after.Grants arity other.source := by
  obtain ⟨bound, writes, -⟩ := matched.writes
  obtain ⟨subject, cursor, ready, slots, reserved, functor, works, planned,
    -, rfl, rfl, rfl⟩ := matched
  obtain ⟨starts, known⟩ := Later.works works
  have plans := Later.plannedAll planned
  have labelled : reserved.Later reserved.withLabel.withLabel.withLabel :=
    (Later.withLabel _).trans ((Later.withLabel _).trans (.withLabel _))
  have emits (items : List Item) := labelled.trans (Later.emitted _ items)
  have readyLaid := starts.laid laid
  refine ⟨⟨starts.trans (plans.trans (emits _)), ⟨bound, writes⟩, ?_⟩, ?_⟩
  · intro desk sound same serves setting place
    have atReserved := (serves.left (emits _)).right starts
    obtain ⟨worksSubject, worksCursor, different⟩ :=
      atReserved.works subject cursor (plans.working _ known)
    intro turning position holds next activity clear
    refine Desk.carries_matchCompound sound worksSubject worksCursor different
      pattern.source functor (planned.admits atomic readyLaid atReserved) _ _ _
      turning position holds next activity ⟨clear, ?_⟩
    exact grants.leads same (fun slot owns => atReserved.keeps slot
      ((starts.trans plans).owns slot owns)) activity
  · intro other member
    obtain ⟨slot, inside, isPattern⟩ := List.mem_filterMap.mp member
    cases slot with
    | nested place functor args =>
        cases isPattern
        exact (emits _).owns place
          (planned.owns readyLaid place functor args inside)
    | _ => cases isPattern

theorem MatchesArgument.plays {index : Nat} {term : Term}
    {text : List Item} {inner : List Pattern} {after : Draft}
    (matched : MatchesArgument naming draft index term text inner after)
    (atomic : naming.Atomic) (laid : draft.Laid) (inside : index < arity) :
    draft.Plays arity text after ∧
      ∀ other ∈ inner, after.Grants arity other.source := by
  obtain ⟨bound, writes, -⟩ := matched.writes
  have leads {desk : Desk} (same : desk.arity = arity) (activity : Activity) :
      desk.Leads activity (.argument index) := by
    show index < desk.arity
    rw [same]
    exact inside
  cases matched with
  | void => exact ⟨.nil draft, nofun⟩
  | first _ unknown =>
      refine ⟨⟨(Later.withVariable unknown).trans (.emitted _ _),
        ⟨bound, writes⟩, ?_⟩, nofun⟩
      intro desk sound same serves setting place
      have next := Later.owns_next laid
      have frees := serves.frees draft.nextLocal ((Later.emitted _ _).owns _
        ⟨next.inside, next.apart, next.notCut⟩) draft.not_owns_next
      exact carries_of_reads (Desk.reads_takeVariable sound ⟨0⟩ _ frees)
        (leads same)
  | again _ known =>
      refine ⟨⟨.emitted draft _, ⟨bound, writes⟩, ?_⟩, nofun⟩
      intro desk sound same serves setting place
      have keeps := serves.keeps _
        ((Later.emitted _ _).owns _ (laid.named _ _ known))
      exact carries_of_reads
        (Desk.reads_unifyValue sound ⟨0⟩ _ keeps) (leads same)
  | @constant _ _ _ _ _ ready decided numbered works =>
      obtain ⟨starts, known⟩ := Later.works works
      have emits (items : List Item) := ((Later.withLabel ready).trans
        (Later.withLabel _)).trans (Later.emitted _ items)
      refine ⟨⟨starts.trans (emits _), ⟨bound, writes⟩, ?_⟩, nofun⟩
      intro desk sound same serves setting place
      have worksSubject :=
        (serves.works _ _ ((emits _).working _ known)).1
      exact carries_of_reads
        (Desk.reads_matchConstant sound worksSubject _
          (atomic (Shape.arity_of_constant decided) numbered) _ _) (leads same)
  | compound _ matched =>
      obtain ⟨matched⟩ := matched
      exact matched.plays atomic laid inside

theorem matchArguments_plays {index : Nat} {terms : List Term}
    (atomic : naming.Atomic) (laid : draft.Laid) (inside : index + terms.length ≤ arity) :
    Plans (matchArguments index terms) draft naming False
      (fun inner after => ∃ text, draft.Plays arity text after ∧
        ∀ other ∈ inner, after.Grants arity other.source) := by
  induction terms generalizing draft index with
  | nil => exact ⟨[], .nil draft, nofun⟩
  | cons term rest ih =>
      rw [List.length_cons] at inside
      refine (matchArgument_plans index term).loosen.bind ?_
      rintro first middle ⟨text, matched⟩
      have here : index < arity := by omega
      obtain ⟨plays, grants⟩ := matched.plays atomic laid here
      refine Plans.bind (ih (plays.laid laid) (by omega)) ?_
      rintro others after ⟨more, later, grantsLater⟩
      refine ⟨text ++ more, plays.append later, ?_⟩
      intro other member
      rcases List.mem_append.mp member with old | new
      · exact (grants other old).later later.toLater
      · exact grantsLater other new

/-- A variable that is the last argument, and in no other, takes it. -/
theorem matchArguments_takes {index : Nat} {earlier : List Term}
    {name : String} (named : name ≠ Term.anonymous) (atomic : naming.Atomic)
    (laid : draft.Laid) (unknown : draft.slots.lookup name = none)
    (absent : name ∉ Term.varsOf earlier)
    (inside : index + earlier.length < arity) :
    Plans (matchArguments index (earlier ++ [.var name])) draft naming False
      (fun inner after => ∃ text, draft.Plays arity text after ∧
        draft.Takes arity name (index + earlier.length) text after ∧
        ∀ other ∈ inner, after.Grants arity other.source) := by
  induction earlier generalizing draft index with
  | nil =>
      refine (matchArgument_plans index (.var name)).loosen.bind ?_
      rintro first middle ⟨text, matched⟩
      obtain ⟨plays, grants⟩ := matched.plays atomic laid inside
      refine Plans.bind Plans.returned ?_
      rintro _ _ ⟨rfl, rfl⟩
      rw [List.append_nil]
      refine ⟨text, plays, ?_, grants⟩
      cases matched with
      | void => exact absurd rfl named
      | first =>
          have takes : draft.Takes arity name index _ _ :=
            .intro (.nil draft) unknown (.nil _)
          rwa [List.append_nil, List.nil_append] at takes
      | again _ known =>
          rw [unknown] at known
          cases known
      | constant decided =>
          simp only [Shape.of] at decided
          split at decided <;> cases decided
      | compound decided =>
          simp only [Shape.of] at decided
          split at decided <;> cases decided
  | cons term rest ih =>
      rw [List.length_cons] at inside
      rw [Term.varsOf, List.mem_append, not_or] at absent
      refine (matchArgument_plans index term).loosen.bind ?_
      rintro first middle ⟨text, matched⟩
      have here : index < arity := by omega
      obtain ⟨plays, grants⟩ := matched.plays atomic laid here
      refine Plans.bind (ih (plays.laid laid)
        (unnamed_matchesArgument matched unknown absent.1).1 absent.2
        (by omega)) ?_
      rintro others after ⟨more, later, takes, grantsLater⟩
      have position : index + (term :: rest).length =
          index + 1 + rest.length := by
        rw [List.length_cons]
        omega
      refine ⟨text ++ more, plays.append later, ?_, ?_⟩
      · rw [position]
        exact takes.prepend plays
      · intro other member
        rcases List.mem_append.mp member with old | new
        · exact (grants other old).later later.toLater
        · exact grantsLater other new

theorem matchPostponed_plays (count : Nat) {patterns : List Pattern}
    (atomic : naming.Atomic) (laid : draft.Laid)
    (grants : ∀ other ∈ patterns, draft.Grants arity other.source) :
    Plans (matchPostponed count patterns) draft naming False
      (fun _ after => ∃ text, draft.Plays arity text after) := by
  induction count generalizing draft patterns with
  | zero =>
      cases patterns with
      | nil => exact ⟨[], .nil draft⟩
      | cons pattern rest => exact fun _ => id
  | succ count ih =>
      cases patterns with
      | nil => exact ⟨[], .nil draft⟩
      | cons pattern rest =>
          refine (matchPattern_plans pattern).loosen.bind ?_
          rintro inner middle ⟨text, ⟨matched⟩⟩
          obtain ⟨plays, inside⟩ := matched.plays atomic laid
            (grants pattern List.mem_cons_self)
          refine Plans.imp (ih (plays.laid laid) ?_) id ?_
          · intro other member
            rcases List.mem_append.mp member with old | new
            · exact (grants other (List.mem_cons_of_mem _ old)).later
                plays.toLater
            · exact inside other new
          · rintro _ after ⟨more, later⟩
            exact ⟨text ++ more, plays.append later⟩

omit [Atoms] in
theorem matchArguments_unnamed {index : Nat} {terms : List Term}
    {name : String} (unknown : draft.slots.lookup name = none)
    (absent : name ∉ Term.varsOf terms) :
    Plans (matchArguments index terms) draft naming False
      (fun inner after => after.slots.lookup name = none ∧
        ∀ other ∈ inner, name ∉ Term.varsOf other.args) := by
  induction terms generalizing draft index with
  | nil => exact ⟨unknown, nofun⟩
  | cons term rest ih =>
      rw [Term.varsOf, List.mem_append, not_or] at absent
      refine (matchArgument_plans index term).loosen.bind ?_
      rintro first middle ⟨text, matched⟩
      obtain ⟨kept, inside⟩ := unnamed_matchesArgument matched unknown absent.1
      refine Plans.bind (ih kept absent.2) ?_
      rintro others after ⟨later, more⟩
      refine ⟨later, fun other member => ?_⟩
      rcases List.mem_append.mp member with old | new
      · exact inside other old
      · exact more other new

omit [Atoms] in
theorem matchPostponed_unnamed (count : Nat) {patterns : List Pattern}
    {name : String} (unknown : draft.slots.lookup name = none)
    (absent : ∀ other ∈ patterns, name ∉ Term.varsOf other.args) :
    Plans (matchPostponed count patterns) draft naming False
      (fun _ after => after.slots.lookup name = none) := by
  induction count generalizing draft patterns with
  | zero =>
      cases patterns with
      | nil => exact unknown
      | cons pattern rest => exact fun _ => id
  | succ count ih =>
      cases patterns with
      | nil => exact unknown
      | cons pattern rest =>
          refine (matchPattern_plans pattern).loosen.bind ?_
          rintro inner middle ⟨text, ⟨matched⟩⟩
          obtain ⟨kept, inside⟩ :=
            unnamed_matches matched unknown (absent pattern List.mem_cons_self)
          refine Plans.imp (ih kept ?_) id fun _ _ => id
          intro other member
          rcases List.mem_append.mp member with old | new
          · exact absent other (List.mem_cons_of_mem _ old)
          · exact inside other new

omit [Atoms] in
/-- The head names its own variables only. -/
theorem compileHead_unnamed {head : Goal} {name : String}
    (unknown : draft.slots.lookup name = none)
    (absent : name ∉ Term.varsOf head.args) :
    Plans (compileHead head) draft naming False
      (fun _ after => after.slots.lookup name = none) :=
  (matchArguments_unnamed unknown absent).bind fun _ _ ⟨kept, inside⟩ =>
    matchPostponed_unnamed _ kept inside

/-- The last argument of the head is a variable that is in no other. -/
structure EndsWith (head : Goal) (earlier : List Term) (name : String) :
    Prop where
  args : head.args = earlier ++ [.var name]
  named : name ≠ Term.anonymous
  absent : name ∉ Term.varsOf earlier

theorem compileHead_plays (head : Goal) (atomic : naming.Atomic)
    (laid : draft.Laid) :
    Plans (compileHead head) draft naming False
      (fun _ after => ∃ text, draft.Plays head.arity text after ∧
        ∀ earlier name, EndsWith head earlier name →
          draft.slots.lookup name = none →
            draft.Takes head.arity name earlier.length text after) := by
  by_cases ending : ∃ earlier name, EndsWith head earlier name ∧
    draft.slots.lookup name = none
  · obtain ⟨earlier, name, ⟨args, named, absent⟩, unknown⟩ := ending
    have inside : 0 + earlier.length < head.arity := by
      rw [Goal.arity, args, List.length_append, List.length_singleton]
      omega
    have opens := @matchArguments_takes _ draft naming _ 0 _ _ named atomic laid
      unknown absent inside
    rw [← args] at opens
    refine opens.bind ?_
    rintro patterns middle ⟨text, plays, takes, grants⟩
    refine (matchPostponed_plays _ atomic (plays.laid laid) grants).imp id ?_
    rintro _ after ⟨more, later⟩
    refine ⟨text ++ more, plays.append later, ?_⟩
    rintro others other ⟨same, -, -⟩ -
    obtain ⟨rfl, isName⟩ := List.append_inj' (args.symm.trans same) rfl
    cases isName
    rw [Nat.zero_add] at takes
    exact takes.append later
  · refine (matchArguments_plays atomic laid (Nat.le_of_eq (Nat.zero_add _))).bind ?_
    rintro patterns middle ⟨text, plays, grants⟩
    refine (matchPostponed_plays _ atomic (plays.laid laid) grants).imp id ?_
    rintro _ after ⟨more, later⟩
    exact ⟨text ++ more, plays.append later, fun earlier name ends unknown =>
      absurd ⟨earlier, name, ends, unknown⟩ ending⟩

end ClauseM

end LogicMachine
