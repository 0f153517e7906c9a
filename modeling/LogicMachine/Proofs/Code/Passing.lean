import Mathlib.Data.List.Forall2
import LogicMachine.Proofs.Code.HeadFlow

/-!
# Texts that paths pass through

Whatever the compiler writes uses slots and arguments that exist, makes the calls
of its goals in order, and leads every path from the slots stored before it to
those stored after it.
-/

namespace LogicMachine

/-- The instruction works on a slot of the activation record. -/
def Opcode.usesSlot : Opcode → Bool
  | .loadLocal | .storeLocal | .loadLocalAddress => true
  | _ => false

namespace Item

/-- The item is an instruction with the operand it takes, on a slot or an
argument that exists. -/
def Allowed (locals arity : Nat) : Item → Prop
  | .plain opcode => opcode.hasOperand = false
  | .operand opcode value =>
      opcode.hasOperand = true ∧ opcode.isRelative = false ∧
        (opcode.usesSlot = true → value.toNat < locals) ∧
        (opcode = .loadArgumentAddress → value.toNat < arity)
  | .branch opcode _ => opcode.isRelative = true
  | .mark _ => True

section Allowed

variable {locals arity : Nat}

theorem Allowed.mono {item : Item} {more : Nat}
    (allowed : item.Allowed locals arity) (le : locals ≤ more) :
    item.Allowed more arity := by
  cases item with
  | operand opcode value =>
      obtain ⟨operand, relative, slot, argument⟩ := allowed
      exact ⟨operand, relative, fun uses => Nat.lt_of_lt_of_le (slot uses) le,
        argument⟩
  | _ => exact allowed

@[simp]
theorem allowed_plain {opcode : Opcode} :
    (Item.plain opcode).Allowed locals arity ↔ opcode.hasOperand = false :=
  Iff.rfl

@[simp]
theorem allowed_branch {opcode : Opcode} {label : Label} :
    (Item.branch opcode label).Allowed locals arity ↔
      opcode.isRelative = true :=
  Iff.rfl

@[simp]
theorem allowed_mark {label : Label} :
    (Item.mark label).Allowed locals arity :=
  trivial

@[simp]
theorem allowed_loadConstant {value : UInt32} :
    (Item.operand .loadConstant value).Allowed locals arity :=
  ⟨rfl, rfl, nofun, nofun⟩

theorem allowed_onLocal {opcode : Opcode} {slot : Local}
    (uses : opcode.usesSlot = true) (inside : slot.index < locals) :
    (Item.onLocal opcode slot).Allowed locals arity := by
  have small : slot.index.toUInt32.toNat < locals :=
    Nat.lt_of_le_of_lt (Nat.mod_le slot.index (2 ^ 32)) inside
  unfold Opcode.usesSlot at uses
  split at uses
  case h_4 => cases uses
  all_goals exact ⟨rfl, rfl, fun _ => small, nofun⟩

@[simp]
theorem allowed_loadLocal {slot : Local} (inside : slot.index < locals) :
    (Item.onLocal .loadLocal slot).Allowed locals arity :=
  allowed_onLocal rfl inside

@[simp]
theorem allowed_storeLocal {slot : Local} (inside : slot.index < locals) :
    (Item.onLocal .storeLocal slot).Allowed locals arity :=
  allowed_onLocal rfl inside

@[simp]
theorem allowed_loadLocalAddress {slot : Local} (inside : slot.index < locals) :
    (Item.onLocal .loadLocalAddress slot).Allowed locals arity :=
  allowed_onLocal rfl inside

end Allowed

end Item

/-- Every item of the text is allowed. -/
def AllAllowed (locals arity : Nat) (items : List Item) : Prop :=
  ∀ item ∈ items, item.Allowed locals arity

attribute [local simp] Opcode.hasOperand Opcode.isRelative

section Pieces

variable {locals arity : Nat}

@[simp]
theorem allAllowed_nil : AllAllowed locals arity [] := nofun

@[simp]
theorem allAllowed_cons {item : Item} {rest : List Item} :
    AllAllowed locals arity (item :: rest) ↔
      item.Allowed locals arity ∧ AllAllowed locals arity rest :=
  List.forall_mem_cons

@[simp]
theorem allAllowed_append {first second : List Item} :
    AllAllowed locals arity (first ++ second) ↔
      AllAllowed locals arity first ∧ AllAllowed locals arity second :=
  List.forall_mem_append

theorem AllAllowed.flatMap {α : Type} {text : α → List Item}
    {values : List α}
    (each : ∀ value ∈ values, AllAllowed locals arity (text value)) :
    AllAllowed locals arity (values.flatMap text) := by
  intro item member
  obtain ⟨value, inside, here⟩ := List.mem_flatMap.mp member
  exact each value inside item here

theorem AllAllowed.mono {items : List Item} {more : Nat}
    (allowed : AllAllowed locals arity items) (le : locals ≤ more) :
    AllAllowed more arity items :=
  fun item member => (allowed item member).mono le

@[simp]
theorem allAllowed_claimCell : AllAllowed locals arity Item.claimCell := by
  simp [Item.claimCell, Item.top]

@[simp]
theorem allAllowed_claimHeader (functor : FunctorId) :
    AllAllowed locals arity (Item.claimHeader functor) := by
  simp [Item.claimHeader, Item.top]

@[simp]
theorem allAllowed_constant (functor : FunctorId) :
    AllAllowed locals arity (Item.constant functor) := by
  simp [Item.constant]

theorem allAllowed_freshVariable {slot : Option Local}
    (inside : ∀ given, slot = some given → given.index < locals) :
    AllAllowed locals arity (Item.freshVariable slot) := by
  cases slot with
  | none => simp [Item.freshVariable, Item.top]
  | some slot =>
      simp [Item.freshVariable, Item.top, inside slot rfl]

end Pieces

/-! ## Matches -/

namespace Source

/-- The source is an argument or a slot that exists. -/
def Inside (locals arity : Nat) : Source → Prop
  | .argument index => index < arity
  | .slot place | .cursor place => place.index < locals

theorem allowed {locals arity : Nat} {source : Source}
    (inside : source.Inside locals arity) :
    source.item.Allowed locals arity := by
  cases source with
  | argument index =>
      exact ⟨rfl, rfl, nofun, fun _ =>
        Nat.lt_of_le_of_lt (Nat.mod_le index (2 ^ 32)) inside⟩
  | slot place => exact Item.allowed_onLocal rfl inside
  | cursor place => exact Item.allowed_onLocal rfl inside

end Source

namespace Slot

/-- The slot of the activation record exists. -/
def Inside (locals : Nat) : Slot → Prop
  | .first slot | .again slot | .nested slot _ _ => slot.index < locals
  | .void | .constant _ _ _ => True

end Slot

namespace Pattern

variable {locals arity : Nat} {subject cursor : Local}

theorem allAllowed_takeVariable {source : Source} {slot : Local}
    (inside : source.Inside locals arity) (small : slot.index < locals) :
    AllAllowed locals arity (takeVariable source slot) := by
  simp [takeVariable, Source.allowed inside, small]

theorem allAllowed_unifyValue {source : Source} {slot : Local}
    (inside : source.Inside locals arity) (small : slot.index < locals) :
    AllAllowed locals arity (unifyValue source slot) := by
  simp [unifyValue, Source.allowed inside, small]

theorem allAllowed_compareTag (small : subject.index < locals) (tag : Tag) :
    AllAllowed locals arity (compareTag subject tag) := by
  simp [compareTag, small]

theorem allAllowed_takeSubject {source : Source}
    (inside : source.Inside locals arity) (small : subject.index < locals) :
    AllAllowed locals arity (takeSubject source subject) := by
  simp [takeSubject, Source.allowed inside, small]

theorem allAllowed_matchConstant {source : Source}
    (inside : source.Inside locals arity) (small : subject.index < locals)
    (functor : FunctorId) (read done : Label) :
    AllAllowed locals arity
      (matchConstant source subject functor read done) := by
  simp [matchConstant, allAllowed_takeSubject inside small,
    allAllowed_compareTag small, small]

theorem allAllowed_advance (small : cursor.index < locals) :
    AllAllowed locals arity (advance cursor) := by
  simp [advance, small]

theorem allAllowed_writeSlot {slot : Slot} (inside : slot.Inside locals) :
    AllAllowed locals arity (writeSlot slot) := by
  cases slot with
  | void =>
      exact @allAllowed_freshVariable _ _ none nofun
  | first slot | nested slot =>
      refine @allAllowed_freshVariable _ _ (some slot) ?_
      rintro given ⟨⟩
      exact inside
  | again slot =>
      have small : slot.index < locals := inside
      simp [writeSlot, Item.top, small]
  | constant => simp [writeSlot, Item.top]

theorem allAllowed_readSlot {slot : Slot} (first : subject.index < locals)
    (second : cursor.index < locals) (inside : slot.Inside locals) :
    AllAllowed locals arity (readSlot subject cursor slot) := by
  have source : (Source.cursor cursor).Inside locals arity := second
  cases slot with
  | void => exact allAllowed_nil
  | first slot | nested slot => exact allAllowed_takeVariable source inside
  | again slot => exact allAllowed_unifyValue source inside
  | constant => exact allAllowed_matchConstant source first _ _ _

theorem allAllowed_readSlots {slots : List Slot}
    (first : subject.index < locals) (second : cursor.index < locals)
    (inside : ∀ slot ∈ slots, slot.Inside locals) :
    AllAllowed locals arity (readSlots subject cursor slots) := by
  induction slots with
  | nil => exact allAllowed_nil
  | cons slot rest ih =>
      rw [readSlots_cons, allAllowed_append, allAllowed_append]
      refine ⟨⟨allAllowed_readSlot first second
        (inside slot List.mem_cons_self), ?_⟩,
        ih fun other member => inside other (List.mem_cons_of_mem _ member)⟩
      split
      · exact allAllowed_nil
      · exact allAllowed_advance second

theorem allAllowed_matchCompound {source : Source} {slots : List Slot}
    (given : source.Inside locals arity) (first : subject.index < locals)
    (second : cursor.index < locals)
    (inside : ∀ slot ∈ slots, slot.Inside locals)
    (functor : Option FunctorId) (read fail done : Label) :
    AllAllowed locals arity
      (matchCompound source subject cursor functor slots read fail done) := by
  have written : AllAllowed locals arity (slots.flatMap writeSlot) :=
    .flatMap fun slot member => allAllowed_writeSlot (inside slot member)
  have compared := @allAllowed_readSlots _ arity _ _ _ first second inside
  cases functor <;>
    simp [matchCompound, writeCompound, readCompound, readHeader, Item.top,
      allAllowed_takeSubject given first,
      allAllowed_compareTag first, allAllowed_advance second, written, compared,
      first, second]

end Pattern

/-! ## Texts with calls -/

theorem countP_linesOf (place : Label → Nat) (position : Nat)
    (items : List Item) :
    (linesOf place position items).countP CodeLine.isCall =
      (items.filter Item.isCall).length := by
  induction items generalizing position with
  | nil => rfl
  | cons item rest ih =>
      cases item <;>
        simp [linesOf, List.countP_cons, List.filter_cons, ih,
          CodeLine.isCall, CodeLine.opcode?, Item.isCall]
      all_goals split <;> simp_all

/-- The text makes the calls of given goals, and leads every path from one kind
of counts to another. -/
def Routine.Performs (routine : Routine) (place : Label → Nat)
    (before : Ledger → Prop) (goals : List Goal) (items : List Item)
    (after : Ledger → Prop) : Prop :=
  ∀ past, routine.Continues place past items →
    goals <+: routine.calls.drop (past.countP CodeLine.isCall) →
    (∀ ledger, after ledger →
      (ledger.depth : Int) =
        routine.level (past ++ linesOf place (codeSize past) items) →
      routine.Safe
        ⟨ledger, (past ++ linesOf place (codeSize past) items).length⟩) →
    ∀ ledger, before ledger → (ledger.depth : Int) = routine.level past →
      routine.Safe ⟨ledger, past.length⟩

namespace Routine

variable {routine : Routine} {place : Label → Nat}
  {before middle after : Ledger → Prop} {items more : List Item}

theorem Carries.performs (carries : routine.Carries place before items after) :
    routine.Performs place before [] items after :=
  fun past continues _ => carries past continues

theorem Performs.append {goals others : List Goal}
    (first : routine.Performs place before goals items middle)
    (count : (items.filter Item.isCall).length = goals.length)
    (second : routine.Performs place middle others more after) :
    routine.Performs place before (goals ++ others) (items ++ more) after := by
  intro past continues calls next ledger starts level
  obtain ⟨here, there⟩ := continues.append
  have later : others <+: routine.calls.drop
      ((past ++ linesOf place (codeSize past) items).countP
        CodeLine.isCall) := by
    rw [List.countP_append, countP_linesOf, count, ← List.drop_drop]
    obtain ⟨rest, split⟩ := calls
    rw [← split, List.append_assoc, List.drop_left]
    exact List.prefix_append _ _
  refine first past here ((List.prefix_append _ _).trans calls)
    (fun middle reached flat => ?_) ledger starts level
  refine second _ there later (fun last final => ?_) middle reached flat
  rw [codeSize_append, codeSize_linesOf, List.append_assoc, ← linesOf_append]
  exact next last final

end Routine

/-- The item calls the predicate of a goal. -/
def Item.Calls (naming : Naming) (item : Item) (goal : Goal) : Prop :=
  ∃ entry, naming.start? (.ofGoal goal) = some entry ∧
    item = .operand .call entry.toUInt32

namespace Draft

open Ledger

/-- A text that was written for the calls of given goals. -/
structure Passes (naming : Naming) (arity : Nat) (before : Draft)
    (goals : List Goal) (text : List Item) (after : Draft) : Prop
    extends before.Later after where
  writes : ∃ bound, before.Writes bound text after
  grows : before.assembler.locals ≤ after.assembler.locals
  keeps : before.filled ⊆ after.filled
  allowed : AllAllowed after.assembler.locals arity text
  calls : List.Forall₂ (Item.Calls naming) (text.filter Item.isCall) goals
  performs : ∀ (routine : Routine) (place : Label → Nat),
    codeSize routine.lines < 2 ^ 31 →
      routine.Performs place (Knows before.filled) goals text
        (Knows after.filled)

namespace Passes

variable {naming : Naming} {arity : Nat} {first second third : Draft}
  {goals others : List Goal} {text more : List Item}

theorem nil (draft : Draft) : draft.Passes naming arity [] [] draft where
  toLater := .refl draft
  writes := ⟨0, .nil draft⟩
  grows := Nat.le_refl _
  keeps := fun _ => id
  allowed := allAllowed_nil
  calls := .nil
  performs := fun _ _ _ => (Routine.Carries.nil fun _ => id).performs

theorem append (left : first.Passes naming arity goals text second)
    (right : second.Passes naming arity others more third) :
    first.Passes naming arity (goals ++ others) (text ++ more) third where
  toLater := left.toLater.trans right.toLater
  writes := by
    obtain ⟨few, writes⟩ := left.writes
    obtain ⟨many, later⟩ := right.writes
    exact ⟨_, writes.append later⟩
  grows := Nat.le_trans left.grows right.grows
  keeps := left.keeps.trans right.keeps
  allowed := allAllowed_append.mpr ⟨left.allowed.mono right.grows, right.allowed⟩
  calls := by
    rw [List.filter_append]
    exact List.rel_append left.calls right.calls
  performs := fun routine place small =>
    (left.performs routine place small).append left.calls.length_eq
      (right.performs routine place small)

/-- A text without calls. -/
theorem of_carries (later : first.Later second)
    (writes : ∃ bound, first.Writes bound text second)
    (grows : first.assembler.locals ≤ second.assembler.locals)
    (keeps : first.filled ⊆ second.filled)
    (allowed : AllAllowed second.assembler.locals arity text)
    (noCall : ∀ item ∈ text, item.isCall = false)
    (carries : ∀ (routine : Routine) (place : Label → Nat),
      codeSize routine.lines < 2 ^ 31 →
        routine.Carries place (Knows first.filled) text
          (Knows second.filled)) :
    first.Passes naming arity [] text second where
  toLater := later
  writes := writes
  grows := grows
  keeps := keeps
  allowed := allowed
  calls := by
    have none : text.filter Item.isCall = [] := by
      rw [List.filter_eq_nil_iff]
      intro item member
      rw [noCall item member]
      exact Bool.false_ne_true
    rw [none]
    exact .nil
  performs := fun routine place small => (carries routine place small).performs

end Passes

end Draft

open Ledger Draft

/-! ## The head -/

theorem Draft.keeps_withLocal (draft : Draft) :
    draft.filled ⊆ draft.withLocal.filled :=
  fun _ ⟨inside, apart⟩ => ⟨Nat.lt_succ_of_lt inside, apart⟩

namespace Slot

variable {naming : Naming} {draft after : Draft}

theorem Planned.keeps {term : Term} {slot : Slot}
    (planned : Planned naming draft term slot after) :
    draft.filled ⊆ after.filled := by
  cases planned with
  | void | again => exact fun _ => id
  | first | nested => exact draft.keeps_withLocal
  | constant => exact fun _ => id

theorem PlannedAll.keeps {terms : List Term} {slots : List Slot}
    (planned : PlannedAll naming draft terms slots after) :
    draft.filled ⊆ after.filled := by
  induction planned with
  | nil => exact fun _ => id
  | cons first _ ih => exact first.keeps.trans ih

theorem Inside.mono {slot : Slot} {few many : Nat} (inside : slot.Inside few)
    (le : few ≤ many) : slot.Inside many := by
  cases slot with
  | void | constant => trivial
  | first | again | nested => exact Nat.lt_of_lt_of_le inside le

theorem Planned.inside {term : Term} {slot : Slot}
    (planned : Planned naming draft term slot after) (laid : draft.Laid) :
    slot.Inside after.assembler.locals := by
  cases planned with
  | void | constant => trivial
  | first | nested => exact Nat.lt_succ_self _
  | again _ known => exact (laid.named _ _ known).inside

theorem PlannedAll.inside {terms : List Term} {slots : List Slot}
    (planned : PlannedAll naming draft terms slots after) (laid : draft.Laid) :
    ∀ slot ∈ slots, slot.Inside after.assembler.locals := by
  induction planned with
  | nil => nofun
  | cons first rest ih =>
      intro slot member
      rcases List.mem_cons.mp member with rfl | other
      · exact (first.inside laid).mono rest.reserves.locals
      · exact ih ((Later.planned first).laid laid) slot other

/-- The slots of compounds that are put off are stored. -/
theorem PlannedAll.postponed_filled {terms : List Term} {slots : List Slot}
    (planned : PlannedAll naming draft terms slots after) (laid : draft.Laid) :
    ∀ place functor args, .nested place functor args ∈ slots →
      place ∈ after.filled := by
  induction planned with
  | nil => nofun
  | cons first rest ih =>
      intro place functor args member
      rcases List.mem_cons.mp member with same | other
      · cases first <;> cases same
        exact rest.keeps (Later.owns_next laid).filled
      · exact ih ((Later.planned first).laid laid) place functor args other

end Slot

/-- A compound of the head is found in an argument or in a slot that has been
stored. -/
def Pattern.Found (arity : Nat) (draft : Draft) (pattern : Pattern) : Prop :=
  match pattern.source with
  | .argument index => index < arity
  | .slot place => place ∈ draft.filled
  | .cursor _ => False

namespace Pattern.Found

variable {arity : Nat} {draft after : Draft} {pattern : Pattern}

theorem mono (found : pattern.Found arity draft)
    (keeps : draft.filled ⊆ after.filled) : pattern.Found arity after := by
  unfold Found at *
  split at found
  · exact found
  · exact keeps found
  · exact found.elim

theorem ready (found : pattern.Found arity draft) :
    pattern.source.Ready draft.filled := by
  unfold Found at found
  split at found <;> rename_i same <;> rw [same]
  · trivial
  · exact found
  · exact found.elim

theorem inside (found : pattern.Found arity draft) :
    pattern.source.Inside draft.assembler.locals arity := by
  unfold Found at found
  split at found <;> rename_i same <;> rw [same]
  · exact found
  · exact found.1
  · exact found.elim

end Pattern.Found

namespace ClauseM

variable {draft : Draft} {naming : Naming} {arity : Nat}

theorem Works.inside {subject cursor : Local} {ready : Draft}
    (works : Works draft (subject, cursor) ready) (laid : draft.Laid) :
    subject.index < ready.assembler.locals ∧
      cursor.index < ready.assembler.locals := by
  obtain ⟨later, known⟩ := Later.works works
  obtain ⟨first, second, -⟩ := (later.laid laid).working _ _ known
  exact ⟨first, second⟩

theorem Matches.passes {pattern : Pattern} {text : List Item}
    {inner : List Pattern} {after : Draft}
    (matched : Matches naming draft pattern text inner after)
    (laid : draft.Laid) (found : pattern.Found arity draft) :
    draft.Passes naming arity [] text after ∧
      ∀ other ∈ inner, other.Found arity after := by
  obtain ⟨bound, writes, -⟩ := matched.writes
  obtain ⟨subject, cursor, ready, slots, reserved, functor, works, planned,
    -, rfl, rfl, rfl⟩ := matched
  obtain ⟨starts, known⟩ := Later.works works
  have readyLaid := starts.laid laid
  have same := filled_works works
  have plans := Later.plannedAll planned
  have grows := Nat.le_trans works.reserves.locals planned.reserves.locals
  have labelled : reserved.Later reserved.withLabel.withLabel.withLabel :=
    (Later.withLabel _).trans ((Later.withLabel _).trans (.withLabel _))
  obtain ⟨first, second⟩ := works.inside laid
  refine ⟨.of_carries
    (starts.trans (plans.trans (labelled.trans (.emitted _ _))))
    ⟨bound, writes⟩ ?_ ?_ ?_ ?_ ?_, ?_⟩
  · rw [locals_emitted]
    exact grows
  · rw [filled_emitted, ← same]
    exact planned.keeps
  · rw [locals_emitted]
    have bounds := planned.reserves.locals
    refine Pattern.allAllowed_matchCompound ?_ (Nat.lt_of_lt_of_le first bounds)
      (Nat.lt_of_lt_of_le second bounds) (planned.inside readyLaid) _ _ _ _
    have inside := found.inside
    cases isSource : pattern.source <;> rw [isSource] at inside
    · exact inside
    · exact Nat.lt_of_lt_of_le inside grows
    · exact Nat.lt_of_lt_of_le inside grows
  · exact (Pattern.balanced_matchCompound _ _ _ _ _ _ _ _).noCall
  · intro routine place small
    rw [filled_emitted, ← same]
    exact Pattern.carries_matchCompound small (same ▸ found.ready) _ _ _ planned
      readyLaid _ _ _
  · intro other member
    obtain ⟨slot, inside, isPattern⟩ := List.mem_filterMap.mp member
    cases slot with
    | nested place functor args =>
        cases isPattern
        have stored := planned.postponed_filled readyLaid place functor args
          inside
        show place ∈ (Draft.emitted _ _).filled
        rw [filled_emitted]
        exact stored
    | _ => cases isPattern

theorem MatchesArgument.passes {index : Nat} {term : Term}
    {text : List Item} {inner : List Pattern} {after : Draft}
    (matched : MatchesArgument naming draft index term text inner after)
    (laid : draft.Laid) (inside : index < arity) :
    draft.Passes naming arity [] text after ∧
      ∀ other ∈ inner, other.Found arity after := by
  obtain ⟨bound, writes, -⟩ := matched.writes
  have found : (Source.argument index).Ready draft.filled := trivial
  have given (locals : Nat) : (Source.argument index).Inside locals arity :=
    inside
  cases matched with
  | void => exact ⟨.nil draft, nofun⟩
  | first _ unknown =>
      refine ⟨.of_carries ((Later.withVariable unknown).trans (.emitted _ _))
        ⟨bound, writes⟩ ?_ ?_ ?_ ?_ ?_, nofun⟩
      · rw [locals_emitted]
        exact Nat.le_succ _
      · rw [filled_emitted]
        exact draft.keeps_withLocal
      · rw [locals_emitted]
        exact Pattern.allAllowed_takeVariable (given _) (Nat.lt_succ_self _)
      · exact (Balanced.of_check rfl rfl).noCall
      · intro routine place _
        rw [filled_emitted]
        refine (Pattern.carries_takeVariable found _).imp (fun _ => id) ?_
        exact fun _ knows => knows.mono (filled_withVariable draft _)
  | again _ known =>
      have owned := laid.named _ _ known
      refine ⟨.of_carries (.emitted draft _) ⟨bound, writes⟩ ?_ ?_ ?_ ?_ ?_,
        nofun⟩
      · rw [locals_emitted]
      · rw [filled_emitted]
      · rw [locals_emitted]
        exact Pattern.allAllowed_unifyValue (given _) owned.inside
      · exact (Balanced.of_check rfl rfl).noCall
      · intro routine place _
        rw [filled_emitted]
        exact Pattern.carries_unifyValue found owned.filled
  | @constant _ _ _ subject _ ready _ _ works =>
      obtain ⟨starts, known⟩ := Later.works works
      have same := filled_works works
      obtain ⟨first, -⟩ := works.inside laid
      refine ⟨.of_carries (starts.trans (((Later.withLabel ready).trans
        (Later.withLabel _)).trans (Later.emitted _ _))) ⟨bound, writes⟩ ?_ ?_
        ?_ ?_ ?_, nofun⟩
      · rw [locals_emitted]
        exact works.reserves.locals
      · rw [filled_emitted]
        exact same.ge
      · rw [locals_emitted]
        exact Pattern.allAllowed_matchConstant (given _) first _ _ _
      · exact (Pattern.balanced_matchConstant _ _ _ _ _).noCall
      · intro routine place small
        rw [filled_emitted, filled_withLabel, filled_withLabel, same]
        exact Pattern.carries_matchConstant small found _ _ _ _
  | compound _ matched =>
      obtain ⟨matched⟩ := matched
      exact matched.passes laid inside

theorem matchArguments_passes {index : Nat} {terms : List Term}
    (laid : draft.Laid) (inside : index + terms.length ≤ arity) :
    Plans (matchArguments index terms) draft naming False
      (fun inner after => ∃ text, draft.Passes naming arity [] text after ∧
        ∀ other ∈ inner, other.Found arity after) := by
  induction terms generalizing draft index with
  | nil => exact ⟨[], .nil draft, nofun⟩
  | cons term rest ih =>
      rw [List.length_cons] at inside
      refine (matchArgument_plans index term).loosen.bind ?_
      rintro first middle ⟨text, matched⟩
      have here : index < arity := by omega
      obtain ⟨passes, found⟩ := matched.passes laid here
      refine Plans.bind (ih (passes.laid laid) (by omega)) ?_
      rintro others after ⟨more, later, foundLater⟩
      refine ⟨text ++ more, passes.append later, ?_⟩
      intro other member
      rcases List.mem_append.mp member with old | new
      · exact (found other old).mono later.keeps
      · exact foundLater other new

theorem matchPostponed_passes (count : Nat) {patterns : List Pattern}
    (laid : draft.Laid)
    (found : ∀ other ∈ patterns, other.Found arity draft) :
    Plans (matchPostponed count patterns) draft naming False
      (fun _ after => ∃ text, draft.Passes naming arity [] text after) := by
  induction count generalizing draft patterns with
  | zero =>
      cases patterns with
      | nil => exact ⟨[], .nil draft⟩
      | cons pattern rest => exact fun _ => id
  | succ count ih =>
      cases patterns with
      | nil => exact ⟨[], .nil draft⟩
      | cons pattern rest =>
          refine (matchPattern_plans pattern).loosen.bind ?_
          rintro inner middle ⟨text, ⟨matched⟩⟩
          obtain ⟨passes, inside⟩ := matched.passes laid
            (found pattern List.mem_cons_self)
          refine Plans.imp (ih (passes.laid laid) ?_) id ?_
          · intro other member
            rcases List.mem_append.mp member with old | new
            · exact (found other (List.mem_cons_of_mem _ old)).mono passes.keeps
            · exact inside other new
          · rintro _ after ⟨more, later⟩
            exact ⟨text ++ more, passes.append later⟩

theorem compileHead_passes (head : Goal) (laid : draft.Laid) :
    Plans (compileHead head) draft naming False
      (fun _ after => ∃ text,
        draft.Passes naming head.arity [] text after) := by
  refine (matchArguments_passes laid (Nat.le_of_eq (Nat.zero_add _))).bind ?_
  rintro patterns middle ⟨text, passes, found⟩
  refine (matchPostponed_passes _ (passes.laid laid) found).imp id ?_
  rintro _ after ⟨more, later⟩
  exact ⟨text ++ more, passes.append later⟩

end ClauseM

end LogicMachine
