import LogicMachine.Proofs.Code.Passing

/-!
# Control flow through the goals of a clause

The text of a goal builds the arguments in slots of their own, pushes them and
makes the call, which takes them all.  A cut loads the slot that was stored when
the clause was entered.
-/

namespace LogicMachine

open Ledger Draft

/-! ## Building terms -/

namespace Built

/-- The built term is a constant or in a slot that has been stored. -/
def Stored (known : Set Local) : Built → Prop
  | .slot place => place ∈ known
  | .constant _ => True

variable {known : Set Local} {value : Built}

theorem Stored.mono {more : Set Local} (stored : value.Stored known)
    (sub : known ⊆ more) : value.Stored more := by
  cases value with
  | slot place => exact sub stored
  | constant => trivial

theorem thenAll_push {depth : Nat} {slots : List Nat}
    (stored : ∀ slot ∈ known, slot.index.toUInt32.toNat ∈ slots)
    (holds : value.Stored known) {wanted : Ledger → Prop} {rest : List Item}
    (next : ThenAll ⟨depth + 1, slots⟩ wanted rest) :
    ThenAll ⟨depth, slots⟩ wanted (value.push ++ rest) := by
  cases value with
  | slot place => exact thenAll_loadLocal (.inl rfl) (stored place holds) next
  | constant functor => exact thenAll_constant next

theorem thenAll_pushAll {values : List Built} {depth : Nat}
    {slots : List Nat}
    (stored : ∀ slot ∈ known, slot.index.toUInt32.toNat ∈ slots)
    (holds : ∀ value ∈ values, value.Stored known) :
    ThenAll ⟨depth, slots⟩ (· = ⟨depth + values.length, slots⟩)
      (values.flatMap push) := by
  induction values generalizing depth with
  | nil => rfl
  | cons value rest ih =>
      rw [List.flatMap_cons]
      refine thenAll_push stored (holds value List.mem_cons_self) ?_
      have later := @ih (depth + 1) fun other member =>
        holds other (List.mem_cons_of_mem _ member)
      rw [Nat.add_right_comm depth 1] at later
      exact later

theorem carries_write {routine : Routine} {place : Label → Nat}
    (holds : value.Stored known) :
    routine.Carries place (Knows known) value.write (Knows known) := by
  refine .straight ?_
  rintro ⟨_, slots⟩ knows
  cases knows.flat
  rw [write, List.append_assoc]
  refine thenAll_plain rfl (Nat.zero_le _) ?_
  refine thenAll_push knows.stored holds ?_
  refine thenAll_plain rfl (Nat.le_refl _) ?_
  exact @thenAll_claimCell _ [] _ _ knows

theorem balanced_write (value : Built) : Balanced value.write := by
  cases value <;> exact .of_check rfl rfl

theorem carries_writeAll {routine : Routine} {place : Label → Nat}
    {values : List Built} (holds : ∀ value ∈ values, value.Stored known) :
    routine.Carries place (Knows known) (values.flatMap write)
      (Knows known) := by
  induction values with
  | nil => exact .nil fun _ => id
  | cons value rest ih =>
      exact (carries_write (holds value List.mem_cons_self)).append
        (ih fun other member => holds other (List.mem_cons_of_mem _ member))

variable {locals arity : Nat}

/-- The slot of the built term exists. -/
def Inside (locals : Nat) : Built → Prop
  | .slot place => place.index < locals
  | .constant _ => True

theorem allAllowed_push (inside : value.Inside locals) :
    AllAllowed locals arity value.push := by
  cases value with
  | slot place =>
      exact allAllowed_cons.mpr ⟨Item.allowed_onLocal rfl inside, nofun⟩
  | constant functor => exact allAllowed_constant functor

theorem allAllowed_write (inside : value.Inside locals) :
    AllAllowed locals arity value.write := by
  simp [write, allAllowed_push inside, Item.top, Opcode.hasOperand]

theorem Stored.inside {draft : Draft} (stored : value.Stored draft.filled) :
    value.Inside draft.assembler.locals := by
  cases value with
  | slot place => exact stored.1
  | constant => trivial

end Built

namespace ClauseM

variable {draft : Draft} {naming : Naming} {arity : Nat}

/-- A text that builds a term in the next slot. -/
theorem passes_build {before later : Draft} {text : List Item} {bound : Nat}
    (follows : before.Later later)
    (writes : before.Writes bound text (later.emitted text))
    (locals : later.assembler.locals = before.assembler.locals + 1)
    (working : later.working = before.working)
    (allowed : AllAllowed (before.assembler.locals + 1) arity text)
    (balanced : Balanced text)
    (carries : ∀ (routine : Routine) (place : Label → Nat),
      routine.Carries place (Knows before.filled) text
        (Knows (insert before.nextLocal before.filled))) :
    before.Passes naming arity [] text (later.emitted text) := by
  have same : later.filled = before.withLocal.filled :=
    filled_of_same locals working
  refine .of_carries (follows.trans (.emitted _ _)) ⟨bound, writes⟩ ?_ ?_ ?_
    balanced.noCall ?_
  · rw [locals_emitted, locals]
    exact Nat.le_succ _
  · rw [filled_emitted, same]
    exact before.keeps_withLocal
  · rw [locals_emitted, locals]
    exact allowed
  · intro routine place _
    rw [filled_emitted, same]
    refine (carries routine place).imp (fun _ => id) ?_
    exact fun _ knows => knows.mono before.filled_withLocal

/-- Making a variable in the next slot. -/
theorem freshVariable_passes {before : Draft} (later : before.Later draft)
    (reserves : before.Reserves draft)
    (locals : draft.assembler.locals = before.assembler.locals + 1)
    (working : draft.working = before.working) (laid : before.Laid) :
    before.Passes naming arity []
        (Item.freshVariable (some before.nextLocal))
        (draft.emitted (Item.freshVariable (some before.nextLocal))) ∧
      before.nextLocal ∈
        (draft.emitted (Item.freshVariable (some before.nextLocal))).filled := by
  have same : draft.filled = before.withLocal.filled :=
    filled_of_same locals working
  have writes : before.Writes 11 (Item.freshVariable (some before.nextLocal))
      (draft.emitted (Item.freshVariable (some before.nextLocal))) := by
    refine .emit_plain reserves rfl rfl (Nat.le_refl 11) ?_
    rw [locals]
    exact Nat.add_le_add_left (textSize_plain_pos _ _) _
  refine ⟨passes_build later writes locals working ?_ (.of_check rfl rfl) ?_,
    ?_⟩
  · refine allAllowed_freshVariable ?_
    rintro given ⟨⟩
    exact Nat.lt_succ_self _
  · intro routine place
    refine (Pattern.carries_freshVariable _).imp (fun _ => id) ?_
    exact fun _ knows => knows.mono fun slot member =>
      member.imp (congrArg some) id
  · rw [filled_emitted, same]
    exact (Later.owns_next laid).filled

/-- The code in front of the parts of a compound stores its slot. -/
theorem carries_openItems {routine : Routine} {place : Label → Nat}
    {known : Set Local} (slot : Local) (functor : Option FunctorId) :
    routine.Carries place (Knows known) (Built.openItems slot functor)
      (Knows (insert slot known)) := by
  refine .straight ?_
  rintro ⟨_, slots⟩ knows
  cases knows.flat
  cases functor with
  | some functor =>
      refine thenAll_plain rfl (Nat.zero_le _) ?_
      refine thenAll_plain rfl (Nat.le_refl 1) ?_
      refine thenAll_plain rfl (Nat.le_refl 1) ?_
      refine thenAll_storeLocal ?_
      refine thenAll_plain rfl (Nat.zero_le _) ?_
      refine thenAll_loadLocal (.inl rfl) List.mem_cons_self ?_
      refine thenAll_plain rfl (Nat.le_refl 2) ?_
      exact @thenAll_claimHeader _ [] _ _ _ (knows.insert _)
  | none =>
      refine thenAll_plain rfl (Nat.zero_le _) ?_
      refine thenAll_plain rfl (Nat.le_refl 1) ?_
      exact thenAll_storeLocal (knows.insert _)

/-- Building a compound in the next slot. -/
theorem compoundItems_passes (functor : Option FunctorId)
    {parts : List Built}
    (stored : ∀ value ∈ parts, value.Stored draft.filled) :
    draft.Passes naming arity []
      (Built.compoundItems draft.nextLocal functor parts)
      (draft.withLocal.emitted
        (Built.compoundItems draft.nextLocal functor parts)) := by
  have small : draft.nextLocal.index < draft.assembler.locals + 1 :=
    Nat.lt_succ_self _
  have written : AllAllowed (draft.assembler.locals + 1) arity
      (parts.flatMap Built.write) := by
    refine .flatMap fun value member => ?_
    have inside := (stored value member).inside
    exact (Built.allAllowed_write inside).mono (Nat.le_succ _)
  refine passes_build (Later.withLocal draft)
    (Writes.compoundItems _ functor parts (.withLocal draft) (Nat.le_refl _))
    rfl rfl ?_ ?_ ?_
  · cases functor <;> simp [Built.compoundItems, Built.openItems,
      Item.top, Opcode.hasOperand, small, written]
  · have opens : Balanced (Built.openItems draft.nextLocal functor) := by
      cases functor <;> exact .of_check rfl rfl
    exact opens.append (.flatMap fun value _ => value.balanced_write)
  · intro routine place
    exact (carries_openItems draft.nextLocal functor).append
      (Built.carries_writeAll fun value member =>
        (stored value member).mono (Set.subset_insert draft.nextLocal _))

end ClauseM

namespace Draft.Composes

variable {naming : Naming} {draft after : Draft} {terms : List Term}
  {text : List Item} {values : List Built}

/-- Making terms passes, and all that is made has been stored. -/
theorem passes (makes : draft.Composes naming terms text values after)
    (arity : Nat) (laid : draft.Laid) :
    draft.Passes naming arity [] text after ∧
      ∀ value ∈ values, value.Stored after.filled := by
  have cons {before middle after : Draft} {text more : List Item}
      {value : Built} {values : List Built}
      (first : before.Passes naming arity [] text middle)
      (stored : value.Stored middle.filled)
      (rest : middle.Passes naming arity [] more after ∧
        ∀ value ∈ values, value.Stored after.filled) :
      before.Passes naming arity [] (text ++ more) after ∧
        ∀ other ∈ value :: values, other.Stored after.filled :=
    ⟨first.append rest.1, List.forall_mem_cons.mpr
      ⟨stored.mono rest.1.keeps, rest.2⟩⟩
  induction makes with
  | nil => exact ⟨.nil _, by simp⟩
  | @void draft _ _ _ _ _ ih =>
      obtain ⟨first, stored⟩ := ClauseM.freshVariable_passes
        (Later.withLocal draft) (.withLocal draft) rfl rfl laid
      exact cons first stored (ih (first.laid laid))
  | @first draft name _ _ _ _ _ unknown _ ih =>
      obtain ⟨first, stored⟩ := ClauseM.freshVariable_passes
        (Later.withVariable unknown) (.withVariable draft name) rfl rfl laid
      exact cons first stored (ih (first.laid laid))
  | again _ known _ ih =>
      exact cons (.nil _) (laid.named _ _ known).filled (ih laid)
  | constant _ _ _ ih => exact cons (.nil _) trivial (ih laid)
  | @compound _ _ _ _ _ _ id _ _ _ _ _ _ _ _ _ ihInner ih =>
      obtain ⟨inner, stored⟩ := ihInner laid
      have own := inner.append (ClauseM.compoundItems_passes id stored)
      refine cons own ?_ (ih (own.laid laid))
      show _ ∈ _
      rw [filled_emitted]
      exact (Later.owns_next (inner.laid laid)).filled

end Draft.Composes

/-! ## Goals -/

theorem Built.isCall_pushAll {values : List Built} :
    ∀ item ∈ values.flatMap push, item.isCall = false := by
  intro item member
  obtain ⟨value, -, here⟩ := List.mem_flatMap.mp member
  cases value with
  | slot place =>
      cases List.mem_singleton.mp here
      rfl
  | constant functor =>
      rcases List.mem_cons.mp here with rfl | last
      · rfl
      · cases List.mem_singleton.mp last
        rfl

namespace Draft.Laid

/-- The slot of the level to cut back to has been stored. -/
theorem cut_filled {draft : Draft} (laid : draft.Laid) {slot : Local}
    (known : draft.cutLevel = some slot) : slot ∈ draft.filled := by
  obtain ⟨inside, apart⟩ := laid.cut slot known
  refine ⟨inside, fun subject cursor works => ?_⟩
  obtain ⟨first, second⟩ := apart subject cursor works
  exact ⟨fun same => first (congrArg _ same),
    fun same => second (congrArg _ same)⟩

end Draft.Laid

namespace ClauseM

variable {draft : Draft} {naming : Naming} {arity : Nat}

theorem cut_passes {slot : Local} (laid : draft.Laid)
    (known : draft.cutLevel = some slot) :
    draft.Passes naming arity [] [Item.onLocal .loadLocal slot, .plain .cut]
      (draft.emitted [Item.onLocal .loadLocal slot, .plain .cut]) := by
  have filled := laid.cut_filled known
  have small : slot.index < draft.assembler.locals := filled.1
  refine .of_carries (.emitted _ _) ⟨3, .emit_plain (.refl _) rfl rfl
    (Nat.le_refl 3) (Nat.le_add_right _ _)⟩ ?_ ?_ ?_
    (Balanced.of_check rfl rfl).noCall ?_
  · rw [locals_emitted]
  · rw [filled_emitted]
  · rw [locals_emitted]
    simp [Opcode.hasOperand, small]
  · intro routine place _
    rw [filled_emitted]
    refine .straight ?_
    rintro ⟨_, slots⟩ knows
    cases knows.flat
    refine thenAll_loadLocal (.inl rfl) (knows.stored slot filled) ?_
    exact thenAll_plain rfl (Nat.le_refl 1) knows

/-- The call of a goal takes its arguments, and no operands are left. -/
theorem performs_call {routine : Routine} {place : Label → Nat}
    {known : Set Local} {values : List Built} {goal : Goal} (entry : Nat)
    (stored : ∀ value ∈ values, value.Stored known)
    (length : values.length = goal.args.length) :
    routine.Performs place (Knows known) [goal]
      (values.reverse.flatMap Built.push ++ [.operand .call entry.toUInt32])
      (Knows known) := by
  rintro past continues calls next ⟨_, slots⟩ knows level
  cases knows.flat
  have noCall := fun item => @Built.isCall_pushAll values.reverse item
  have pushed := @Built.thenAll_pushAll known values.reverse 0 slots
    knows.stored fun value member => stored value (List.mem_reverse.mp member)
  have carries : routine.Carries place (· = ⟨0, slots⟩)
      (values.reverse.flatMap Built.push)
      (· = ⟨0 + values.reverse.length, slots⟩) :=
    .straight fun _ starts => starts ▸ pushed
  obtain ⟨pushing, calling⟩ := continues.append
  refine carries past pushing ?_ _ rfl level
  rintro _ rfl high
  rw [linesOf_append, ← List.append_assoc] at next
  generalize isLater : past ++ linesOf place (codeSize past)
    (values.reverse.flatMap Built.push) = later at *
  have isGoal : routine.goal? later.length = some goal := by
    rw [Routine.goal?, Routine.take_of_isPrefix calling.lines_start, ← isLater,
      List.countP_append, countP_linesOf,
      List.filter_eq_nil_iff.mpr (fun item member => by
        rw [noCall item member]
        exact Bool.false_ne_true), List.length_nil, Nat.add_zero]
    obtain ⟨rest, split⟩ := calls
    have first : (routine.calls.drop (past.countP CodeLine.isCall))[0]? =
        some goal := by
      rw [← split]
      rfl
    rwa [List.getElem?_drop, Nat.add_zero] at first
  have takes : routine.takes later.length
      (.operand .call entry.toUInt32.toInt32) = values.length := by
    have isCall : (CodeLine.operand .call entry.toUInt32.toInt32).isCall =
        true := rfl
    rw [Routine.takes, if_pos isCall, isGoal, length]
    rfl
  rw [List.length_reverse, Nat.zero_add] at high ⊢
  refine .intro (Routine.found_of_isPrefix calling.lines)
    ⟨Nat.le_of_eq takes, ?_, ?_⟩ ?_ ?_ ?_
  · rintro _ ⟨⟩
  · rintro ⟨⟩
  · rw [Routine.take_of_isPrefix calling.lines_start]
    exact high
  · intro _
    have safe := next ⟨0, slots⟩ knows ?_
    · rw [List.length_append] at safe
      unfold Routine.passed
      rw [takes]
      simp only [Nat.sub_self]
      exact safe
    · rw [linesOf, linesOf, Routine.level_call rfl calling.lines_start isGoal,
        ← high, length]
      exact (Int.sub_self _).symm
  · rintro ⟨⟩

theorem call_passes {values : List Built} {goal : Goal} {entry : Nat}
    (stored : ∀ value ∈ values, value.Stored draft.filled)
    (length : values.length = goal.args.length)
    (known : naming.start? (.ofGoal goal) = some entry) :
    draft.Passes naming arity [goal]
      (values.reverse.flatMap Built.push ++ [.operand .call entry.toUInt32])
      (draft.emitted
        (values.reverse.flatMap Built.push ++
          [.operand .call entry.toUInt32])) where
  toLater := .emitted _ _
  writes := ⟨_, .emit_plain (.refl draft)
    (by simp [labelsOf_flatMap _ labelsOf_push])
    (by simp [targetsOf_flatMap _ targetsOf_push]) (Nat.le_refl _)
    (Nat.le_add_right _ _)⟩
  grows := by rw [locals_emitted]
  keeps := by rw [filled_emitted]
  allowed := by
    rw [locals_emitted, allAllowed_append, allAllowed_cons]
    refine ⟨.flatMap fun value member => ?_, ⟨rfl, rfl, nofun, nofun⟩, nofun⟩
    exact Built.allAllowed_push
      (stored value (List.mem_reverse.mp member)).inside
  calls := by
    have none : (values.reverse.flatMap Built.push).filter Item.isCall = [] :=
      List.filter_eq_nil_iff.mpr fun item member => by
        rw [Built.isCall_pushAll item member]
        exact Bool.false_ne_true
    rw [List.filter_append, none]
    exact .cons ⟨entry, known, rfl⟩ .nil
  performs := by
    intro routine place _
    rw [filled_emitted]
    exact performs_call entry stored length

end ClauseM

namespace Draft

/-- The text of goals passes the checks, if a cut has a level to go back to. -/
theorem Solves.passes {naming : Naming} {draft after : Draft}
    {goals : List Goal} {text : List Item}
    (solves : Solves naming draft goals text after) (arity : Nat)
    (laid : draft.Laid)
    (cuts : goals.any Goal.isCut = true →
      ∃ slot, draft.cutLevel = some slot) :
    draft.Passes naming arity (goals.filter fun goal => !goal.isCut) text
      after := by
  induction solves with
  | nil => exact .nil _
  | cut isCut known _ ih =>
      have first := @ClauseM.cut_passes _ naming arity _ laid known
      rw [List.filter_cons, isCut]
      exact first.append (ih (first.laid laid) fun _ => ⟨_, known⟩)
  | skip isCut unknown _ ih =>
      obtain ⟨slot, known⟩ := cuts (by simp [isCut])
      rw [unknown] at known
      cases known
  | @call _ goal goals _ _ _ _ _ _ isCall makes known _ ih =>
      obtain ⟨passes, stored⟩ := makes.passes arity laid
      have first := passes.append
        (ClauseM.call_passes stored makes.length known)
      have split : (goal :: goals).filter (fun goal => !goal.isCut) =
          [] ++ [goal] ++ goals.filter fun goal => !goal.isCut := by
        rw [List.filter_cons, isCall]
        rfl
      rw [split]
      refine first.append (ih (first.laid laid) fun others => ?_)
      obtain ⟨slot, known⟩ := cuts (by simp [others])
      exact ⟨slot, first.cut slot known⟩

end Draft

end LogicMachine
