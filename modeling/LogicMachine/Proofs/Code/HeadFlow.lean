import LogicMachine.Proofs.Code.Flow
import LogicMachine.Proofs.Code.Slots

/-!
# Control flow through the head of a clause

The text that matches an argument leaves no operands behind.  On every path
through it, each slot that was set aside for a variable or for a compound inside
is stored, whether the argument is taken apart or built.
-/

namespace LogicMachine

/-- An instruction of straight code: neither a branch nor an end nor a call. -/
def Opcode.isStraight (opcode : Opcode) : Bool :=
  opcode.goesOn && !opcode.isRelative && !decide (opcode = .call) &&
    !decide (opcode = .deallocate)

/-! ## Straight pieces -/

namespace Ledger

/-- No operands are left and given slots have been stored. -/
structure Knows (known : Set Local) (ledger : Ledger) : Prop where
  flat : ledger.depth = 0
  stored : ∀ slot ∈ known, slot.index.toUInt32.toNat ∈ ledger.stored

theorem Knows.mono {known fewer : Set Local} {ledger : Ledger}
    (knows : ledger.Knows known) (sub : fewer ⊆ known) : ledger.Knows fewer :=
  ⟨knows.flat, fun slot member => knows.stored slot (sub member)⟩

/-- A slot has been stored, and no operands are left. -/
theorem Knows.insert {known : Set Local} {stored : List Nat} (slot : Local)
    (knows : Knows known ⟨0, stored⟩) :
    Knows (insert slot known) ⟨0, slot.index.toUInt32.toNat :: stored⟩ := by
  refine ⟨rfl, fun other member => ?_⟩
  rcases member with rfl | old
  · exact List.mem_cons_self
  · exact List.mem_cons_of_mem _ (knows.stored other old)

variable {ledger : Ledger} {wanted : Ledger → Prop} {rest : List Item}

theorem thenAll_loadLocal {slot : Local} {opcode : Opcode}
    (loads : opcode = .loadLocal ∨ opcode = .loadLocalAddress)
    (stored : slot.index.toUInt32.toNat ∈ ledger.stored)
    (next : ThenAll ⟨ledger.depth + 1, ledger.stored⟩ wanted rest) :
    ledger.ThenAll wanted (Item.onLocal opcode slot :: rest) := by
  rcases loads with rfl | rfl
  all_goals
    refine ⟨⟨rfl, rfl, rfl, nofun⟩, Nat.zero_le _, ?_, next⟩
    rintro slot ⟨⟩
    exact stored

theorem thenAll_storeLocal {slot : Local} {depth : Nat} {stored : List Nat}
    (next : ThenAll ⟨depth, slot.index.toUInt32.toNat :: stored⟩ wanted rest) :
    ThenAll ⟨depth + 1, stored⟩ wanted
      (Item.onLocal .storeLocal slot :: rest) :=
  ⟨⟨rfl, rfl, rfl, nofun⟩, Nat.le_add_left _ _, nofun, next⟩

theorem thenAll_plain {opcode : Opcode} {depth : Nat} {stored : List Nat}
    (straight : opcode.isStraight = true) (enough : opcode.takes ≤ depth)
    (next : ThenAll ⟨depth - opcode.takes + opcode.gives, stored⟩ wanted rest) :
    ThenAll ⟨depth, stored⟩ wanted (Item.plain opcode :: rest) := by
  simp only [Opcode.isStraight, Bool.and_eq_true, Bool.not_eq_true',
    decide_eq_false_iff_not] at straight
  obtain ⟨⟨⟨goesOn, branches⟩, noCall⟩, noEnd⟩ := straight
  refine ⟨⟨goesOn, branches, ?_, ?_⟩, enough, nofun, next⟩
  · simp [CodeLine.isCall, CodeLine.opcode?, noCall]
  · simp [CodeLine.opcode?, noEnd]

theorem thenAll_loadConstant {depth : Nat} {stored : List Nat} {value : UInt32}
    (next : ThenAll ⟨depth + 1, stored⟩ wanted rest) :
    ThenAll ⟨depth, stored⟩ wanted (Item.operand .loadConstant value :: rest) :=
  ⟨⟨rfl, rfl, rfl, nofun⟩, Nat.zero_le _, nofun, next⟩

theorem thenAll_constant {depth : Nat} {stored : List Nat}
    {functor : FunctorId}
    (next : ThenAll ⟨depth + 1, stored⟩ wanted rest) :
    ThenAll ⟨depth, stored⟩ wanted (Item.constant functor ++ rest) :=
  thenAll_loadConstant (thenAll_plain rfl (Nat.le_add_left _ _) next)

theorem thenAll_claimCell {depth : Nat} {stored : List Nat}
    (next : ThenAll ⟨depth, stored⟩ wanted rest) :
    ThenAll ⟨depth, stored⟩ wanted (Item.claimCell ++ rest) := by
  refine thenAll_plain rfl (Nat.zero_le _) ?_
  refine thenAll_plain rfl (Nat.le_add_left _ _) ?_
  exact thenAll_plain rfl (Nat.le_add_left _ _) next

theorem thenAll_claimHeader {depth : Nat} {stored : List Nat}
    {functor : FunctorId} (next : ThenAll ⟨depth, stored⟩ wanted rest) :
    ThenAll ⟨depth, stored⟩ wanted (Item.claimHeader functor ++ rest) := by
  refine thenAll_plain rfl (Nat.zero_le _) ?_
  refine thenAll_plain rfl (Nat.le_add_left _ _) ?_
  refine thenAll_loadConstant ?_
  refine thenAll_plain rfl (Nat.le_add_left _ _) ?_
  refine thenAll_plain rfl (Nat.le_add_left _ _) ?_
  refine thenAll_plain rfl (Nat.zero_le _) ?_
  refine thenAll_loadConstant ?_
  refine thenAll_plain rfl (Nat.le_add_left _ _) ?_
  exact thenAll_plain rfl (Nat.le_add_left _ _) next

/-- Putting a variable in the next heap cell. -/
theorem thenAll_freshCell {stored : List Nat}
    (next : ThenAll ⟨0, stored⟩ wanted rest) :
    ThenAll ⟨0, stored⟩ wanted
      (Item.top :: Item.plain .duplicate :: Item.plain .tagReference ::
        Item.plain .store :: rest) := by
  refine thenAll_plain rfl (Nat.zero_le _) ?_
  refine thenAll_plain rfl (Nat.le_refl _) ?_
  refine thenAll_plain rfl (by decide) ?_
  exact thenAll_plain rfl (by decide) next

end Ledger

namespace Source

/-- The subject can be found once given slots have been stored. -/
def Ready (known : Set Local) : Source → Prop
  | .argument _ => True
  | .slot place | .cursor place => place ∈ known

end Source

open Ledger

namespace Pattern

variable {known : Set Local} {ledger : Ledger}

theorem thenAll_source {source : Source} (ready : source.Ready known)
    (knows : ledger.Knows known) {wanted : Ledger → Prop} {rest : List Item}
    (next : ThenAll ⟨ledger.depth + 1, ledger.stored⟩ wanted rest) :
    ledger.ThenAll wanted (source.item :: rest) := by
  cases source with
  | argument index =>
      exact ⟨⟨rfl, rfl, rfl, nofun⟩, Nat.zero_le _, nofun, next⟩
  | slot place => exact thenAll_loadLocal (.inr rfl) (knows.stored _ ready) next
  | cursor place =>
      exact thenAll_loadLocal (.inl rfl) (knows.stored _ ready) next

variable {routine : Routine} {place : Label → Nat}

theorem carries_freshVariable (slot : Option Local) :
    routine.Carries place (Knows known) (Item.freshVariable slot)
      (Knows {other | some other = slot ∨ other ∈ known}) := by
  refine .straight ?_
  rintro ⟨_, stored⟩ knows
  cases knows.flat
  cases slot with
  | none =>
      refine thenAll_freshCell (@thenAll_claimCell _ [] _ _ ?_)
      exact knows.mono fun other member => member.resolve_left nofun
  | some slot =>
      refine thenAll_freshCell ?_
      refine thenAll_plain rfl (Nat.zero_le _) ?_
      refine thenAll_plain rfl (Nat.le_refl _) ?_
      refine thenAll_storeLocal (@thenAll_claimCell _ [] _ _ ?_)
      refine (knows.insert slot).mono fun other member => ?_
      exact member.imp Option.some.inj id

theorem carries_takeVariable {source : Source} (ready : source.Ready known)
    (slot : Local) :
    routine.Carries place (Knows known) (takeVariable source slot)
      (Knows (insert slot known)) := by
  refine .straight ?_
  rintro ⟨_, stored⟩ knows
  cases knows.flat
  refine thenAll_source ready knows ?_
  refine thenAll_plain rfl (Nat.le_refl _) ?_
  exact thenAll_storeLocal (knows.insert slot)

theorem carries_unifyValue {source : Source} (ready : source.Ready known)
    {slot : Local} (member : slot ∈ known) :
    routine.Carries place (Knows known) (unifyValue source slot)
      (Knows known) := by
  refine .straight ?_
  rintro ⟨_, stored⟩ knows
  cases knows.flat
  refine thenAll_source ready knows ?_
  refine thenAll_loadLocal (.inr rfl) (knows.stored slot member) ?_
  exact thenAll_plain rfl (Nat.le_refl _) knows

theorem carries_takeSubject {source : Source} (ready : source.Ready known)
    (subject : Local) :
    routine.Carries place (Knows known) (takeSubject source subject)
      (Knows (insert subject known)) := by
  refine .straight ?_
  rintro ⟨_, stored⟩ knows
  cases knows.flat
  refine thenAll_source ready knows ?_
  refine thenAll_plain rfl (Nat.le_refl _) ?_
  exact thenAll_storeLocal (knows.insert subject)

/-! ## Tests -/

theorem thenAll_compareTag {subject : Local} {stored : List Nat}
    (knows : Knows known ⟨0, stored⟩) (member : subject ∈ known) (tag : Tag) :
    ThenAll ⟨0, stored⟩ (· = ⟨2, stored⟩) (compareTag subject tag) := by
  refine thenAll_loadLocal (.inl rfl) (knows.stored subject member) ?_
  refine thenAll_plain rfl (Nat.le_refl _) ?_
  refine thenAll_plain rfl (Nat.le_refl _) ?_
  exact thenAll_loadConstant rfl

/-- Two pieces of code of which a test chooses one. -/
theorem carries_alternatives (small : codeSize routine.lines < 2 ^ 31)
    {after : Set Local} {test yes no : List Item} {read done : Label}
    (tests : ∀ {stored}, Knows known ⟨0, stored⟩ →
      ThenAll ⟨0, stored⟩ (· = ⟨2, stored⟩) test)
    (first : Balanced
      (test ++ Item.branch .branchNotEqual read :: (yes ++
        [Item.branch .branchAlways done])))
    (second : Balanced (no ++ [Item.mark done]))
    (carriesYes : routine.Carries place (Knows known) yes (Knows after))
    (carriesNo : routine.Carries place (Knows known) (no ++ [Item.mark done])
      (Knows after)) :
    routine.Carries place (Knows known)
      (test ++ Item.branch .branchNotEqual read :: (yes ++
        Item.branch .branchAlways done :: Item.mark read ::
          (no ++ [Item.mark done])))
      (Knows after) := by
  rintro past continues next ⟨_, stored⟩ knows level
  cases knows.flat
  have split : test ++ Item.branch .branchNotEqual read :: (yes ++
        Item.branch .branchAlways done :: Item.mark read ::
          (no ++ [Item.mark done])) =
      (test ++ Item.branch .branchNotEqual read :: (yes ++
        [Item.branch .branchAlways done])) ++
        Item.mark read :: (no ++ [Item.mark done]) := by
    simp only [List.append_assoc, List.cons_append, List.nil_append]
  obtain ⟨toRead, placeRead⟩ := Routine.Continues.mark (split ▸ continues)
  have marked := (split ▸ continues).append.2
  have levelRead := (@Routine.level_balanced routine place _ first past
    (codeSize past)).trans level.symm
  have atEnd : linesOf place (codeSize past) (test ++
        Item.branch .branchNotEqual read :: (yes ++
          Item.branch .branchAlways done :: Item.mark read ::
            (no ++ [Item.mark done]))) =
      linesOf place (codeSize past) (test ++ Item.branch .branchNotEqual read ::
        (yes ++ [Item.branch .branchAlways done])) ++
      linesOf place (codeSize (past ++ linesOf place (codeSize past)
        (test ++ Item.branch .branchNotEqual read ::
          (yes ++ [Item.branch .branchAlways done])))) (no ++ [Item.mark done]) := by
    rw [split, linesOf_append, codeSize_append, codeSize_linesOf]
    rfl
  rw [atEnd, ← List.append_assoc] at next
  generalize past ++ linesOf place (codeSize past) (test ++
    Item.branch .branchNotEqual read :: (yes ++
      [Item.branch .branchAlways done])) = middle at *
  have rest : routine.Continues place middle (no ++ [Item.mark done]) :=
    ⟨marked.lines, marked.placed.2⟩
  obtain ⟨toDone, placeDone⟩ := rest.mark
  have last : linesOf place (codeSize middle) (no ++ [Item.mark done]) =
      linesOf place (codeSize middle) no := by
    rw [linesOf_append]
    exact List.append_nil _
  rw [← last] at toDone placeDone
  have ends (ledger : Ledger) (knows : ledger.Knows after) :
      routine.Safe ⟨ledger, (middle ++
        linesOf place (codeSize middle) (no ++ [Item.mark done])).length⟩ := by
    refine next ledger knows ?_
    rw [knows.flat, Routine.level_balanced second, levelRead]
  refine Routine.Safe.test small continues (.inr rfl) (tests knows) toRead
    placeRead level ?_ ?_
  · rintro later - flat continued
    obtain ⟨building, leaving⟩ := continued.append
    refine carriesYes later building (fun ledger stored high => ?_) _ knows flat
    exact .branch small leaving (.inr (.inr rfl)) toDone placeDone high
      (Nat.zero_le _) nofun (ends ledger stored)
  · exact carriesNo _ rest (fun ledger stored _ => ends ledger stored) _ knows
      levelRead.symm

/-! ## Constants -/

/-- Comparing the subject with a constant. -/
theorem carries_compareConstant (small : codeSize routine.lines < 2 ^ 31)
    {subject : Local} (member : subject ∈ known) (functor : FunctorId)
    (done : Label) :
    routine.Carries place (Knows known)
      (([Item.onLocal .loadLocal subject, Item.plain .load] ++
        Item.constant functor ++
        [Item.branch .branchEqual done, Item.plain .fail]) ++
        [Item.mark done])
      (Knows known) := by
  rintro past continues next ⟨_, stored⟩ knows level
  cases knows.flat
  obtain ⟨toDone, placeDone⟩ := continues.mark
  have balanced : Balanced ([Item.onLocal .loadLocal subject, Item.plain .load] ++
      Item.constant functor ++ [Item.branch .branchEqual done, Item.plain .fail]) :=
    .of_check rfl rfl
  rw [linesOf_append, linesOf, linesOf, List.append_nil] at next
  have split : [Item.onLocal .loadLocal subject, Item.plain .load] ++
        Item.constant functor ++ [Item.branch .branchEqual done, Item.plain .fail] ++
        [Item.mark done] =
      ([Item.onLocal .loadLocal subject, Item.plain .load] ++
        Item.constant functor) ++
        Item.branch .branchEqual done :: Item.plain .fail :: [Item.mark done] := rfl
  refine Routine.Safe.test small (split ▸ continues) (.inl rfl) ?_ toDone
    placeDone level ?_ ?_
  · refine thenAll_loadLocal (.inl rfl) (knows.stored subject member) ?_
    refine thenAll_plain rfl (Nat.le_refl _) ?_
    exact @thenAll_constant _ [] _ _ _ rfl
  · rintro later - flat continued
    exact .stop continued (.inl rfl) flat
  · refine next _ knows ?_
    rw [Routine.level_balanced balanced]
    exact level

theorem matchConstant_eq (source : Source) (subject : Local)
    (functor : FunctorId) (read done : Label) :
    matchConstant source subject functor read done =
      takeSubject source subject ++ (compareTag subject .reference ++
        Item.branch .branchNotEqual read ::
          ((Item.onLocal .loadLocal subject :: Item.constant functor ++
              [Item.plain .store]) ++
            Item.branch .branchAlways done :: Item.mark read ::
              (([Item.onLocal .loadLocal subject, Item.plain .load] ++
                Item.constant functor ++
                [Item.branch .branchEqual done, Item.plain .fail]) ++
                [Item.mark done]))) := by
  simp only [matchConstant, List.append_assoc, List.cons_append,
    List.nil_append]

theorem balanced_matchConstant (source : Source) (subject : Local)
    (functor : FunctorId) (read done : Label) :
    Balanced (matchConstant source subject functor read done) := by
  cases source <;> exact .of_check rfl rfl

theorem carries_matchConstant (small : codeSize routine.lines < 2 ^ 31)
    {source : Source} (ready : source.Ready known) (subject : Local)
    (functor : FunctorId) (read done : Label) :
    routine.Carries place (Knows known)
      (matchConstant source subject functor read done) (Knows known) := by
  rw [matchConstant_eq]
  refine (carries_takeSubject ready subject).append ?_
  have member : subject ∈ insert subject known := Set.mem_insert _ _
  have binding : routine.Carries place (Knows (insert subject known))
      (Item.onLocal .loadLocal subject :: Item.constant functor ++
        [Item.plain .store]) (Knows (insert subject known)) := by
    refine .straight ?_
    rintro ⟨_, stored⟩ knows
    cases knows.flat
    refine thenAll_loadLocal (.inl rfl) (knows.stored subject member) ?_
    exact thenAll_constant (thenAll_plain rfl (Nat.le_refl _) knows)
  refine (carries_alternatives small
    (fun knows => thenAll_compareTag knows member _) (.of_check rfl rfl)
    (.of_check rfl rfl) binding
    (carries_compareConstant small member functor done)).imp (fun _ => id) ?_
  exact fun _ knows => knows.mono (Set.subset_insert subject known)

end Pattern

/-! ## Slots that have been stored -/

namespace Draft

/-- The slots that have been set aside and are not working slots. -/
def filled (draft : Draft) : Set Local :=
  {slot | slot.index < draft.assembler.locals ∧
    ∀ subject cursor, draft.working = some (subject, cursor) →
      slot ≠ subject ∧ slot ≠ cursor}

theorem Owns.filled {draft : Draft} {slot : Local} (owns : draft.Owns slot) :
    slot ∈ draft.filled := by
  refine ⟨owns.inside, fun subject cursor known => ?_⟩
  obtain ⟨first, second⟩ := owns.apart subject cursor known
  exact ⟨fun same => first (congrArg _ same),
    fun same => second (congrArg _ same)⟩

theorem filled_of_same {before after : Draft}
    (locals : after.assembler.locals = before.assembler.locals)
    (working : after.working = before.working) :
    after.filled = before.filled := by
  unfold filled
  rw [locals, working]

@[simp]
theorem filled_withLabel (draft : Draft) :
    draft.withLabel.filled = draft.filled := rfl

@[simp]
theorem filled_emitted (draft : Draft) (items : List Item) :
    (draft.emitted items).filled = draft.filled :=
  filled_of_same (locals_emitted draft items) rfl

theorem filled_withLocal (draft : Draft) :
    draft.withLocal.filled ⊆ insert draft.nextLocal draft.filled := by
  rintro ⟨index⟩ ⟨inside, apart⟩
  rcases Nat.lt_succ_iff_lt_or_eq.mp inside with old | rfl
  · exact .inr ⟨old, apart⟩
  · exact .inl rfl

theorem filled_withVariable (draft : Draft) (name : String) :
    (draft.withVariable name).filled ⊆
      insert draft.nextLocal draft.filled :=
  filled_withLocal draft

theorem filled_works {draft ready : Draft} {slots : Local × Local}
    (works : ClauseM.Works draft slots ready) :
    ready.filled = draft.filled := by
  cases works with
  | again => rfl
  | fresh unknown =>
      ext ⟨index⟩
      constructor
      · rintro ⟨inside, apart⟩
        obtain ⟨first, second⟩ := apart _ _ rfl
        have low : index ≠ draft.assembler.locals := fun same =>
          first (congrArg Local.mk same)
        have high : index ≠ draft.assembler.locals + 1 := fun same =>
          second (congrArg Local.mk same)
        have below : index < draft.assembler.locals + 2 := inside
        refine ⟨(by omega : index < draft.assembler.locals), ?_⟩
        intro _ _ known
        rw [unknown] at known
        cases known
      · rintro ⟨inside, -⟩
        have below : index < draft.assembler.locals := inside
        refine ⟨(by omega : index < draft.assembler.locals + 2), ?_⟩
        rintro _ _ ⟨⟩
        exact ⟨fun same => Nat.ne_of_lt below (congrArg Local.index same),
          fun same => Nat.ne_of_lt (Nat.lt_succ_of_lt below)
            (congrArg Local.index same)⟩

end Draft

/-! ## Arguments of a compound -/

namespace Pattern

open Draft

variable {routine : Routine} {place : Label → Nat} {naming : Naming}
  {draft after : Draft} {extra : Set Local}

theorem balanced_writeSlot (slot : Slot) : Balanced (writeSlot slot) := by
  cases slot <;> exact .of_check rfl rfl

theorem balanced_readSlot (subject cursor : Local) (slot : Slot) :
    Balanced (readSlot subject cursor slot) := by
  cases slot with
  | constant => exact balanced_matchConstant _ _ _ _ _
  | _ => exact .of_check rfl rfl

theorem balanced_readSlots (subject cursor : Local) (slots : List Slot) :
    Balanced (readSlots subject cursor slots) := by
  induction slots with
  | nil => exact .of_check rfl rfl
  | cons slot rest ih =>
      rw [readSlots_cons]
      refine ((balanced_readSlot subject cursor slot).append ?_).append ih
      split <;> exact .of_check rfl rfl

/-- Storing the next slot completes what is set aside with it. -/
theorem subset_next {later : Draft}
    (sub : later.filled ⊆ insert draft.nextLocal draft.filled) :
    later.filled ∪ extra ⊆ insert draft.nextLocal (draft.filled ∪ extra) := by
  rintro slot (inside | other)
  · exact (sub inside).imp id .inl
  · exact .inr (.inr other)

/-- A variable that was met before has been stored. -/
theorem mem_filled {name : String} {slot : Local} (laid : draft.Laid)
    (known : draft.slots.lookup name = some slot) :
    slot ∈ draft.filled ∪ extra :=
  .inl (laid.named name slot known).filled

theorem carries_freshSlot {later : Draft}
    (sub : later.filled ⊆ insert draft.nextLocal draft.filled) :
    routine.Carries place (Knows (draft.filled ∪ extra))
      (Item.freshVariable (some draft.nextLocal))
      (Knows (later.filled ∪ extra)) := by
  refine (carries_freshVariable (some draft.nextLocal)).imp (fun _ => id) ?_
  refine fun _ knows => knows.mono fun slot member => ?_
  exact (subset_next sub member).imp (congrArg some) id

theorem carries_writeSlot {term : Term} {slot : Slot}
    (planned : Slot.Planned naming draft term slot after) (laid : draft.Laid) :
    routine.Carries place (Knows (draft.filled ∪ extra)) (writeSlot slot)
      (Knows (after.filled ∪ extra)) := by
  cases planned with
  | void =>
      refine (carries_freshVariable none).imp (fun _ => id) ?_
      exact fun _ knows => knows.mono fun slot member => .inr member
  | first => exact carries_freshSlot (filled_withVariable draft _)
  | nested => exact carries_freshSlot (filled_withLocal draft)
  | again _ known =>
      refine .straight ?_
      rintro ⟨_, stored⟩ knows
      cases knows.flat
      refine thenAll_plain rfl (Nat.zero_le _) ?_
      refine thenAll_loadLocal (.inl rfl)
        (knows.stored _ (mem_filled laid known)) ?_
      refine thenAll_plain rfl (Nat.le_refl _) ?_
      exact @thenAll_claimCell _ [] _ _ knows
  | constant =>
      refine .straight ?_
      rintro ⟨_, stored⟩ knows
      cases knows.flat
      refine thenAll_plain rfl (Nat.zero_le _) ?_
      refine thenAll_loadConstant ?_
      refine thenAll_plain rfl (by decide) ?_
      refine thenAll_plain rfl (Nat.le_refl _) ?_
      exact @thenAll_claimCell _ [] _ _ knows

theorem carries_writeSlots {terms : List Term} {slots : List Slot}
    (planned : Slot.PlannedAll naming draft terms slots after)
    (laid : draft.Laid) :
    routine.Carries place (Knows (draft.filled ∪ extra))
      (slots.flatMap writeSlot) (Knows (after.filled ∪ extra)) := by
  induction planned with
  | nil => exact .nil fun _ => id
  | cons first _ ih =>
      exact (carries_writeSlot first laid).append
        (ih ((Later.planned first).laid laid))

theorem carries_readSlot (small : codeSize routine.lines < 2 ^ 31)
    {cursor : Local} (inside : cursor ∈ extra) (subject : Local) {term : Term}
    {slot : Slot} (planned : Slot.Planned naming draft term slot after)
    (laid : draft.Laid) :
    routine.Carries place (Knows (draft.filled ∪ extra))
      (readSlot subject cursor slot) (Knows (after.filled ∪ extra)) := by
  have ready : (Source.cursor cursor).Ready (draft.filled ∪ extra) := .inr inside
  have taking {later : Draft}
      (sub : later.filled ⊆ insert draft.nextLocal draft.filled) :
      routine.Carries place (Knows (draft.filled ∪ extra))
        (takeVariable (.cursor cursor) draft.nextLocal)
        (Knows (later.filled ∪ extra)) := by
    refine (carries_takeVariable ready draft.nextLocal).imp (fun _ => id) ?_
    exact fun _ knows => knows.mono (subset_next sub)
  cases planned with
  | void => exact .nil fun _ => id
  | first => exact taking (filled_withVariable draft _)
  | nested => exact taking (filled_withLocal draft)
  | again _ known => exact carries_unifyValue ready (mem_filled laid known)
  | constant => exact carries_matchConstant small ready subject _ _ _

theorem carries_advance {known : Set Local} {cursor : Local}
    (member : cursor ∈ known) :
    routine.Carries place (Knows known) (advance cursor) (Knows known) := by
  refine .straight ?_
  rintro ⟨_, stored⟩ knows
  cases knows.flat
  refine thenAll_loadLocal (.inl rfl) (knows.stored cursor member) ?_
  refine thenAll_plain rfl (Nat.le_refl _) ?_
  exact thenAll_storeLocal
    ((knows.insert cursor).mono (Set.subset_insert cursor known))

theorem carries_readSlots (small : codeSize routine.lines < 2 ^ 31)
    {cursor : Local} (inside : cursor ∈ extra) (subject : Local)
    {terms : List Term} {slots : List Slot}
    (planned : Slot.PlannedAll naming draft terms slots after)
    (laid : draft.Laid) :
    routine.Carries place (Knows (draft.filled ∪ extra))
      (readSlots subject cursor slots) (Knows (after.filled ∪ extra)) := by
  induction planned with
  | nil => exact .nil fun _ => id
  | cons first _ ih =>
      have rest := ih ((Later.planned first).laid laid)
      rw [readSlots_cons, List.append_assoc]
      refine (carries_readSlot small inside subject first laid).append ?_
      split
      · exact rest
      · exact (carries_advance (.inr inside)).append rest

/-! ## Compounds -/

theorem balanced_writeCompound (subject cursor : Local)
    (functor : Option FunctorId) (slots : List Slot) :
    Balanced (writeCompound subject cursor functor slots) := by
  have built := Balanced.flatMap fun (slot : Slot) (_ : slot ∈ slots) =>
    balanced_writeSlot slot
  cases functor with
  | none =>
      exact (Balanced.append (.of_check rfl rfl) built).append
        (.of_check rfl rfl)
  | some functor =>
      exact (Balanced.append (.of_check rfl rfl) built).append
        (.of_check rfl rfl)

theorem carries_openCompound {known : Set Local} (cursor : Local)
    (functor : Option FunctorId) :
    routine.Carries place (Knows known)
      ([Item.top, Item.plain .duplicate, Item.plain .increment,
          Item.plain (if functor.isSome then .tagCompound else .tagList),
          Item.plain .store, Item.top, Item.onLocal .storeLocal cursor] ++
        (match functor with
          | some functor => Item.claimHeader functor
          | none => Item.claimCell))
      (Knows (insert cursor known)) := by
  refine .straight ?_
  rintro ⟨_, stored⟩ knows
  cases knows.flat
  refine thenAll_plain rfl (Nat.zero_le _) ?_
  refine thenAll_plain rfl (Nat.le_refl _) ?_
  refine thenAll_plain rfl (by decide) ?_
  cases functor with
  | none =>
      refine thenAll_plain rfl (by decide) ?_
      refine thenAll_plain rfl (by decide) ?_
      refine thenAll_plain rfl (Nat.zero_le _) ?_
      exact thenAll_storeLocal (@thenAll_claimCell _ [] _ _
        (knows.insert cursor))
  | some functor =>
      refine thenAll_plain rfl (Nat.le_succ 1) ?_
      refine thenAll_plain rfl (Nat.le_refl 2) ?_
      refine thenAll_plain rfl (Nat.zero_le _) ?_
      exact thenAll_storeLocal (@thenAll_claimHeader _ [] _ _ _
        (knows.insert cursor))

theorem carries_writeCompound {subject cursor : Local}
    (functor : Option FunctorId) {terms : List Term} {slots : List Slot}
    (planned : Slot.PlannedAll naming draft terms slots after)
    (laid : draft.Laid) :
    routine.Carries place (Knows (insert subject draft.filled))
      (writeCompound subject cursor functor slots) (Knows after.filled) := by
  have sub : draft.filled ∪ {cursor, subject} ⊆
      insert cursor (insert subject draft.filled) := by
    rintro slot (inside | rfl | rfl)
    · exact .inr (.inr inside)
    · exact .inl rfl
    · exact .inr (.inl rfl)
  have opened := (@carries_openCompound routine place
    (insert subject draft.filled) cursor functor).imp (fun _ => id)
    fun _ knows => knows.mono sub
  have bound : routine.Carries place (Knows (after.filled ∪ {cursor, subject}))
      [Item.onLocal .loadLocal subject, Item.onLocal .loadLocal cursor,
        Item.plain .bind] (Knows after.filled) := by
    refine .straight ?_
    rintro ⟨_, stored⟩ knows
    cases knows.flat
    refine thenAll_loadLocal (.inl rfl)
      (knows.stored subject (.inr (.inr rfl))) ?_
    refine thenAll_loadLocal (.inl rfl)
      (knows.stored cursor (.inr (.inl rfl))) ?_
    exact thenAll_plain rfl (Nat.le_refl 2)
      (knows.mono Set.subset_union_left)
  exact (opened.append (carries_writeSlots planned laid)).append bound

theorem balanced_readCompound (subject cursor : Local)
    (functor : Option FunctorId) (slots : List Slot) (fail : Label) :
    Balanced (readCompound subject cursor functor slots fail) := by
  have read := balanced_readSlots subject cursor slots
  cases functor with
  | none => exact Balanced.append (.of_check rfl rfl) read
  | some functor => exact Balanced.append (.of_check rfl rfl) read

/-- A test after which the code goes on or fails. -/
theorem carries_check (small : codeSize routine.lines < 2 ^ 31)
    {known : Set Local} {test : List Item} {label : Label}
    {aim : List CodeLine} {rest : List Item}
    (tests : ∀ {stored}, Knows known ⟨0, stored⟩ →
      ThenAll ⟨0, stored⟩ (· = ⟨2, stored⟩) test)
    (fails : routine.Continues place aim (Item.plain .fail :: rest))
    (placed : place label = codeSize aim)
    (level : routine.level aim = 0) :
    routine.Carries place (Knows known)
      (test ++ [Item.branch .branchNotEqual label]) (Knows known) := by
  rintro past continues next ⟨_, stored⟩ knows flat
  cases knows.flat
  refine .test small continues (.inr rfl) (tests knows) fails.lines_start placed
    flat ?_ (.stop fails (.inl rfl) level.symm)
  rintro later rfl high _
  exact next _ knows high

theorem carries_readHeader (small : codeSize routine.lines < 2 ^ 31)
    {known : Set Local} {cursor : Local} (member : cursor ∈ known)
    (functor : FunctorId) {fail : Label} {aim : List CodeLine}
    {rest : List Item}
    (fails : routine.Continues place aim (Item.plain .fail :: rest))
    (placed : place fail = codeSize aim) (level : routine.level aim = 0) :
    routine.Carries place (Knows known) (readHeader cursor functor fail)
      (Knows known) := by
  have tests {stored : List Nat} (knows : Knows known ⟨0, stored⟩) :
      ThenAll ⟨0, stored⟩ (· = ⟨2, stored⟩)
        [Item.onLocal .loadLocal cursor, Item.plain .load,
          Item.operand .loadConstant functor.index, Item.plain .tagFunctor] := by
    refine thenAll_loadLocal (.inl rfl) (knows.stored cursor member) ?_
    refine thenAll_plain rfl (Nat.le_refl _) ?_
    refine thenAll_loadConstant ?_
    exact thenAll_plain rfl (Nat.le_succ 1) rfl
  exact (carries_check small tests fails placed level).append
    (carries_advance member)

theorem carries_readCompound (small : codeSize routine.lines < 2 ^ 31)
    {subject cursor : Local} (functor : Option FunctorId) {terms : List Term}
    {slots : List Slot}
    (planned : Slot.PlannedAll naming draft terms slots after)
    (laid : draft.Laid) {fail : Label} {aim : List CodeLine}
    {rest : List Item}
    (fails : routine.Continues place aim (Item.plain .fail :: rest))
    (placed : place fail = codeSize aim) (level : routine.level aim = 0) :
    routine.Carries place (Knows (insert subject draft.filled))
      (readCompound subject cursor functor slots fail)
      (Knows after.filled) := by
  have checked := @carries_check routine place small
    (insert subject draft.filled) _ _ _ _
    (fun knows => thenAll_compareTag knows (Set.mem_insert _ _)
      (if functor.isSome then .compound else .list)) fails placed level
  have opened : routine.Carries place (Knows (insert subject draft.filled))
      [Item.onLocal .loadLocal subject, Item.plain .load, Item.plain .getAddress,
        Item.onLocal .storeLocal cursor]
      (Knows (draft.filled ∪ {cursor})) := by
    refine .straight ?_
    rintro ⟨_, stored⟩ knows
    cases knows.flat
    refine thenAll_loadLocal (.inl rfl)
      (knows.stored subject (Set.mem_insert _ _)) ?_
    refine thenAll_plain rfl (Nat.le_refl 1) ?_
    refine thenAll_plain rfl (Nat.le_refl 1) ?_
    refine thenAll_storeLocal ((knows.insert cursor).mono ?_)
    rintro slot (inside | rfl)
    · exact .inr (.inr inside)
    · exact .inl rfl
  have read := @carries_readSlots routine place naming _ _ {cursor} small
    cursor rfl subject _ _ planned laid
  have finished := read.imp (fun _ => id) fun _ knows =>
    knows.mono (Set.subset_union_left : after.filled ⊆ _)
  cases functor with
  | none =>
      have all := (checked.append opened).append finished
      simpa only [readCompound, List.append_assoc, List.cons_append,
        List.nil_append] using all
  | some functor =>
      have header := @carries_readHeader routine place small
        (draft.filled ∪ {cursor}) cursor (.inr rfl) functor _ _ _ fails placed
        level
      have all := (checked.append opened).append (header.append finished)
      simpa only [readCompound, List.append_assoc, List.cons_append,
        List.nil_append] using all

/-- Comparing a compound that is there already, up to where both ways meet. -/
theorem carries_leaveCompound (small : codeSize routine.lines < 2 ^ 31)
    {subject cursor : Local} (functor : Option FunctorId) {terms : List Term}
    {slots : List Slot}
    (planned : Slot.PlannedAll naming draft terms slots after)
    (laid : draft.Laid) (fail done : Label) :
    routine.Carries place (Knows (insert subject draft.filled))
      ((readCompound subject cursor functor slots fail ++
        [Item.branch .branchAlways done, Item.mark fail, Item.plain .fail]) ++
        [Item.mark done])
      (Knows after.filled) := by
  intro past continues next ledger knows level
  have compared := balanced_readCompound subject cursor functor slots fail
  have all : Balanced (readCompound subject cursor functor slots fail ++
      [Item.branch .branchAlways done, Item.mark fail, Item.plain .fail]) :=
    compared.append (.of_check rfl rfl)
  obtain ⟨toDone, placeDone⟩ := continues.mark
  rw [linesOf_append _ _ [Item.mark done], linesOf, linesOf, List.append_nil] at next
  have split : readCompound subject cursor functor slots fail ++
        [Item.branch .branchAlways done, Item.mark fail, Item.plain .fail] ++
        [Item.mark done] =
      (readCompound subject cursor functor slots fail ++
        [Item.branch .branchAlways done]) ++
        Item.mark fail :: [Item.plain .fail, Item.mark done] := by
    simp only [List.append_assoc, List.cons_append, List.nil_append]
  have marked := (split ▸ continues).append.2
  obtain ⟨-, placeFail⟩ := (split ▸ continues).mark
  have failing : routine.Continues place _ (Item.plain .fail :: [Item.mark done]) :=
    ⟨marked.lines, marked.placed.2⟩
  have levelFail := @Routine.level_balanced routine place _
    (compared.append (.of_check rfl rfl : Balanced [Item.branch .branchAlways done]))
    past (codeSize past)
  rw [← level, knows.flat] at levelFail
  obtain ⟨reading, leaving⟩ :=
    ((split ▸ continues).append.1).append
  refine carries_readCompound small functor planned laid failing placeFail
    levelFail past reading (fun later stored high => ?_) ledger knows level
  refine .branch small leaving (.inr (.inr rfl)) toDone placeDone high
    (Nat.zero_le _) ?_ (next later stored ?_)
  · rintro ⟨⟩
  · rw [Routine.level_balanced all, ← level, knows.flat, stored.flat]

theorem matchCompound_eq (source : Source) (subject cursor : Local)
    (functor : Option FunctorId) (slots : List Slot)
    (read fail done : Label) :
    matchCompound source subject cursor functor slots read fail done =
      takeSubject source subject ++ (compareTag subject .reference ++
        Item.branch .branchNotEqual read ::
          (writeCompound subject cursor functor slots ++
            Item.branch .branchAlways done :: Item.mark read ::
              ((readCompound subject cursor functor slots fail ++
                [Item.branch .branchAlways done, Item.mark fail,
                  Item.plain .fail]) ++
                [Item.mark done]))) := by
  simp only [matchCompound, List.append_assoc, List.cons_append,
    List.nil_append]

theorem balanced_matchCompound (source : Source) (subject cursor : Local)
    (functor : Option FunctorId) (slots : List Slot)
    (read fail done : Label) :
    Balanced
      (matchCompound source subject cursor functor slots read fail done) := by
  have start : Balanced (takeSubject source subject ++
      compareTag subject .reference ++ [Item.branch .branchNotEqual read]) := by
    cases source <;> exact .of_check rfl rfl
  have written := balanced_writeCompound subject cursor functor slots
  have compared := balanced_readCompound subject cursor functor slots fail
  exact (((start.append written).append (.of_check rfl rfl)).append
    compared).append (.of_check rfl rfl)

theorem carries_matchCompound (small : codeSize routine.lines < 2 ^ 31)
    {source : Source} (ready : source.Ready draft.filled)
    (subject cursor : Local) (functor : Option FunctorId) {terms : List Term}
    {slots : List Slot}
    (planned : Slot.PlannedAll naming draft terms slots after)
    (laid : draft.Laid) (read fail done : Label) :
    routine.Carries place (Knows draft.filled)
      (matchCompound source subject cursor functor slots read fail done)
      (Knows after.filled) := by
  rw [matchCompound_eq]
  refine (carries_takeSubject ready subject).append ?_
  have written := balanced_writeCompound subject cursor functor slots
  have compared := balanced_readCompound subject cursor functor slots fail
  refine carries_alternatives small
    (fun knows => thenAll_compareTag knows (Set.mem_insert _ _) _) ?_ ?_
    (carries_writeCompound functor planned laid) ?_
  · have start : Balanced (compareTag subject .reference ++
        [Item.branch .branchNotEqual read]) := .of_check rfl rfl
    exact start.append (written.append (.of_check rfl rfl))
  · exact (compared.append (.of_check rfl rfl)).append (.of_check rfl rfl)
  exact carries_leaveCompound small functor planned laid fail done

end Pattern

end LogicMachine
