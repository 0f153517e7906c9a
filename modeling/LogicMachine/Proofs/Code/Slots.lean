import LogicMachine.Proofs.Code.ClauseText

/-!
# The slots of a clause

The compiler sets slots aside as it goes.  A slot that it sets aside for a term
is never used for anything else: neither as a working slot nor for the level
that the cuts of the clause go back to.
-/

namespace LogicMachine

namespace Draft

/-- The slot was set aside for a term. -/
structure Owns (draft : Draft) (slot : Local) : Prop where
  inside : slot.index < draft.assembler.locals
  apart : ∀ subject cursor, draft.working = some (subject, cursor) →
    slot.index ≠ subject.index ∧ slot.index ≠ cursor.index
  notCut : ∀ kept, draft.cutLevel = some kept → kept.index ≠ slot.index

/-- The slots are kept apart. -/
structure Laid (draft : Draft) : Prop where
  named : ∀ name slot, draft.slots.lookup name = some slot → draft.Owns slot
  working : ∀ subject cursor, draft.working = some (subject, cursor) →
    subject.index < draft.assembler.locals ∧
      cursor.index < draft.assembler.locals ∧ cursor.index ≠ subject.index
  cut : ∀ kept, draft.cutLevel = some kept →
    kept.index < draft.assembler.locals ∧
      ∀ subject cursor, draft.working = some (subject, cursor) →
        kept.index ≠ subject.index ∧ kept.index ≠ cursor.index

/-- The later draft uses the slots in the same way. -/
structure Later (before after : Draft) : Prop where
  owns : ∀ slot, before.Owns slot → after.Owns slot
  working : ∀ slots, before.working = some slots → after.working = some slots
  cut : ∀ kept, before.cutLevel = some kept → after.cutLevel = some kept
  laid : before.Laid → after.Laid
  slots : ∀ name slot, before.slots.lookup name = some slot →
    after.slots.lookup name = some slot

theorem not_owns_next (draft : Draft) : ¬ draft.Owns draft.nextLocal :=
  fun owns => Nat.lt_irrefl _ owns.inside

namespace Later

theorem refl (draft : Draft) : draft.Later draft :=
  ⟨fun _ => id, fun _ => id, fun _ => id, id, fun _ _ => id⟩

theorem trans {first second third : Draft} (left : first.Later second)
    (right : second.Later third) : first.Later third where
  owns := fun slot owns => right.owns slot (left.owns slot owns)
  working := fun slots known => right.working slots (left.working slots known)
  cut := fun kept known => right.cut kept (left.cut kept known)
  laid := fun laid => right.laid (left.laid laid)
  slots := fun name slot known => right.slots name slot (left.slots name slot known)

/-- Nothing but labels and code is new. -/
theorem of_same {before after : Draft}
    (locals : after.assembler.locals = before.assembler.locals)
    (slots : after.slots = before.slots)
    (working : after.working = before.working)
    (cut : after.cutLevel = before.cutLevel) : before.Later after := by
  have owns (slot : Local) (owned : before.Owns slot) : after.Owns slot :=
    ⟨locals ▸ owned.inside, working ▸ owned.apart, cut ▸ owned.notCut⟩
  refine ⟨owns, fun _ known => working ▸ known, fun _ known => cut ▸ known,
    fun laid => ⟨?_, ?_, ?_⟩, fun _ _ known => slots ▸ known⟩
  · intro name slot found
    exact owns slot (laid.named name slot (slots ▸ found))
  · rw [working, locals]
    exact laid.working
  · rw [cut, locals, working]
    exact laid.cut

theorem withLabel (draft : Draft) : draft.Later draft.withLabel :=
  of_same rfl rfl rfl rfl

theorem emitted (draft : Draft) (items : List Item) :
    draft.Later (draft.emitted items) :=
  of_same (locals_emitted draft items) rfl rfl rfl

/-- More slots are set aside. -/
theorem of_more {before after : Draft}
    (locals : before.assembler.locals ≤ after.assembler.locals)
    (working : after.working = before.working)
    (cut : after.cutLevel = before.cutLevel)
    (named : ∀ name slot, before.Laid → after.slots.lookup name = some slot →
      before.slots.lookup name = some slot ∨ after.Owns slot)
    (slots : ∀ name slot, before.slots.lookup name = some slot →
      after.slots.lookup name = some slot) :
    before.Later after := by
  have owns (slot : Local) (owned : before.Owns slot) : after.Owns slot :=
    ⟨Nat.lt_of_lt_of_le owned.inside locals, working ▸ owned.apart,
      cut ▸ owned.notCut⟩
  refine ⟨owns, fun _ known => working ▸ known, fun _ known => cut ▸ known,
    fun laid => ⟨?_, ?_, ?_⟩, slots⟩
  · intro name slot found
    rcases named name slot laid found with old | new
    · exact owns slot (laid.named name slot old)
    · exact new
  · rw [working]
    intro subject cursor known
    obtain ⟨first, second, different⟩ := laid.working subject cursor known
    exact ⟨Nat.lt_of_lt_of_le first locals, Nat.lt_of_lt_of_le second locals,
      different⟩
  · rw [cut, working]
    intro kept known
    obtain ⟨inside, apart⟩ := laid.cut kept known
    exact ⟨Nat.lt_of_lt_of_le inside locals, apart⟩

/-- The next slot is set aside for a term. -/
theorem owns_next {draft : Draft} (laid : draft.Laid) :
    draft.withLocal.Owns draft.nextLocal where
  inside := Nat.lt_succ_self _
  apart := by
    intro subject cursor known
    obtain ⟨first, second, -⟩ := laid.working subject cursor known
    exact ⟨Nat.ne_of_gt first, Nat.ne_of_gt second⟩
  notCut := fun kept known => Nat.ne_of_lt (laid.cut kept known).1

theorem withLocal (draft : Draft) : draft.Later draft.withLocal :=
  of_more (Nat.le_succ _) rfl rfl (fun _ _ _ found => .inl found)
    fun _ _ => id

theorem withVariable {draft : Draft} {name : String}
    (unknown : draft.slots.lookup name = none) :
    draft.Later (draft.withVariable name) := by
  refine of_more (Nat.le_succ _) rfl rfl ?_ ?_
  · intro other slot laid found
    simp only [Draft.withVariable, List.lookup_cons] at found
    split at found
    case h_1 =>
      cases found
      have next := owns_next laid
      exact .inr ⟨next.inside, next.apart, next.notCut⟩
    case h_2 => exact .inl found
  · intro other slot known
    have different : (other == name) = false := beq_false_of_ne (by
      rintro rfl
      rw [unknown] at known
      cases known)
    simpa [Draft.withVariable, List.lookup_cons, different] using known

theorem withWorking {draft : Draft} (unknown : draft.working = none) :
    draft.Later draft.withWorking := by
  have owns (slot : Local) (owned : draft.Owns slot) :
      draft.withWorking.Owns slot := by
    have inside := owned.inside
    refine ⟨?_, ?_, owned.notCut⟩
    · rw [locals_withWorking]
      omega
    · rintro subject cursor ⟨⟩
      simp only [nextLocal, locals_withLocal]
      omega
  refine ⟨owns, fun _ known => ?_, fun _ known => known,
    fun laid => ⟨?_, ?_, ?_⟩, fun _ _ => id⟩
  · rw [unknown] at known
    cases known
  · exact fun name slot found => owns slot (laid.named name slot found)
  · rintro subject cursor ⟨⟩
    simp only [nextLocal, locals_withLocal, locals_withWorking]
    omega
  · intro kept known
    have inside := (laid.cut kept known).1
    refine ⟨?_, ?_⟩
    · rw [locals_withWorking]
      omega
    · rintro subject cursor ⟨⟩
      simp only [nextLocal, locals_withLocal]
      omega

theorem works {draft ready : Draft} {slots : Local × Local}
    (works : ClauseM.Works draft slots ready) :
    draft.Later ready ∧ ready.working = some slots := by
  cases works with
  | fresh unknown => exact ⟨withWorking unknown, rfl⟩
  | again known => exact ⟨refl draft, known⟩

theorem planned {naming : Naming} {draft after : Draft} {term : Term}
    {slot : Slot} (planned : Slot.Planned naming draft term slot after) :
    draft.Later after := by
  cases planned with
  | void | again => exact refl draft
  | first _ unknown => exact withVariable unknown
  | constant => exact (withLabel draft).trans (withLabel _)
  | nested => exact withLocal draft

theorem plannedAll {naming : Naming} {draft after : Draft} {terms : List Term}
    {slots : List Slot}
    (planned : Slot.PlannedAll naming draft terms slots after) :
    draft.Later after := by
  induction planned with
  | nil => exact refl _
  | cons first _ ih => exact (Later.planned first).trans ih

end Later

end Draft

/-- Plans that are only looked at when they succeed. -/
theorem ClauseM.Plans.loosen {plan : ClauseM PlanM α} {draft : Draft}
    {naming : Naming} {proper : Prop}
    {post : α → Draft → Prop} (plans : Plans plan draft naming proper post) :
    Plans plan draft naming False post :=
  plans.imp False.elim fun _ _ => id

/-- More that holds whenever the plan succeeds. -/
theorem ClauseM.Plans.and_all {plan : ClauseM PlanM α} {draft : Draft}
    {naming : Naming} {post : α → Draft → Prop} {given : β → Prop}
    {more : β → α → Draft → Prop} (plans : Plans plan draft naming False post)
    (each : ∀ index, given index → Plans plan draft naming False (more index)) :
    Plans plan draft naming False
      (fun value after => post value after ∧
        ∀ index, given index → more index value after) := by
  unfold Plans at *
  cases ran : plan draft naming with
  | error fault => exact fun _ => id
  | ok result =>
      rw [ran] at plans
      refine ⟨plans, fun index holds => ?_⟩
      have other := each index holds
      rw [ran] at other
      exact other

/-! ## Clauses -/

/-- Keeps the level that the cuts of a clause go back to. -/
def keepLevel (cuts : Bool) : List Item :=
  if cuts then [.plain .loadCutBase, Item.onLocal .storeLocal ⟨0⟩] else []

/-- Reports entry to or exit from a clause on request. -/
def reportText (opcode : Opcode) : Option FunctorId → List Item
  | some functor => [.operand opcode functor.index]
  | none => []

namespace Rule

def hasCut (rule : Rule) : Bool :=
  rule.goals.any Goal.isCut

end Rule

namespace Draft

theorem laid_empty : empty.Laid :=
  ⟨nofun, nofun, nofun⟩

/-- The draft in which the first slot keeps the level to cut back to. -/
def withCutLevel : Draft :=
  { empty.withLocal.emitted (keepLevel true) with cutLevel := some ⟨0⟩ }

theorem laid_withCutLevel : withCutLevel.Laid := by
  refine ⟨nofun, nofun, ?_⟩
  rintro kept ⟨⟩
  exact ⟨Nat.zero_lt_one, nofun⟩

theorem writes_withCutLevel :
    empty.Writes 3 (keepLevel true) withCutLevel := by
  have writes : empty.Writes 3 (keepLevel true)
      (empty.withLocal.emitted (keepLevel true)) :=
    .emit_plain (.withLocal empty) rfl rfl (Nat.le_refl 3)
      (Nat.add_le_add_left (by decide : 1 ≤ 3) _)
  exact ⟨fun items holds => ⟨(writes.text items holds).contains,
    (writes.text items holds).leads⟩, writes.size, writes.locals⟩

theorem writes_report (draft : Draft) (opcode : Opcode)
    (traced : Option FunctorId) :
    ∃ bound, draft.Writes bound (reportText opcode traced)
      (draft.emitted (reportText opcode traced)) := by
  cases traced with
  | none => exact ⟨0, .nil draft⟩
  | some functor =>
      exact ⟨2, .emit_plain (.refl draft) rfl rfl (Nat.le_refl 2)
        (Nat.le_add_right _ _)⟩

end Draft

theorem Assembler.Contains.length_clause {assembler : Assembler}
    {items : List Item} (contains : assembler.Contains items) {arity : Nat}
    {words : List UInt32} (finished : assembler.clause arity = .ok words) :
    words.length = textSize (clauseText assembler.locals arity items) := by
  unfold clause at finished
  cases body : assembler.finish with
  | error fault =>
      rw [body] at finished
      cases finished
  | ok inner =>
      rw [body] at finished
      cases finished
      have length : inner.length = textSize items := by
        rw [(finish_eq_ok body).1, contains.size_eq]
      simp [clauseText, length, Item.codeWords]
      omega

end LogicMachine
