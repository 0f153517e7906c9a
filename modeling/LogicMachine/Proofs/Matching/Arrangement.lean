import LogicMachine.Proofs.Matching.Constant

/-!
# Slots of the variables and of the compounds put off

The compiler gives each variable of the head a slot, and each compound inside a
compound.  At run time the slots of the variables keep their words to the end,
while the compounds wait in a queue until their turn comes.
-/

namespace LogicMachine

/-- The slot keeps the subject of a compound that was put off. -/
def Keep.Serves (keep : Keep) (pattern : Pattern) : Prop :=
  pattern.source = .slot ⟨keep.place⟩ ∧
    Shape.of keep.term = .ok (.compound pattern.functor pattern.args)

/-- The slots of a draft, with the words that they keep at run time. -/
structure Draft.Arranges (draft : Draft) (named queue : List Keep) : Prop where
  lays : draft.Lays ((named ++ queue).map Keep.plan)
  areVariables : ∀ keep ∈ named, ∃ name, keep.term = .var name ∧
    name ≠ Term.anonymous ∧ draft.slots.lookup name = some ⟨keep.place⟩
  areCompounds : ∀ keep ∈ queue, ∃ functor args,
    Shape.of keep.term = .ok (.compound functor args)

namespace Draft.Arranges

variable {draft : Draft} {named queue : List Keep}

theorem inside (arranged : draft.Arranges named queue) {keep : Keep}
    (member : keep ∈ named ++ queue) :
    keep.place < draft.assembler.locals :=
  arranged.lays.inside keep.plan (List.mem_map_of_mem member)

/-- The slots are apart from the next one. -/
theorem ne_next (arranged : draft.Arranges named queue) :
    ∀ keep ∈ named ++ queue, keep.place ≠ draft.nextLocal.index :=
  fun _ member => Nat.ne_of_lt (arranged.inside member)

theorem ne_subject (arranged : draft.Arranges named queue)
    {subject cursor : Local} (works : draft.working = some (subject, cursor)) :
    ∀ keep ∈ named ++ queue, keep.place ≠ subject.index := by
  intro keep member
  exact ((arranged.lays.working subject cursor works).2.2.2 keep.plan
    (List.mem_map_of_mem member)).1

theorem ne_cursor (arranged : draft.Arranges named queue)
    {subject cursor : Local} (works : draft.working = some (subject, cursor)) :
    ∀ keep ∈ named ++ queue, keep.place ≠ cursor.index := by
  intro keep member
  exact ((arranged.lays.working subject cursor works).2.2.2 keep.plan
    (List.mem_map_of_mem member)).2

theorem withLabel (arranged : draft.Arranges named queue) :
    draft.withLabel.Arranges named queue :=
  ⟨arranged.lays.withLabel, arranged.areVariables, arranged.areCompounds⟩

theorem emitted (arranged : draft.Arranges named queue) (items : List Item) :
    (draft.emitted items).Arranges named queue :=
  ⟨arranged.lays.emitted items, arranged.areVariables, arranged.areCompounds⟩

theorem works {slots : Local × Local} {ready : Draft}
    (arranged : draft.Arranges named queue)
    (works : ClauseM.Works draft slots ready) :
    ready.Arranges named queue ∧ ready.working = some slots := by
  obtain ⟨lays, known⟩ := arranged.lays.works works
  refine ⟨⟨lays, ?_, arranged.areCompounds⟩, known⟩
  cases works with
  | fresh => exact arranged.areVariables
  | again => exact arranged.areVariables

/-- A variable that is met for the first time. -/
theorem withVariable (arranged : draft.Arranges named queue) {name : String}
    (isNamed : name ≠ Term.anonymous)
    (unknown : draft.slots.lookup name = none) (content : Word) :
    (draft.withVariable name).Arranges
      (⟨draft.nextLocal.index, content, .var name⟩ :: named) queue := by
  refine ⟨arranged.lays.withVariable name, ?_, arranged.areCompounds⟩
  intro keep member
  simp only [Draft.withVariable, List.lookup_cons]
  rcases List.mem_cons.mp member with rfl | old
  · exact ⟨name, rfl, isNamed, by simp⟩
  · obtain ⟨other, isVariable, isOther, found⟩ := arranged.areVariables keep old
    refine ⟨other, isVariable, isOther, ?_⟩
    have different : (other == name) = false := by
      apply beq_false_of_ne
      rintro rfl
      rw [found] at unknown
      cases unknown
    rw [different]
    exact found

/-- A compound is put off. -/
theorem withLocal (arranged : draft.Arranges named queue) {term : Term}
    {functor : Option Functor} {args : List Term}
    (decided : Shape.of term = .ok (.compound functor args))
    (content : Word) :
    draft.withLocal.Arranges named
      (queue ++ [⟨draft.nextLocal.index, content, term⟩]) := by
  refine ⟨?_, arranged.areVariables, ?_⟩
  · have more := arranged.lays.withLocal term
    have same : List.Perm
        (List.map Keep.plan
          (named ++ (queue ++ [⟨draft.nextLocal.index, content, term⟩])))
        ((draft.nextLocal.index, term) :: (named ++ queue).map Keep.plan) := by
      rw [← List.append_assoc, List.map_append]
      exact List.perm_append_singleton _ _
    refine ⟨?_, ?_, ?_⟩
    · exact fun plan member => more.inside plan (same.mem_iff.mp member)
    · intro subject cursor works
      obtain ⟨first, second, different, apart⟩ :=
        more.working subject cursor works
      exact ⟨first, second, different,
        fun plan member => apart plan (same.mem_iff.mp member)⟩
    · exact fun name slot found =>
        same.mem_iff.mpr (more.named name slot found)
  · intro keep member
    rcases List.mem_append.mp member with old | new
    · exact arranged.areCompounds keep old
    · cases List.mem_singleton.mp new
      exact ⟨functor, args, decided⟩

/-- The turn of the first compound has come. -/
theorem tail {keep : Keep} (arranged : draft.Arranges named (keep :: queue)) :
    draft.Arranges named queue := by
  refine ⟨arranged.lays.drop ?_ ?_, arranged.areVariables,
    fun other member => arranged.areCompounds other
      (List.mem_cons_of_mem _ member)⟩
  · apply List.map_subset
    intro other member
    rw [List.mem_append] at member ⊢
    exact member.imp_right (List.mem_cons_of_mem _)
  · intro place name member
    rw [List.map_append, List.map_cons, List.mem_append, List.mem_cons]
      at member
    rw [List.map_append, List.mem_append]
    rcases member with old | same | later
    · exact .inl old
    · obtain ⟨functor, args, decided⟩ :=
        arranged.areCompounds keep List.mem_cons_self
      have isVariable : keep.term = .var name :=
        (congrArg Prod.snd same).symm
      rw [isVariable, Shape.of] at decided
      split at decided <;> cases decided
    · exact .inr later

/-- The slot of a variable that is met again. -/
theorem lookup (arranged : draft.Arranges named queue) {name : String}
    {slot : Local} (found : draft.slots.lookup name = some slot) :
    ∃ word, ⟨slot.index, word, .var name⟩ ∈ named ++ queue := by
  obtain ⟨keep, member, same⟩ :=
    List.mem_map.mp (arranged.lays.named name slot found)
  obtain ⟨place, word, term⟩ := keep
  cases same
  exact ⟨word, member⟩

end Draft.Arranges

namespace Scene.Ready

variable {scene : Scene} {view : View} {cells : Set Address}
  {kept others : List Keep} {waiting later : List Demand}

/-- The same demands, some of them kept in slots before and now waiting. -/
theorem regrouped (ready : scene.Ready view cells kept waiting)
    (fewer : others ⊆ kept)
    (same : ∀ demand, demand ∈ later ++ others.map Keep.demand ↔
      demand ∈ waiting ++ kept.map Keep.demand) :
    scene.Ready view cells others later where
  terms := ready.terms
  pending := ready.pending
  operands := ready.operands
  below := ready.below
  length := ready.length
  continuation := ready.continuation
  cutBase := ready.cutBase
  stored := fun keep member => ready.stored keep (fewer member)
  awaited := by
    intro demand member
    exact ready.isTerm demand
      ((same demand).mp (List.mem_append_left _ member))
  refines := by
    refine ready.refines.trans (.of_iff ?_)
    intro T _ value bound _
    constructor
    · exact fun met demand member => met demand ((same demand).mp member)
    · exact fun met demand member => met demand ((same demand).mpr member)
  covered := by
    intro address inUse
    rcases ready.covered address inUse with
      old | inside | isHeader | ⟨demand, member, spared⟩
    · exact .inl old
    · exact .inr (.inl inside)
    · exact .inr (.inr (.inl isHeader))
    · have among := (same demand).mpr (List.mem_append_left _ member)
      rcases List.mem_append.mp among with waits | keeps
      · exact .inr (.inr (.inr ⟨demand, waits, spared⟩))
      · obtain ⟨keep, -, rfl⟩ := List.mem_map.mp keeps
        exact spared.elim

/-- A slot that was given out last goes to the end of the queue. -/
theorem queued {keep : Keep} {named queue : List Keep}
    (ready : scene.Ready view cells (keep :: (named ++ queue)) waiting) :
    scene.Ready view cells (named ++ (queue ++ [keep])) waiting := by
  apply ready.regrouped
  · intro other member
    simp only [List.mem_append, List.mem_cons, List.not_mem_nil, or_false]
      at member ⊢
    tauto
  · intro demand
    simp only [List.map_append, List.map_cons, List.map_nil, List.mem_append,
      List.mem_cons, List.not_mem_nil, or_false]
    tauto

/-- The first of the queue is no longer kept but waits. -/
theorem called {keep : Keep} {named queue : List Keep}
    (ready : scene.Ready view cells (named ++ (keep :: queue)) waiting) :
    scene.Ready view cells (named ++ queue) (keep.demand :: waiting) := by
  apply ready.regrouped
  · intro other member
    simp only [List.mem_append, List.mem_cons] at member ⊢
    tauto
  · intro demand
    simp only [List.map_append, List.map_cons, List.mem_append, List.mem_cons]
    tauto

end Scene.Ready

/-! ## The plan of a compound -/

namespace Slot

variable {naming : Naming} {draft after : Draft}

theorem Planned.working_eq {term : Term} {slot : Slot}
    (planned : Planned naming draft term slot after) :
    after.working = draft.working := by
  cases planned <;> rfl

end Slot

end LogicMachine
