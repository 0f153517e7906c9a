import LogicMachine.Proofs.Construction.Blocks
import LogicMachine.Proofs.Construction.Moves

/-!
# The pieces of code that build

Each piece of code that builds something claims the next heap cells and writes
the words of built terms in them.  The stack below its own operands stays, apart
from the slot in which the result is kept.
-/

namespace LogicMachine

/-- The word that a built term has in a view. -/
def Built.Stands (view : View) : Built → Word → Prop
  | .slot place, word => place.index < 2 ^ 31 ∧
      view.locals[place.index]? = some (.word word)
  | .constant id, word => word = .constant id

/-- The built term is in no slot from a given one on. -/
def Built.Below (bound : Nat) : Built → Prop
  | .slot place => place.index < bound
  | .constant _ => True

namespace View

variable {view later : View} {limit : Nat} {word : Word} {value : Built}

/-- The view with some cells claimed. -/
def withMemory (view : View) (memory : Store) : View :=
  { view with memory, pending := [] }

/-- There is room on the stack for so many more words. -/
def Leaves (view : View) (limit count : Nat) : Prop :=
  view.stack.length + count ≤ limit

theorem Leaves.lt {count : Nat} (leaves : view.Leaves limit (count + 1)) :
    view.stack.length < limit := by
  unfold Leaves at leaves
  omega

theorem Leaves.push {count : Nat} (leaves : view.Leaves limit (count + 1))
    (operand : Operand) : (view.push operand).Leaves limit count := by
  unfold Leaves at leaves ⊢
  rw [stack_push, List.length_append, List.length_singleton]
  omega

theorem stack_length_congr (frame : later.frame.length = view.frame.length)
    (operands : later.operands.length = view.operands.length) :
    later.stack.length = view.stack.length := by
  simp only [stack, List.length_append, List.length_reverse, List.length_map,
    frame, operands]

theorem Leaves.congr {count : Nat} (leaves : view.Leaves limit count)
    (frame : later.frame.length = view.frame.length)
    (operands : later.operands.length = view.operands.length) :
    later.Leaves limit count := by
  unfold Leaves
  rw [stack_length_congr frame operands]
  exact leaves

theorem Runs.one {item : Item} (moves : Moves limit view item later) :
    Runs limit view [item] later :=
  .cons moves (.nil later)

/-- Claiming the cell that was just written. -/
theorem runs_claimCell (growable : view.memory.Growable)
    (leaves : view.Leaves limit 1) :
    Runs limit (view.prepare view.memory.heapTop word) Item.claimCell
      (view.withMemory (view.memory.grown word)) := by
  refine .cons (.loadHeapTop leaves.lt) ?_
  refine .cons (.increment rfl growable.nonnegative) ?_
  refine .one (.storeHeapTop rfl growable.le_succ ?_)
  show (view.memory.heapTop + 1).toNatClampNeg ≤ _
  rw [growable.toNatClampNeg_succ]
  simpa [prepare, push] using Nat.succ_le_of_lt growable.fits

theorem runs_push (stands : value.Stands view word)
    (leaves : view.Leaves limit 1) :
    Runs limit view value.push (view.push (.word word)) := by
  have room := leaves.lt
  cases value with
  | slot place => exact .one (.loadLocal stands.1 stands.2 room)
  | constant id =>
      cases stands
      exact .cons (.loadConstant id.index room) (.one (.tagConstant rfl))

/-- Writing the word of a built term in the next cell. -/
theorem runs_write (stands : value.Stands view word)
    (growable : view.memory.Growable) (leaves : view.Leaves limit 2) :
    Runs limit view value.write
      (view.withMemory (view.memory.grown word)) := by
  have leaves' : view.Leaves limit 1 := Nat.le_of_succ_le leaves
  let topped := view.push (.address (.heap view.memory.heapTop))
  have stands' : value.Stands topped word := by
    cases value <;> exact stands
  have pushes := runs_push stands' (Leaves.push leaves _)
  have stored : Moves limit (topped.push (.word word)) (.plain .store)
      (view.prepare view.memory.heapTop word) :=
    .store rfl growable.nonnegative growable.fits
  have claims : Runs limit (view.prepare view.memory.heapTop word)
      Item.claimCell (view.withMemory (view.memory.grown word)) :=
    runs_claimCell growable leaves'
  rw [Built.write, List.cons_append, List.cons_append]
  refine .cons (.loadHeapTop (Leaves.lt leaves)) ?_
  exact (pushes.append (.one stored)).append claims

/-- Writing the words of built terms in the next cells. -/
theorem runs_writeAll {values : List Built} {words : List Word}
    (stand : List.Forall₂ (Built.Stands view) values words)
    (pending : view.pending = [])
    (spares : view.memory.Spares words.length) (leaves : view.Leaves limit 2) :
    Runs limit view (values.flatMap Built.write)
      (view.withMemory (view.memory.grownAll words)) := by
  induction values generalizing view words with
  | nil =>
      cases stand
      have same : view.withMemory (view.memory.grownAll []) = view := by
        rw [withMemory, ← pending]
        rfl
      rw [same]
      exact .nil view
  | cons value values ih =>
      cases stand with
      | @cons _ word _ words first rest =>
          have write := runs_write first spares.growable leaves
          have stand : List.Forall₂
              (Built.Stands (view.withMemory (view.memory.grown word))) values
              words := rest.imp fun value word stands => by
            cases value <;> exact stands
          have others := ih stand rfl (spares.grown word)
            (leaves.congr rfl rfl)
          exact write.append others

/-- The view when a slot has got the word of what was built. -/
def built (view : View) (memory : Store) (slot : Local) (word : Word) : View :=
  (view.withMemory memory).setLocal slot.index (.word word)

theorem Leaves.setLocal {count : Nat} (leaves : view.Leaves limit count)
    (index : Nat) (operand : Operand) :
    (view.setLocal index operand).Leaves limit count :=
  leaves.congr (by simp [frame, View.setLocal]) rfl

/-- Making a new variable. -/
theorem runs_freshVariable {slot : Local} (small : slot.index < 2 ^ 31)
    (inside : slot.index < view.locals.length)
    (growable : view.memory.Growable) (leaves : view.Leaves limit 2) :
    Runs limit view (Item.freshVariable (some slot))
      (view.built
        (view.memory.grown (.reference (.heap view.memory.heapTop))) slot
        (.reference (.heap view.memory.heapTop))) := by
  let cell := Address.heap view.memory.heapTop
  let prepared := view.prepare view.memory.heapTop (.reference cell)
  have leaves' : view.Leaves limit 1 := Nat.le_of_succ_le leaves
  obtain ⟨old, there⟩ := @Store.exists_load view.memory .heap _
    growable.nonnegative growable.fits
  have loads : (prepared.push (.address cell)).Loads cell (.reference cell) :=
    .inl ⟨.inr List.mem_cons_self, Store.load_put_self there _⟩
  have first : Runs limit view
      [Item.top, .plain .duplicate, .plain .tagReference, .plain .store]
      prepared := by
    refine .cons (.loadHeapTop leaves.lt) ?_
    refine .cons (.duplicate rfl (leaves.push _).lt) ?_
    refine .cons (.tagReference rfl) ?_
    exact .one (.store rfl growable.nonnegative growable.fits)
  have second : Runs limit prepared
      [Item.top, .plain .load, Item.onLocal .storeLocal slot]
      (prepared.setLocal slot.index (.word (.reference cell))) := by
    refine .cons (.loadHeapTop (Leaves.lt (leaves'.congr rfl rfl))) ?_
    refine .cons (.load rfl loads) ?_
    exact .one (.storeLocal small rfl inside)
  have claims := @runs_claimCell
    (view.setLocal slot.index (.word (.reference cell))) limit
    (.reference cell) growable (leaves'.setLocal _ _)
  exact (first.append second).append claims

end View

/-- Another slot than that of the term is changed. -/
theorem Built.Stands.built {view : View} {word : Word} {value : Built}
    {slot : Local} {other : Word}
    (stands : value.Stands view word) (below : value.Below slot.index)
    (memory : Store) : value.Stands (view.built memory slot other) word := by
  cases value with
  | slot place =>
      refine ⟨stands.1, ?_⟩
      rw [View.built, View.locals_setLocal_of_ne (Nat.ne_of_lt below)]
      exact stands.2
  | constant id => exact stands

theorem Built.Stands.all_built {view : View} {values : List Built}
    {words : List Word} (stand : List.Forall₂ (Built.Stands view) values words)
    {slot : Local} (below : ∀ value ∈ values, value.Below slot.index)
    (memory : Store) (other : Word) :
    List.Forall₂ (Built.Stands (view.built memory slot other)) values
      words := by
  induction stand with
  | nil => exact .nil
  | cons first _ ih =>
      exact .cons (first.built (below _ List.mem_cons_self) memory)
        (ih fun value member => below value (List.mem_cons_of_mem _ member))

namespace View

variable {view : View} {limit : Nat}

/-- The next two cells get the word of a structure and its functor. -/
theorem runs_header {slot : Local} {id : FunctorId}
    (small : slot.index < 2 ^ 31) (inside : slot.index < view.locals.length)
    (spares : view.memory.Spares 2) (leaves : view.Leaves limit 2) :
    Runs limit view
      ([Item.top, .plain .increment, .plain .tagCompound,
          Item.onLocal .storeLocal slot,
          Item.top, Item.onLocal .loadLocal slot, .plain .store] ++
        Item.claimHeader id)
      (view.built (view.memory.withStructure id []) slot
        (.compound (.heap (view.memory.heapTop + 1)))) := by
  let own : Word := .compound (.heap (view.memory.heapTop + 1))
  let kept := view.setLocal slot.index (.word own)
  let prepared := kept.prepare view.memory.heapTop own
  let headed := prepared.prepare (view.memory.heapTop + 1) (.functor id)
  have first : view.memory.Growable := spares.growable
  have second : (view.memory.grown own).Growable := (spares.grown own).growable
  have nonnegative : 0 ≤ view.memory.heapTop + 1 := second.nonnegative
  have room : kept.Leaves limit 2 := leaves.setLocal _ _
  have writes : Runs limit view
      [Item.top, .plain .increment, .plain .tagCompound,
        Item.onLocal .storeLocal slot,
        Item.top, Item.onLocal .loadLocal slot, .plain .store] prepared := by
    refine .cons (.loadHeapTop leaves.lt) ?_
    refine .cons (.increment rfl first.nonnegative) ?_
    refine .cons (.tagCompound rfl) ?_
    refine .cons (.storeLocal small rfl inside) ?_
    refine .cons (.loadHeapTop room.lt) ?_
    refine .cons (.loadLocal small (locals_setLocal_self inside)
      (room.push _).lt) ?_
    exact .one (.store rfl first.nonnegative first.fits)
  have size : prepared.memory.heap.size = view.memory.heap.size := by
    simp [prepared, kept, prepare, setLocal]
  have fits : (view.memory.heapTop + 1).toNatClampNeg <
      prepared.memory.heap.size := by
    have fits := second.fits
    rw [Store.heap_size_grown] at fits
    rw [size]
    exact fits
  have heads : Runs limit prepared
      [Item.top, .plain .increment, .operand .loadConstant id.index,
        .plain .tagFunctor, .plain .store] headed := by
    refine .cons (.loadHeapTop (Leaves.lt (room.congr rfl rfl))) ?_
    refine .cons (.increment rfl first.nonnegative) ?_
    refine .cons (.loadConstant id.index
      (Leaves.lt ((room.push _).congr rfl rfl))) ?_
    refine .cons (.tagFunctor rfl) ?_
    exact .one (.store rfl nonnegative fits)
  have sum : view.memory.heapTop + Int32.ofNat 2 =
      view.memory.heapTop + 1 + 1 := by
    rw [Int32.add_assoc]
    rfl
  have upper : view.memory.heapTop ≤ view.memory.heapTop + Int32.ofNat 2 := by
    rw [sum]
    exact Int32.le_trans first.le_succ second.le_succ
  have enough : (view.memory.heapTop + Int32.ofNat 2).toNatClampNeg ≤
      headed.memory.heap.size := by
    have next : (view.memory.heapTop + 1 + 1).toNatClampNeg =
        (view.memory.heapTop + 1).toNatClampNeg + 1 :=
      second.toNatClampNeg_succ
    rw [sum, next]
    simpa [headed, prepare] using Nat.succ_le_of_lt fits
  have claims : Runs limit headed
      [Item.top, .operand .loadConstant 2, .plain .add, .plain .storeHeapTop]
      (headed.raise (view.memory.heapTop + Int32.ofNat 2)) := by
    refine .cons (.loadHeapTop (Leaves.lt (room.congr rfl rfl))) ?_
    refine .cons (.loadConstant 2
      (Leaves.lt ((room.push _).congr rfl rfl))) ?_
    refine .cons (@Moves.add limit _ view.memory.heapTop 2 _ rfl
      first.nonnegative (by decide)) ?_
    exact .one (.storeHeapTop rfl upper enough)
  have same : headed.raise (view.memory.heapTop + Int32.ofNat 2) =
      view.built (view.memory.withStructure id []) slot own := by
    rw [sum]
    rfl
  rw [← same]
  exact writes.append (heads.append claims)

theorem runs_structureItems {slot : Local} {id : FunctorId}
    {values : List Built} {words : List Word}
    (small : slot.index < 2 ^ 31) (inside : slot.index < view.locals.length)
    (stand : List.Forall₂ (Built.Stands view) values words)
    (below : ∀ value ∈ values, value.Below slot.index)
    (spares : view.memory.Spares (words.length + 2))
    (leaves : view.Leaves limit 2) :
    Runs limit view (Built.structureItems slot id values)
      (view.built (view.memory.withStructure id words) slot
        (.compound (.heap (view.memory.heapTop + 1)))) := by
  have header := @runs_header view limit slot id small inside
    (spares.mono (Nat.le_add_left _ _)) leaves
  have room : (view.memory.withStructure id []).Spares words.length :=
    (spares.grown _).grown _
  exact header.append (runs_writeAll (Built.Stands.all_built stand below _ _)
    rfl room ((leaves.setLocal _ _).congr rfl rfl))

theorem runs_pairItems {slot : Local} {head tail : Built}
    {first second : Word}
    (small : slot.index < 2 ^ 31) (inside : slot.index < view.locals.length)
    (headStands : head.Stands view first) (headBelow : head.Below slot.index)
    (tailStands : tail.Stands view second) (tailBelow : tail.Below slot.index)
    (pending : view.pending = [])
    (spares : view.memory.Spares 2) (leaves : view.Leaves limit 2) :
    Runs limit view (Built.pairItems slot head tail)
      (view.built (view.memory.grownAll [first, second]) slot
        (.list (.heap view.memory.heapTop))) := by
  have same : view.built view.memory slot (.list (.heap view.memory.heapTop)) =
      view.setLocal slot.index (.word (.list (.heap view.memory.heapTop))) := by
    rw [built, withMemory, ← pending]
  have room := leaves.setLocal slot.index
    (.word (.list (.heap view.memory.heapTop)))
  have kept : Runs limit view
      [Item.top, .plain .tagList, Item.onLocal .storeLocal slot]
      (view.built view.memory slot (.list (.heap view.memory.heapTop))) := by
    rw [same]
    refine .cons (.loadHeapTop leaves.lt) ?_
    exact .cons (.tagList rfl) (.one (.storeLocal small rfl inside))
  have writes := @runs_writeAll
    (view.built view.memory slot (.list (.heap view.memory.heapTop))) limit
    [head, tail] [first, second]
    (.cons (headStands.built headBelow _)
      (.cons (tailStands.built tailBelow _) .nil)) rfl spares
    (by rw [same]; exact room)
  simp only [List.flatMap_cons, List.flatMap_nil, List.append_nil] at writes
  rw [Built.pairItems, List.append_assoc]
  exact kept.append writes

end View

end LogicMachine
