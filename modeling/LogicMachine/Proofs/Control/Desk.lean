import LogicMachine.Clause.Compile
import LogicMachine.Proofs.Control.Frames
import LogicMachine.Proofs.Matching.Scene

/-!
# The record that a clause works on

The code of a clause finds its arguments below its slots, gives every variable a
slot of its own and shares two working slots between all matches.  Apart from the
working slots, all that the slots hold is plain.  The code is made of pieces each
of which leads from such a record to such a record.
-/

namespace LogicMachine

variable [Atoms]

/-! ## Items -/

namespace Activity

variable {activity : Activity} {wanted : Activity → Prop} {word : Word}
  {rest : List Word}

omit [Atoms] in
theorem then_replaced {update : Word → Word}
    (top : activity.operands = word :: rest)
    (holds : wanted { activity with operands := update word :: rest }) :
    Then.replaced activity wanted (fun word result => result = update word) := by
  unfold Then.replaced
  rw [top]
  rintro _ rfl
  exact holds

theorem then_loadConstant {value : UInt32}
    (holds : wanted (activity.push ⟨value.toUInt64⟩)) :
    activity.Then wanted (.operand .loadConstant value) :=
  holds

theorem then_duplicate (top : activity.operands = word :: rest)
    (holds : wanted (activity.push word)) :
    activity.Then wanted (.plain .duplicate) := by
  simp only [Then, top]
  exact holds

theorem then_increment (top : activity.operands = word :: rest)
    (holds : wanted { activity with operands := ⟨word.bits + 1⟩ :: rest }) :
    activity.Then wanted (.plain .increment) :=
  @then_replaced _ _ _ _ (fun word => ⟨word.bits + 1⟩) top holds

theorem then_getTag (top : activity.operands = word :: rest)
    (holds : wanted { activity with operands := ⟨word.tag.code⟩ :: rest }) :
    activity.Then wanted (.plain .getTag) :=
  @then_replaced _ _ _ _ (fun word => ⟨word.tag.code⟩) top holds

theorem then_getAddress (top : activity.operands = word :: rest)
    (holds : wanted { activity with operands := word.address.pack :: rest }) :
    activity.Then wanted (.plain .getAddress) :=
  @then_replaced _ _ _ _ (fun word => word.address.pack) top holds

theorem then_tagReference (top : activity.operands = word :: rest)
    (holds : wanted
      { activity with operands := word.withTag .reference :: rest }) :
    activity.Then wanted (.plain .tagReference) :=
  then_replaced top holds

theorem then_tagCompound (top : activity.operands = word :: rest)
    (holds : wanted
      { activity with operands := word.withTag .compound :: rest }) :
    activity.Then wanted (.plain .tagCompound) :=
  then_replaced top holds

theorem then_tagList (top : activity.operands = word :: rest)
    (holds : wanted
      { activity with operands := word.withTag .list :: rest }) :
    activity.Then wanted (.plain .tagList) :=
  then_replaced top holds

theorem then_tagFunctor (top : activity.operands = word :: rest)
    (holds : wanted
      { activity with operands := word.withTag .functor :: rest }) :
    activity.Then wanted (.plain .tagFunctor) :=
  then_replaced top holds

theorem then_tagConstant (top : activity.operands = word :: rest)
    (holds : wanted
      { activity with operands := word.withTag .constant :: rest }) :
    activity.Then wanted (.plain .tagConstant) :=
  then_replaced top holds

theorem then_add {first second : Word}
    (top : activity.operands = first :: second :: rest)
    (holds : wanted
      { activity with operands := ⟨first.bits + second.bits⟩ :: rest }) :
    activity.Then wanted (.plain .add) := by
  simp only [Then, top]
  exact holds

theorem then_storeHeapTop {top : Int32}
    (operands : activity.operands = word :: rest)
    (isHeap : word.address = .heap top)
    (higher : activity.memory.heapTop ≤ top)
    (fits : top.toNatClampNeg ≤ activity.memory.heap.size)
    (holds : wanted (raise { activity with operands := rest } top)) :
    activity.Then wanted (.plain .storeHeapTop) := by
  simp only [Then, operands]
  exact ⟨top, isHeap, higher, fits, holds⟩

theorem then_load (top : activity.operands = word :: rest)
    (holds : ∀ result, activity.Finds word.address result →
      wanted { activity with operands := result :: rest }) :
    activity.Then wanted (.plain .load) := by
  simp only [Then, Then.replaced, top]
  exact holds

theorem then_deref (top : activity.operands = word :: rest)
    (holds : ∀ root, activity.Reaches word.address root →
      wanted { activity with operands := root.pack :: rest }) :
    activity.Then wanted (.plain .deref) := by
  simp only [Then, Then.replaced, top]
  rintro _ ⟨root, reaches, rfl⟩
  exact holds root reaches

theorem then_store {value target : Word}
    (top : activity.operands = value :: target :: rest)
    (offStack : target.address.OffStack) (plain : value.Plain)
    (isOpen : activity.memory.Open activity.memory target.address)
    (holds : ∀ old, activity.memory.load target.address = .ok old →
      wanted (write { activity with operands := rest } target.address value)) :
    activity.Then wanted (.plain .store) := by
  simp only [Then, top]
  refine ⟨offStack, plain, isOpen, ?_⟩
  rintro ⟨old, present⟩
  exact holds old present

theorem then_loadLocal {slot : Local} (framed : activity.Framed)
    (small : slot.index < 2 ^ 31)
    (found : activity.locals[slot.index]? = some word)
    (holds : wanted (activity.push word)) :
    activity.Then wanted (Item.onLocal .loadLocal slot) := by
  refine ⟨framed, word, ?_, holds⟩
  rw [View.toNat_toUInt32 small]
  exact found

theorem then_storeLocal {slot : Local} (framed : activity.Framed)
    (small : slot.index < 2 ^ 31) (top : activity.operands = word :: rest)
    (inside : slot.index < activity.locals.length)
    (holds : wanted
      (setLocal { activity with operands := rest } slot.index word)) :
    activity.Then wanted (Item.onLocal .storeLocal slot) := by
  simp only [Item.onLocal, Then, top, View.toNat_toUInt32 small]
  exact ⟨framed, inside, holds⟩

theorem then_loadLocalAddress {slot : Local} (framed : activity.Framed)
    (small : slot.index < 2 ^ 31)
    (holds : wanted (activity.push (activity.slot slot.index).pack)) :
    activity.Then wanted (Item.onLocal .loadLocalAddress slot) := by
  simp only [Item.onLocal, Then, View.toNat_toUInt32 small]
  exact ⟨framed, holds⟩

end Activity

/-! ## Carrying activities along code -/

/-- The code leads every activity with one property to one with another. -/
def Setting.Carries (setting : Setting) (place : Label → Nat)
    (before : Activity → Prop) (items : List Item)
    (after : Activity → Prop) : Prop :=
  ∀ (turning : Machine → Prop) (position : Nat),
    setting.program.Holds place position items →
    (∀ later, after later →
      setting.Heads turning setting.Stays (position + textSize items) later) →
    ∀ activity, before activity → setting.Heads turning setting.Stays position activity

namespace Setting.Carries

variable {setting : Setting} {place : Label → Nat}
  {before middle after : Activity → Prop} {items more : List Item}

theorem nil (implies : ∀ activity, before activity → after activity) :
    setting.Carries place before [] after :=
  fun _ _ _ next activity holds => next activity (implies activity holds)

theorem append (first : setting.Carries place before items middle)
    (second : setting.Carries place middle more after) :
    setting.Carries place before (items ++ more) after := by
  intro turning position holds next
  obtain ⟨here, there⟩ := Program.holds_append.mp holds
  refine first turning position here fun later reached => ?_
  refine second turning _ there (fun last final => ?_) later reached
  rw [Nat.add_assoc, ← textSize_append]
  exact next last final

/-- Straight code, with what holds of every machine. -/
theorem straight
    (each : ∀ activity, before activity →
      setting.origin.Persists activity.memory → activity.memory.Tidy →
      activity.ThenAll after items) :
    setting.Carries place before items after := by
  intro turning position holds next activity starts
  refine Setting.Heads.knowing fun persists tidy => .straight holds ?_
  refine Activity.thenAll_mono (fun later reached => ?_)
    (each activity starts persists tidy)
  exact next later reached

theorem imp {last : Activity → Prop}
    (carries : setting.Carries place before items after)
    (implies : ∀ activity, after activity → last activity) :
    setting.Carries place before items last :=
  fun turning position holds next => carries turning position holds
    fun later reached => next later (implies later reached)

theorem flatMap {α : Type} {text : α → List Item} (values : List α)
    (each : ∀ value ∈ values,
      setting.Carries place before (text value) before) :
    setting.Carries place before (values.flatMap text) before := by
  induction values with
  | nil => exact .nil fun _ => id
  | cons value rest ih =>
      rw [List.flatMap_cons]
      exact (each value List.mem_cons_self).append
        (ih fun other member => each other (List.mem_cons_of_mem _ member))

end Setting.Carries

/-! ## Records -/

/-- How a clause uses its record. -/
structure Desk where
  /-- The stack below the slots: the arguments are right below the two words
  that were saved. -/
  below : List Word
  arity : Nat
  /-- The number of slots. -/
  count : Nat
  /-- The working slots. -/
  working : List Nat
  /-- Slots that are left alone, with the words in them. -/
  fixed : List (Nat × Word)

namespace Desk

/-- The arguments are plain and the numbers are small. -/
structure Sound (desk : Desk) : Prop where
  arguments : ∀ index < desk.arity, ∃ word,
    desk.below[desk.below.length - 3 - index]? = some word ∧ word.Plain
  room : desk.arity + 2 ≤ desk.below.length
  arity : desk.arity < 2 ^ 31
  count : desk.count < 2 ^ 31
  apart : ∀ slot word, (slot, word) ∈ desk.fixed → slot ∉ desk.working

/-- The slot holds a term. -/
structure Keeps (desk : Desk) (slot : Local) : Prop where
  inside : slot.index < desk.count
  apart : slot.index ∉ desk.working

/-- The slot may be given a term. -/
structure Frees (desk : Desk) (slot : Local) : Prop
    extends desk.Keeps slot where
  notFixed : ∀ kept word, (kept, word) ∈ desk.fixed → kept ≠ slot.index

/-- The slot is a working slot. -/
structure Works (desk : Desk) (slot : Local) : Prop where
  inside : slot.index < desk.count
  member : slot.index ∈ desk.working

/-- The activity has a record of that kind. -/
structure Neat (desk : Desk) (activity : Activity) : Prop where
  framed : activity.Framed
  below : activity.below = desk.below
  length : activity.locals.length = desk.count
  plain : ∀ (index : Nat) word, index ∉ desk.working →
    activity.locals[index]? = some word → word.Plain
  fixed : ∀ slot word, (slot, word) ∈ desk.fixed →
    activity.locals[slot]? = some word

/-- A neat record without operands, and something more about the memory and the
slots. -/
structure Clear (desk : Desk) (extra : Store → List Word → Prop)
    (activity : Activity) : Prop extends desk.Neat activity where
  operands : activity.operands = []
  extra : extra activity.memory activity.locals

/-- Nothing more. -/
def anything : Store → List Word → Prop :=
  fun _ _ => True

/-- A condition that building terms cannot break: it does not depend on cells
that are not in use, nor on slots that hold terms. -/
structure Stable (desk : Desk) (extra : Store → List Word → Prop) :
    Prop where
  write : ∀ {memory : Store} {locals index old} (word : Word),
    extra memory locals → memory.heapTop ≤ index →
    memory.load (.heap index) = .ok old →
    extra (memory.put (.heap index) word) locals
  raise : ∀ {memory : Store} {locals} {top : Int32}, extra memory locals →
    memory.heapTop ≤ top → extra { memory with heapTop := top } locals
  keep : ∀ {memory locals} {index : Nat} (word : Word), extra memory locals →
    index ∉ desk.working → extra memory (locals.set index word)

omit [Atoms] in
theorem stable_anything (desk : Desk) : desk.Stable anything :=
  ⟨fun _ _ _ _ => trivial, fun _ _ => trivial, fun _ _ _ => trivial⟩

/-- The stack slot with that index holds a plain word and is no working
slot. -/
structure Fixes (desk : Desk) (activity : Activity) (index : Nat)
    (word : Word) : Prop where
  found : activity.frame[index]? = some word
  plain : word.Plain
  apart : ∀ slot ∈ desk.working, index ≠ desk.below.length + slot

/-- An address at which there is a term. -/
def Places (desk : Desk) (activity : Activity) (address : Address) : Prop :=
  address.OffStack ∨ ∃ index word, address = .stack (Int32.ofNat index) ∧
    desk.Fixes activity index word

variable {desk : Desk} {activity : Activity}

theorem Places.places {address : Address}
    (places : desk.Places activity address) : Runs.Places activity address := by
  rcases places with offStack | ⟨index, word, same, fixes⟩
  · exact .inl offStack
  · exact .inr ⟨index, word, same, fixes.found, fixes.plain⟩

/-- What is read where there is a term is plain. -/
theorem Places.plain {address : Address} (places : desk.Places activity address)
    (tidy : activity.memory.Tidy) {word : Word}
    (finds : activity.Finds address word) : word.Plain := by
  rcases places with offStack | ⟨index, known, same, fixes⟩
  · exact tidy.cells offStack (finds.cell offStack)
  · rw [finds.slot index known same fixes.found]
    exact fixes.plain

namespace Neat

/-- Operands and memory do not matter. -/
theorem congr (neat : desk.Neat activity) {later : Activity}
    (environment : later.environment = activity.environment)
    (below : later.below = activity.below)
    (locals : later.locals = activity.locals) : desk.Neat later where
  framed := by
    have framed := neat.framed
    unfold Activity.Framed at framed ⊢
    rw [environment, below, framed]
  below := below.trans neat.below
  length := locals ▸ neat.length
  plain := locals ▸ neat.plain
  fixed := locals ▸ neat.fixed

theorem exists_local (neat : desk.Neat activity) {slot : Local}
    (keeps : desk.Keeps slot) :
    ∃ word, activity.locals[slot.index]? = some word ∧ word.Plain := by
  have inside : slot.index < activity.locals.length := by
    rw [neat.length]
    exact keeps.inside
  have found := List.getElem?_eq_getElem inside
  exact ⟨_, found, neat.plain _ _ keeps.apart found⟩

/-- A plain word is put in a slot for a term. -/
theorem setLocal (neat : desk.Neat activity) {slot : Local}
    (frees : desk.Frees slot) {word : Word} (plain : word.Plain) :
    desk.Neat (activity.setLocal slot.index word) where
  framed := neat.framed
  below := neat.below
  length := by
    show (activity.locals.set _ _).length = _
    rw [List.length_set]
    exact neat.length
  plain := by
    intro index other apart found
    simp only [Activity.setLocal, List.getElem?_set] at found
    split at found
    case isTrue =>
      split at found
      · cases found
        exact plain
      · cases found
    case isFalse => exact neat.plain index other apart found
  fixed := by
    intro kept other isFixed
    show (activity.locals.set _ _)[kept]? = _
    rw [List.getElem?_set_ne (frees.notFixed kept other isFixed).symm]
    exact neat.fixed kept other isFixed

/-- Any word is put in a working slot. -/
theorem setWorking (neat : desk.Neat activity) (sound : desk.Sound)
    {slot : Local} (works : desk.Works slot) (word : Word) :
    desk.Neat (activity.setLocal slot.index word) where
  framed := neat.framed
  below := neat.below
  length := by
    show (activity.locals.set _ _).length = _
    rw [List.length_set]
    exact neat.length
  plain := by
    intro index other apart found
    have different : slot.index ≠ index := by
      rintro rfl
      exact apart works.member
    simp only [Activity.setLocal, List.getElem?_set_ne different] at found
    exact neat.plain index other apart found
  fixed := by
    intro kept other isFixed
    have different : slot.index ≠ kept := by
      rintro rfl
      exact sound.apart slot.index other isFixed works.member
    show (activity.locals.set _ _)[kept]? = _
    rw [List.getElem?_set_ne different]
    exact neat.fixed kept other isFixed

theorem fixes_argument (neat : desk.Neat activity) (sound : desk.Sound)
    {index : Nat} (inside : index < desk.arity) :
    ∃ word, desk.Fixes activity (activity.below.length - 3 - index) word := by
  obtain ⟨word, found, plain⟩ := sound.arguments index inside
  have room := sound.room
  refine ⟨word, ?_, plain, ?_⟩
  · rw [Activity.frame, List.getElem?_append_left (by rw [neat.below]; omega),
      neat.below]
    exact found
  · intro slot _
    rw [neat.below]
    omega

theorem fixes_slot (neat : desk.Neat activity) {slot : Local}
    (keeps : desk.Keeps slot) :
    ∃ word, desk.Fixes activity (activity.below.length + slot.index) word := by
  obtain ⟨word, found, plain⟩ := neat.exists_local keeps
  refine ⟨word, ?_, plain, ?_⟩
  · rw [Activity.frame, List.getElem?_append_right (Nat.le_add_right _ _),
      Nat.add_sub_cancel_left]
    exact found
  · intro other member same
    have equal : other = slot.index := by
      rw [neat.below] at same
      omega
    exact keeps.apart (equal ▸ member)

theorem places_slot (neat : desk.Neat activity) {slot : Local}
    (keeps : desk.Keeps slot) :
    desk.Places activity (activity.slot slot.index) := by
  obtain ⟨word, fixes⟩ := neat.fixes_slot keeps
  exact .inr ⟨_, word, rfl, fixes⟩

end Neat

/-- One more slot is left alone. -/
def fixing (desk : Desk) (slot : Nat) (word : Word) : Desk :=
  { desk with fixed := (slot, word) :: desk.fixed }

theorem Neat.fixing {slot : Nat} {word : Word} (neat : desk.Neat activity)
    (found : activity.locals[slot]? = some word) :
    (desk.fixing slot word).Neat activity := by
  refine ⟨neat.framed, neat.below, neat.length, neat.plain, ?_⟩
  intro kept other member
  rcases List.mem_cons.mp member with same | old
  · cases same
    exact found
  · exact neat.fixed kept other old

theorem Clear.fixing {extra : Store → List Word → Prop} {slot : Nat}
    {word : Word} (clear : desk.Clear extra activity)
    (found : activity.locals[slot]? = some word) :
    (desk.fixing slot word).Clear extra activity :=
  ⟨clear.toNeat.fixing found, clear.operands, clear.extra⟩

theorem Sound.fixing (sound : desk.Sound) {slot : Local}
    (keeps : desk.Keeps slot) (word : Word) :
    (desk.fixing slot.index word).Sound where
  arguments := sound.arguments
  room := sound.room
  arity := sound.arity
  count := sound.count
  apart := by
    intro kept other member
    rcases List.mem_cons.mp member with same | old
    · cases same
      exact keeps.apart
    · exact sound.apart kept other old

/-- A change of a working slot is not seen. -/
theorem Fixes.setWorking {index : Nat} {word : Word}
    (fixes : desk.Fixes activity index word) (neat : desk.Neat activity)
    {slot : Nat} (member : slot ∈ desk.working) (other : Word) :
    desk.Fixes (activity.setLocal slot other) index word := by
  refine ⟨?_, fixes.plain, fixes.apart⟩
  have different := fixes.apart slot member
  have found := fixes.found
  rw [← neat.below] at different
  show (activity.below ++ activity.locals.set slot other)[index]? = some word
  rw [Activity.frame] at found
  by_cases lower : index < activity.below.length
  · rwa [List.getElem?_append_left lower] at found ⊢
  · rw [List.getElem?_append_right (by omega)] at found ⊢
    rw [List.getElem?_set_ne (by omega)]
    exact found

end Desk

end LogicMachine
