import LogicMachine.Proofs.Control.Subjects

/-!
# Matching compounds

A compound in the head is built on the heap if its subject is unbound, and
compared cell by cell otherwise.  In the first case nothing but new cells is
written until the subject is bound.  In the second case the cursor starts at a
plain address and is moved up once for each argument, so it never gets as far as
the stack.
-/

namespace LogicMachine

variable [Atoms]

namespace Desk

variable {desk : Desk} {setting : Setting} {place : Label → Nat}

/-- The slots that the plan of an argument uses. -/
def Admits (desk : Desk) : Slot → Prop
  | .void => True
  | .constant functor _ _ => Atoms.includes functor
  | .first slot | .nested slot _ _ => desk.Frees slot
  | .again slot => desk.Keeps slot

theorem builds_writeSlot (sound : desk.Sound) {slot : Slot}
    (admits : desk.Admits slot) :
    desk.Builds setting place (Pattern.writeSlot slot) := by
  cases slot with
  | void =>
      rw [Pattern.writeSlot]
      exact builds_freshVariable sound (by simp)
  | first slot =>
      rw [Pattern.writeSlot]
      exact builds_freshVariable sound (by rintro given ⟨⟩; exact admits)
  | nested slot functor args =>
      rw [Pattern.writeSlot]
      exact builds_freshVariable sound (by rintro given ⟨⟩; exact admits)
  | again slot => exact @builds_write _ _ _ _ sound (.slot slot) admits
  | constant functor read done =>
      exact @builds_write _ _ _ _ sound (.constant functor) admits

/-! ## Writing -/

/-- What is to be bound is known, and the subject is still unbound. -/
structure Pending (origin : Store) (subject cursor : Local) (root : Address)
    (cell : Int32) (memory : Store) (locals : List Word) : Prop where
  top : origin.heapTop ≤ memory.heapTop
  isOpen : origin.Open memory root
  stored : locals[subject.index]? = some root.pack
  built : locals[cursor.index]? = some (Address.heap cell).pack

omit [Atoms] in
theorem stable_pending (origin : Store) {subject cursor : Local}
    (worksSubject : desk.Works subject) (worksCursor : desk.Works cursor)
    (root : Address) (cell : Int32) :
    desk.Stable (Pending origin subject cursor root cell) where
  write := by
    intro memory locals index old word pending above present
    refine ⟨?_, ?_, pending.stored, pending.built⟩
    · rw [Store.put_heapTop]
      exact pending.top
    · intro other same below found loaded
      have different : Address.heap other ≠ .heap index := by
        intro equal
        cases equal
        exact Int32.lt_irrefl (Int32.lt_of_lt_of_le below
          (Int32.le_trans pending.top above))
      rw [same, Store.load_put_of_ne present word different, ← same] at loaded
      exact pending.isOpen other same below found loaded
  raise := by
    intro memory locals top pending higher
    exact ⟨Int32.le_trans pending.top higher, pending.isOpen, pending.stored,
      pending.built⟩
  keep := by
    intro memory locals index word pending apart
    have different {slot : Local} (works : desk.Works slot) :
        index ≠ slot.index := by
      rintro rfl
      exact apart works.member
    refine ⟨pending.top, pending.isOpen, ?_, ?_⟩
    · rw [List.getElem?_set_ne (different worksSubject)]
      exact pending.stored
    · rw [List.getElem?_set_ne (different worksCursor)]
      exact pending.built

/-- The first cell of a compound is written and claimed. -/
theorem carries_openCompound (sound : desk.Sound) {subject cursor : Local}
    (worksCursor : desk.Works cursor) (different : cursor.index ≠ subject.index)
    (worksSubject : desk.Works subject) (functor : Option FunctorId)
    {root : Address} {cell : Int32} :
    setting.Carries place
      (fun activity => desk.Subject subject anything root activity ∧
        activity.memory.Open activity.memory root ∧
        activity.memory.heapTop = cell)
      ([Item.top, .plain .duplicate, .plain .increment,
          .plain (if functor.isSome then .tagCompound else .tagList),
          .plain .store, Item.top, Item.onLocal .storeLocal cursor] ++
        (match functor with
          | some functor => Item.claimHeader functor
          | none => Item.claimCell))
      (desk.Clear (Pending setting.origin subject cursor root cell)) := by
  have stable := stable_pending setting.origin worksSubject worksCursor root cell
  have opened : setting.Carries place
      (fun activity => desk.Subject subject anything root activity ∧
        activity.memory.Open activity.memory root ∧
        activity.memory.heapTop = cell)
      [Item.top, .plain .duplicate, .plain .increment,
        .plain (if functor.isSome then .tagCompound else .tagList),
        .plain .store, Item.top, Item.onLocal .storeLocal cursor]
      (fun activity =>
        desk.Clear (Pending setting.origin subject cursor root cell) activity ∧
          ∃ word, activity.memory.load (.heap activity.memory.heapTop) =
            .ok word) := by
    refine .straight fun activity ⟨held, isOpen, isTop⟩ persists tidy => ?_
    have inside : cursor.index < activity.locals.length := by
      rw [held.length]
      exact worksCursor.inside
    have finish (value : Word) (plain : value.Plain) :
        Activity.ThenAll
          { activity with operands := value ::
            (Address.heap activity.memory.heapTop).pack ::
              activity.operands }
          (fun activity =>
            desk.Clear (Pending setting.origin subject cursor root cell)
              activity ∧
            ∃ word, activity.memory.load (.heap activity.memory.heapTop) =
              .ok word)
          [.plain .store, Item.top, Item.onLocal .storeLocal cursor] := by
      refine Activity.then_storeTop rfl plain fun old present => ?_
      refine Activity.then_top ?_
      refine Activity.then_storeLocal held.framed
        (Nat.lt_trans worksCursor.inside sound.count) rfl inside ?_
      refine ⟨⟨(held.toNeat.setWorking sound worksCursor _).congr rfl rfl rfl,
        held.operands, ?_⟩, value, ?_⟩
      · have start : setting.origin.Open activity.memory root :=
          fun index same below => isOpen index same
            (Int32.lt_of_lt_of_le below persists.heapTop)
        have pending : Pending setting.origin subject cursor root cell
            activity.memory (activity.locals.set cursor.index
              (Address.heap activity.memory.heapTop).pack) := by
          refine ⟨persists.heapTop, start, ?_, ?_⟩
          · rw [List.getElem?_set_ne different]
            exact held.stored
          · rw [List.getElem?_set_self inside, isTop]
        exact stable.write value pending (Int32.le_refl _) present
      · exact Store.load_put_self present value
    have next := Word.plain_next tidy.heapTop_nonneg
    refine Activity.then_top (Activity.then_duplicate rfl
      (Activity.then_increment rfl ?_))
    cases functor with
    | some functor =>
        exact Activity.then_tagCompound rfl
          (finish _ (Word.plain_withTag next (by decide)))
    | none =>
        exact Activity.then_tagList rfl (finish _ (Word.plain_withTag next (by decide)))
  refine opened.append ?_
  cases functor with
  | some functor =>
      intro turning position holds later activity starts
      exact builds_claimHeader functor _ stable turning position holds later
        activity starts.1
  | none =>
      refine .straight fun activity ⟨clear, word, present⟩ _ tidy => ?_
      refine Activity.then_claimCell tidy present ?_
      refine ⟨clear.toNeat.congr rfl rfl rfl, clear.operands, ?_⟩
      exact stable.raise clear.extra (tidy.claims present).1

/-- The whole compound is built and the subject bound to it. -/
theorem carries_writeCompound (sound : desk.Sound) {subject cursor : Local}
    (worksSubject : desk.Works subject) (worksCursor : desk.Works cursor)
    (different : cursor.index ≠ subject.index) (functor : Option FunctorId)
    {slots : List Slot} (admits : ∀ slot ∈ slots, desk.Admits slot)
    (root : Address) :
    setting.Carries place
      (fun activity => desk.Subject subject anything root activity ∧
        root.OffStack ∧ activity.memory.Open activity.memory root)
      (Pattern.writeCompound subject cursor functor slots)
      (desk.Clear anything) := by
  intro turning position holds next activity ⟨held, offStack, isOpen⟩
  have stable := stable_pending setting.origin worksSubject worksCursor root
    activity.memory.heapTop
  refine Setting.Heads.knowing fun persists _ => ?_
  have top := persists.heapTop
  unfold Pattern.writeCompound at holds next
  rw [Program.holds_append] at holds
  rw [textSize_append, ← Nat.add_assoc] at next
  obtain ⟨building, binding⟩ := holds
  have built := (@carries_openCompound _ _ setting place sound _ _ worksCursor
    different worksSubject functor root activity.memory.heapTop).append
    (Builds.flatMap slots
      (fun slot member => builds_writeSlot sound (admits slot member)) _ stable)
  refine built turning position building (fun later clear => ?_) activity
    ⟨held, isOpen, rfl⟩
  have split : [Item.onLocal .loadLocal subject,
        Item.onLocal .loadLocal cursor, .plain .bind] =
      [Item.onLocal .loadLocal subject, Item.onLocal .loadLocal cursor] ++
        [.plain .bind] := rfl
  rw [split, Program.holds_append] at binding
  rw [split, textSize_append [_, _], ← Nat.add_assoc] at next
  refine .straight binding.1 ?_
  refine Activity.then_loadLocal clear.framed
    (Nat.lt_trans worksSubject.inside sound.count) clear.extra.stored ?_
  refine Activity.then_loadLocal clear.framed
    (Nat.lt_trans worksCursor.inside sound.count) clear.extra.built ?_
  refine Setting.Heads.bind binding.2 rfl ?_ ?_ ?_ ?_ fun memory => ?_
  · rw [Address.address_pack]
    trivial
  · rwa [Address.address_pack]
  · rw [Address.address_pack]
    intro index same below
    cases same
    exact (Int32.lt_irrefl (Int32.lt_of_lt_of_le below top)).elim
  · rw [Address.address_pack]
    exact clear.extra.isOpen
  · exact next _ ⟨clear.toNeat.congr rfl rfl rfl, clear.operands, trivial⟩

/-! ## Reading -/

/-- The cursor has been moved up a number of times from a plain address. -/
def Tracks (cursor : Local) (count : Nat) (_ : Store) (locals : List Word) :
    Prop :=
  ∃ word, locals[cursor.index]? = some word ∧
    word.reach < 11 * 2 ^ 30 + count

omit [Atoms] in
theorem steady_tracks {subject cursor : Local} (works : desk.Works cursor)
    (different : cursor.index ≠ subject.index) (count : Nat) :
    desk.Steady subject (Tracks cursor count) where
  memory := id
  keep := by
    rintro memory locals index word ⟨here, found, near⟩ other
    refine ⟨here, ?_, near⟩
    have apart : index ≠ cursor.index := by
      rintro rfl
      rcases other with outside | same
      · exact outside works.member
      · exact different same
    rw [List.getElem?_set_ne apart]
    exact found

theorem Clear.leads_cursor {activity : Activity} {cursor : Local} {count : Nat}
    (clear : desk.Clear (Tracks cursor count) activity)
    (works : desk.Works cursor) (few : count ≤ 2 ^ 30) :
    desk.Leads activity (.cursor cursor) := by
  obtain ⟨word, found, near⟩ := clear.extra
  exact ⟨works.inside, word, found, Word.offStack_of_reach (by omega)⟩

theorem carries_advance (sound : desk.Sound) {cursor : Local}
    (works : desk.Works cursor) (count : Nat) :
    setting.Carries place (desk.Clear (Tracks cursor count))
      (Pattern.advance cursor) (desk.Clear (Tracks cursor (count + 1))) := by
  refine .straight fun activity clear _ tidy => ?_
  obtain ⟨word, found, near⟩ := clear.extra
  have small := Nat.lt_trans works.inside sound.count
  have inside : cursor.index < activity.locals.length := by
    rw [clear.length]
    exact works.inside
  refine Activity.then_loadLocal clear.framed small found ?_
  refine Activity.then_increment rfl ?_
  refine Activity.then_storeLocal clear.framed small rfl inside ?_
  refine ⟨(clear.toNeat.setWorking sound works _).congr rfl rfl rfl,
    clear.operands, _, List.getElem?_set_self inside, ?_⟩
  have more := Word.reach_add_le word 1
  rw [UInt64.add_comm] at more
  have one : (1 : UInt64).toNat = 1 := rfl
  omega

theorem carries_readSlot (sound : desk.Sound) {subject cursor : Local}
    (worksSubject : desk.Works subject) (worksCursor : desk.Works cursor)
    (different : cursor.index ≠ subject.index) {slot : Slot}
    (admits : desk.Admits slot) {count : Nat} (few : count ≤ 2 ^ 30) :
    setting.Carries place (desk.Clear (Tracks cursor count))
      (Pattern.readSlot subject cursor slot)
      (desk.Clear (Tracks cursor count)) := by
  have steady := steady_tracks worksCursor different count
  have reading {items : List Item}
      (reads : desk.Reads setting place subject (.cursor cursor) items) :
      setting.Carries place (desk.Clear (Tracks cursor count)) items
        (desk.Clear (Tracks cursor count)) := by
    intro turning position holds next activity clear
    exact reads _ steady turning position holds next activity
      ⟨clear, clear.leads_cursor worksCursor few⟩
  cases slot with
  | void => exact .nil fun _ => id
  | first slot => exact reading (reads_takeVariable sound _ _ admits)
  | nested slot functor args =>
      exact reading (reads_takeVariable sound _ _ admits)
  | again slot => exact reading (reads_unifyValue sound _ _ admits)
  | constant functor read done =>
      exact reading (reads_matchConstant sound worksSubject _ admits _ _)

theorem carries_readSlots (sound : desk.Sound) {subject cursor : Local}
    (worksSubject : desk.Works subject) (worksCursor : desk.Works cursor)
    (different : cursor.index ≠ subject.index) {slots : List Slot}
    (admits : ∀ slot ∈ slots, desk.Admits slot) {count : Nat}
    (few : count + slots.length ≤ 2 ^ 30) :
    setting.Carries place (desk.Clear (Tracks cursor count))
      (Pattern.readSlots subject cursor slots) (desk.Clear anything) := by
  induction slots generalizing count with
  | nil => exact .nil fun _ clear => ⟨clear.toNeat, clear.operands, trivial⟩
  | cons slot rest ih =>
      rw [List.length_cons] at few
      rw [Pattern.readSlots_cons, List.append_assoc]
      refine (carries_readSlot sound worksSubject worksCursor different
        (admits slot List.mem_cons_self) (by omega)).append ?_
      have others := fun other member =>
        admits other (List.mem_cons_of_mem _ member)
      split
      case isTrue => exact ih others (by omega)
      case isFalse =>
        exact (carries_advance sound worksCursor count).append
          (ih others (by omega))

/-- The functor of the subject is compared and the cursor moved to the first
argument. -/
theorem carries_readHeader (sound : desk.Sound) {cursor : Local}
    (works : desk.Works cursor) (functor : FunctorId) {fail : Label}
    (fails : setting.program.code[place fail]? = some Opcode.fail.encode)
    (count : Nat) :
    setting.Carries place (desk.Clear (Tracks cursor count))
      (Pattern.readHeader cursor functor fail)
      (desk.Clear (Tracks cursor (count + 1))) := by
  refine Setting.Carries.append ?_ (carries_advance sound works count)
  intro turning position holds next activity clear
  obtain ⟨word, found, -⟩ := clear.extra
  have split : [Item.onLocal .loadLocal cursor, .plain .load,
        .operand .loadConstant functor.index, .plain .tagFunctor,
        .branch .branchNotEqual fail] =
      [Item.onLocal .loadLocal cursor, .plain .load,
        .operand .loadConstant functor.index, .plain .tagFunctor] ++
        [.branch .branchNotEqual fail] := rfl
  rw [split, Program.holds_append] at holds
  rw [split, textSize_append, ← Nat.add_assoc] at next
  refine .straight holds.1 ?_
  refine Activity.then_loadLocal clear.framed
    (Nat.lt_trans works.inside sound.count) found ?_
  refine Activity.then_load rfl fun header _ => ?_
  refine Activity.then_loadConstant (Activity.then_tagFunctor rfl ?_)
  refine Setting.Heads.branch false holds.2 rfl ?_ ?_
  · exact fun _ => @Setting.Heads.fail _ _ _ _ place _ _ [] ⟨fails, trivial⟩
      fun _ runs => runs.toStays
  · exact fun _ => next _ ⟨clear.toNeat.congr rfl rfl rfl, clear.operands,
      clear.extra⟩

theorem carries_readCompound (sound : desk.Sound) {subject cursor : Local}
    (worksSubject : desk.Works subject) (worksCursor : desk.Works cursor)
    (different : cursor.index ≠ subject.index) (functor : Option FunctorId)
    {slots : List Slot} (admits : ∀ slot ∈ slots, desk.Admits slot)
    (few : slots.length < 2 ^ 30) {fail : Label}
    (fails : setting.program.code[place fail]? = some Opcode.fail.encode)
    (root : Address) :
    setting.Carries place (desk.Subject subject anything root)
      (Pattern.readCompound subject cursor functor slots fail)
      (desk.Clear anything) := by
  have rest : setting.Carries place (desk.Clear (Tracks cursor 0))
      ((match functor with
        | some functor => Pattern.readHeader cursor functor fail
        | none => []) ++ Pattern.readSlots subject cursor slots)
      (desk.Clear anything) := by
    cases functor with
    | some functor =>
        exact (carries_readHeader sound worksCursor functor fails 0).append
          (carries_readSlots sound worksSubject worksCursor different admits
            (by omega))
    | none =>
        exact carries_readSlots sound worksSubject worksCursor different admits
          (by omega)
  have start : setting.Carries place (desk.Subject subject anything root)
      [Item.onLocal .loadLocal subject, .plain .load, .plain .getAddress,
        Item.onLocal .storeLocal cursor]
      (desk.Clear (Tracks cursor 0)) := by
    refine .straight fun activity held _ tidy => ?_
    have inside : cursor.index < activity.locals.length := by
      rw [held.length]
      exact worksCursor.inside
    refine Activity.then_loadLocal held.framed
      (Nat.lt_trans worksSubject.inside sound.count) held.stored ?_
    refine Activity.then_load rfl fun word finds => ?_
    rw [Address.address_pack] at finds
    have plain : word.Plain :=
      held.rooted.places.plain tidy ⟨finds.cell, finds.slot⟩
    refine Activity.then_getAddress rfl ?_
    refine Activity.then_storeLocal held.framed
      (Nat.lt_trans worksCursor.inside sound.count) rfl inside ?_
    refine ⟨(held.toNeat.setWorking sound worksCursor _).congr rfl rfl rfl,
      held.operands, _, List.getElem?_set_self inside, ?_⟩
    rw [Word.reach_address plain]
    exact plain.near
  intro turning position holds next activity held
  have split : Pattern.readCompound subject cursor functor slots fail =
      Pattern.compareTag subject
          (if functor.isSome then .compound else .list) ++
        .branch .branchNotEqual fail ::
          ([Item.onLocal .loadLocal subject, .plain .load, .plain .getAddress,
              Item.onLocal .storeLocal cursor] ++
            ((match functor with
              | some functor => Pattern.readHeader cursor functor fail
              | none => []) ++ Pattern.readSlots subject cursor slots)) := by
    cases functor <;>
      simp only [Pattern.readCompound, List.append_assoc, List.cons_append,
        List.nil_append]
  rw [split] at holds
  rw [split, textSize_append, textSize_cons, Pattern.length_branch,
    ← Nat.add_assoc, ← Nat.add_assoc] at next
  refine held.testTag sound worksSubject holds ?_ ?_
  · intro word _ _
    exact start.append rest turning _ (Program.holds_append.mp holds).2.2.2 next
      activity held
  · exact @Setting.Heads.fail _ _ _ _ place _ _ [] ⟨fails, trivial⟩
      fun _ runs => runs.toStays

omit [Atoms] in
theorem textSize_writeSlots_ge (slots : List Slot) :
    4 * slots.length ≤ textSize (slots.flatMap Pattern.writeSlot) := by
  induction slots with
  | nil => exact Nat.le_refl _
  | cons slot rest ih =>
      have here : 4 ≤ textSize (Pattern.writeSlot slot) := by
        cases slot <;>
          simp [Pattern.writeSlot, Item.freshVariable, Item.claimCell,
            Item.constant, Item.top, Item.onLocal]
      rw [List.flatMap_cons, textSize_append, List.length_cons]
      omega

/-- The code that matches a compound. -/
theorem carries_matchCompound (sound : desk.Sound) {subject cursor : Local}
    (worksSubject : desk.Works subject) (worksCursor : desk.Works cursor)
    (different : cursor.index ≠ subject.index) (source : Source)
    (functor : Option FunctorId) {slots : List Slot}
    (admits : ∀ slot ∈ slots, desk.Admits slot) (read fail done : Label) :
    setting.Carries place
      (fun activity => desk.Clear anything activity ∧
        desk.Leads activity source)
      (Pattern.matchCompound source subject cursor functor slots read fail done)
      (desk.Clear anything) := by
  intro turning position holds next activity starts
  have bound := Program.textSize_le holds
  have size := setting.small
  rw [← Program.place_last holds (by
    rw [Pattern.matchCompound, List.getLast?_append]
    rfl)] at next
  have split : Pattern.matchCompound source subject cursor functor slots read
        fail done =
      Pattern.takeSubject source subject ++
        (Pattern.compareTag subject .reference ++
          .branch .branchNotEqual read ::
            (Pattern.writeCompound subject cursor functor slots ++
              .branch .branchAlways done :: .mark read ::
                (Pattern.readCompound subject cursor functor slots fail ++
                  [.branch .branchAlways done, .mark fail, .plain .fail,
                    .mark done]))) := by
    simp only [Pattern.matchCompound, List.append_assoc, List.cons_append,
      List.nil_append]
  rw [split] at holds bound
  obtain ⟨taking, testing⟩ := Program.holds_append.mp holds
  obtain ⟨-, -, -, branches⟩ := Program.holds_append.mp testing
  obtain ⟨writing, leaving⟩ := Program.holds_append.mp branches
  obtain ⟨-, -, reads, comparing⟩ := leaving
  obtain ⟨reading, ending⟩ := Program.holds_append.mp comparing
  have fails : setting.program.code[place fail]? = some Opcode.fail.encode := by
    obtain ⟨-, -, marked, here, -⟩ := ending
    rw [marked]
    exact here
  have few : slots.length < 2 ^ 30 := by
    have many := textSize_writeSlots_ge slots
    simp only [textSize_append, textSize_cons, Pattern.writeCompound] at bound
    omega
  refine carries_takeSubject sound worksSubject source
    (steady_anything desk subject) turning _ taking ?_ activity starts
  rintro later ⟨root, held⟩
  refine held.testTag sound worksSubject testing ?_ ?_
  · intro word finds isReference
    obtain ⟨offStack, isOpen⟩ := held.rooted.unbound finds isReference
    refine carries_writeCompound sound worksSubject worksCursor different
      functor admits root turning _ writing (fun final clear => ?_) later
      ⟨held, offStack, isOpen⟩
    exact Setting.Heads.branchAlways (Program.holds_append.mp branches).2
      (next final clear)
  · rw [reads]
    refine carries_readCompound sound worksSubject worksCursor different
      functor admits few fails root turning _ reading (fun final clear => ?_)
      later held
    exact Setting.Heads.branchAlways ending (next final clear)

end Desk

end LogicMachine
