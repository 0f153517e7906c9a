import LogicMachine.Proofs.Control.Building

/-!
# Matching the subjects of a head

A match finds its subject through an argument, a slot or the cursor.  Wherever it
is, there is a term, so the code of a match never writes to the stack except to
the slots of its own record.
-/

namespace LogicMachine

variable [Atoms]

namespace Word

/-- The address of a plain word is the same word without its tag. -/
theorem reach_address {word : Word} (plain : word.Plain) :
    word.address.pack.reach = word.reach := by
  have segment := word.segmentField_toNat
  have offset := word.offsetField_toNat
  have low : word.bits.toNat / 2 ^ 32 % 16 < 3 := by
    have near := plain.near
    unfold reach at near
    omega
  have value (number : Nat) (small : number < 3) :
      (Address.ofParts number word.bits.toUInt32.toInt32).segment.toNat =
          number ∧
        (Address.ofParts number word.bits.toUInt32.toInt32).offset =
          word.bits.toUInt32.toInt32 := by
    match number, small with
    | 0, _ => exact ⟨rfl, rfl⟩
    | 1, _ => exact ⟨rfl, rfl⟩
    | 2, _ => exact ⟨rfl, rfl⟩
  rw [Address.pack_eq_tagged, Cell.reach_tagged, Word.address, segment,
    (value _ low).1, (value _ low).2, UInt32.toUInt32_toInt32, offset]
  unfold reach
  omega

end Word

theorem Store.Leads.offStack {store : Store} (tidy : store.Tidy)
    {address root : Address} (leads : store.Leads address root)
    (offStack : address.OffStack) : root.OffStack := by
  induction leads with
  | here => exact offStack
  | there found refers _ _ ih =>
      exact ih (Plain.of_cell (tidy.cells offStack found) (.inl refers))

namespace Program

variable {program : Program} {place : Label → Nat} {position : Nat}
  {items : List Item}

omit [Atoms] in
/-- The label at the end of a text. -/
theorem place_last {label : Label} (holds : program.Holds place position items)
    (last : items.getLast? = some (.mark label)) :
    place label = position + textSize items := by
  rw [← List.dropLast_append_getLast? _ last] at holds ⊢
  have marked := (holds_append.mp holds).2.1
  rw [marked, textSize_append]
  rfl

omit [Atoms] in
/-- A text takes up words of the code segment. -/
theorem textSize_le (holds : program.Holds place position items) :
    textSize items ≤ program.code.size := by
  suffices textSize items = 0 ∨
      position + textSize items ≤ program.code.size by omega
  induction items generalizing position with
  | nil => exact .inl rfl
  | cons item rest ih =>
      cases item with
      | plain opcode =>
          obtain ⟨here, others⟩ := holds
          have inside := (Array.getElem?_eq_some_iff.mp here).1
          rw [textSize_cons, Pattern.length_plain]
          have later := ih others
          omega
      | operand opcode value =>
          obtain ⟨-, here, others⟩ := holds
          have inside := (Array.getElem?_eq_some_iff.mp here).1
          rw [textSize_cons, Pattern.length_operand]
          have later := ih others
          omega
      | branch opcode target =>
          obtain ⟨-, here, others⟩ := holds
          have inside := (Array.getElem?_eq_some_iff.mp here).1
          rw [textSize_cons, Pattern.length_branch]
          have later := ih others
          omega
      | mark label =>
          rw [textSize_cons, Pattern.length_mark, Nat.zero_add]
          exact ih holds.2

end Program

namespace Desk

variable {desk : Desk} {setting : Setting} {place : Label → Nat}
  {activity : Activity} {wanted : Activity → Prop}

/-- The source of a match leads to a term. -/
def Leads (desk : Desk) (activity : Activity) : Source → Prop
  | .argument index => index < desk.arity
  | .slot place => desk.Keeps place
  | .cursor place => place.index < desk.count ∧ ∃ word,
      activity.locals[place.index]? = some word ∧ word.address.OffStack

theorem Neat.then_source (neat : desk.Neat activity) (sound : desk.Sound)
    {source : Source} (leads : desk.Leads activity source)
    (holds : ∀ word, desk.Places activity word.address →
      wanted (activity.push word)) :
    activity.Then wanted source.item := by
  cases source with
  | argument index =>
      have inside : index < desk.arity := leads
      have few := sound.arity
      have room := sound.room
      have same := View.toNat_toUInt32 (show index < 2 ^ 31 by omega)
      obtain ⟨word, fixes⟩ := neat.fixes_argument sound inside
      refine ⟨neat.framed, ?_, holds _ ?_⟩
      · rw [same, neat.below]
        omega
      · rw [same, Address.address_pack]
        exact .inr ⟨_, word, rfl, fixes⟩
  | slot place =>
      have keeps : desk.Keeps place := leads
      refine Activity.then_loadLocalAddress neat.framed
        (Nat.lt_trans keeps.inside sound.count) (holds _ ?_)
      rw [Address.address_pack]
      exact neat.places_slot keeps
  | cursor place =>
      obtain ⟨inside, word, found, offStack⟩ := leads
      exact Activity.then_loadLocal neat.framed
        (Nat.lt_trans inside sound.count) found (holds word (.inl offStack))

/-- A condition on the slots that matching a term cannot break: it depends
neither on the slots for terms nor on the one for the subject. -/
structure Steady (desk : Desk) (subject : Local)
    (extra : Store → List Word → Prop) : Prop where
  memory : ∀ {memory later : Store} {locals}, extra memory locals →
    extra later locals
  keep : ∀ {memory locals} {index : Nat} (word : Word), extra memory locals →
    index ∉ desk.working ∨ index = subject.index →
    extra memory (locals.set index word)

omit [Atoms] in
theorem steady_anything (desk : Desk) (subject : Local) :
    desk.Steady subject anything :=
  ⟨fun _ => trivial, fun _ _ _ => trivial⟩

/-- The code matches what a source leads to. -/
def Reads (desk : Desk) (setting : Setting) (place : Label → Nat)
    (subject : Local) (source : Source) (items : List Item) : Prop :=
  ∀ extra, desk.Steady subject extra → setting.Carries place
    (fun activity => desk.Clear extra activity ∧ desk.Leads activity source)
    items (desk.Clear extra)

theorem reads_takeVariable (sound : desk.Sound) (subject : Local)
    (source : Source) {slot : Local} (frees : desk.Frees slot) :
    desk.Reads setting place subject source
      (Pattern.takeVariable source slot) := by
  intro extra steady
  refine .straight fun activity ⟨clear, leads⟩ _ tidy => ?_
  refine clear.toNeat.then_source sound leads fun address places => ?_
  refine Activity.then_load rfl fun word finds => ?_
  have plain : word.Plain := places.plain tidy ⟨finds.cell, finds.slot⟩
  refine Activity.then_storeLocal clear.framed
    (Nat.lt_trans frees.inside sound.count) rfl ?_ ?_
  · show slot.index < activity.locals.length
    rw [clear.length]
    exact frees.inside
  · exact ⟨(clear.toNeat.setLocal frees plain).congr rfl rfl rfl,
      clear.operands, steady.keep word clear.extra (.inl frees.apart)⟩

/-- A slot takes an argument. -/
theorem carries_takeArgument (sound : desk.Sound) {index : Nat}
    (given : index < desk.arity) {slot : Local} (frees : desk.Frees slot)
    {word : Word}
    (known : desk.below[desk.below.length - 3 - index]? = some word) :
    setting.Carries place (desk.Clear anything)
      (Pattern.takeVariable (.argument index) slot)
      (fun later => desk.Clear anything later ∧
        later.locals[slot.index]? = some word) := by
  refine .straight fun activity clear _ _ => ?_
  have few := sound.arity
  have room := sound.room
  have same := View.toNat_toUInt32 (show index < 2 ^ 31 by omega)
  obtain ⟨other, present, plain⟩ := sound.arguments index given
  cases known.symm.trans present
  have inside : slot.index < activity.locals.length := by
    rw [clear.length]
    exact frees.inside
  refine ⟨clear.framed, ?_, ?_⟩
  · rw [same, clear.below]
    omega
  rw [same]
  refine Activity.then_load rfl fun result finds => ?_
  rw [Address.address_pack] at finds
  have isArgument : result = word := by
    refine finds.slot _ word rfl ?_
    show (activity.below ++ activity.locals)[activity.below.length - 3 -
      index]? = some word
    rw [List.getElem?_append_left (by rw [clear.below]; omega), clear.below]
    exact known
  subst isArgument
  refine Activity.then_storeLocal clear.framed
    (Nat.lt_trans frees.inside sound.count) rfl inside ⟨?_, ?_⟩
  · exact ⟨(clear.toNeat.setLocal frees plain).congr rfl rfl rfl,
      clear.operands, trivial⟩
  · exact List.getElem?_set_self inside

theorem reads_unifyValue (sound : desk.Sound) (subject : Local)
    (source : Source) {slot : Local} (keeps : desk.Keeps slot) :
    desk.Reads setting place subject source
      (Pattern.unifyValue source slot) := by
  intro extra steady turning position holds next activity ⟨clear, leads⟩
  have split : Pattern.unifyValue source slot =
      [source.item, Item.onLocal .loadLocalAddress slot] ++
        [.plain .unify] := rfl
  rw [split, Program.holds_append] at holds
  rw [split, textSize_append, ← Nat.add_assoc] at next
  refine .straight holds.1 ?_
  refine clear.toNeat.then_source sound leads fun address places => ?_
  refine Activity.then_loadLocalAddress clear.framed
    (Nat.lt_trans keeps.inside sound.count) ?_
  refine Setting.Heads.unify holds.2 rfl ?_ ?_ (fun memory => ?_)
    fun _ => id
  · rw [Address.address_pack]
    exact (clear.toNeat.places_slot keeps).places
  · exact places.places
  · refine next _ ⟨clear.toNeat.congr rfl rfl rfl, clear.operands, ?_⟩
    exact steady.memory clear.extra

/-! ## The subject -/

/-- The end of a chain of references: a cell, or a stack slot that holds no
reference. -/
def Rooted (desk : Desk) (activity : Activity) (root : Address) : Prop :=
  (root.OffStack ∧ activity.memory.IsRoot root) ∨
    ∃ index word, root = .stack (Int32.ofNat index) ∧
      desk.Fixes activity index word ∧ ∀ next, word.cell ≠ .reference next

theorem Rooted.places {root : Address} (rooted : desk.Rooted activity root) :
    desk.Places activity root := by
  rcases rooted with ⟨offStack, -⟩ | ⟨index, word, same, fixes, -⟩
  · exact .inl offStack
  · exact .inr ⟨index, word, same, fixes⟩

theorem Rooted.setWorking {root : Address} (rooted : desk.Rooted activity root)
    (neat : desk.Neat activity) {slot : Nat} (member : slot ∈ desk.working)
    (word : Word) : desk.Rooted (activity.setLocal slot word) root := by
  rcases rooted with cell | ⟨index, known, same, fixes, bound⟩
  · exact .inl cell
  · exact .inr ⟨index, known, same, fixes.setWorking neat member word, bound⟩

theorem Places.rooted {address root : Address}
    (places : desk.Places activity address) (tidy : activity.memory.Tidy)
    (reaches : activity.Reaches address root) : desk.Rooted activity root := by
  have cell {first : Address} (leads : activity.memory.Leads first root)
      (offStack : first.OffStack) : desk.Rooted activity root :=
    .inl ⟨leads.offStack tidy offStack, leads.root⟩
  rcases places with offStack | ⟨index, word, same, fixes⟩
  · exact cell (reaches.cell offStack) offStack
  · rcases reaches.slot index word same fixes.found fixes.plain with
      ⟨bound, rfl⟩ | ⟨next, -, offStack, leads⟩
    · exact .inr ⟨index, word, same, fixes, bound⟩
    · exact cell leads offStack

/-- A root with the tag of a reference is an unbound variable. -/
theorem Rooted.unbound {root : Address} (rooted : desk.Rooted activity root)
    {word : Word} (finds : activity.Finds root word)
    (isReference : word.tag = .reference) :
    root.OffStack ∧ activity.memory.Open activity.memory root := by
  have decoded := Word.tag_eq_reference_iff.mp isReference
  rcases rooted with ⟨offStack, known, found, ends⟩ | ⟨index, known, same, fixes, bound⟩
  · refine ⟨offStack, fun index _ _ other present => ?_⟩
    rw [found] at present
    cases present
    have loaded := finds.cell offStack
    rw [found] at loaded
    cases loaded
    rw [decoded, ends _ decoded]
  · rw [finds.slot index known same fixes.found] at decoded
    exact absurd decoded (bound _)

/-- The subject has been found. -/
structure Subject (desk : Desk) (subject : Local)
    (extra : Store → List Word → Prop) (root : Address)
    (activity : Activity) : Prop extends desk.Clear extra activity where
  stored : activity.locals[subject.index]? = some root.pack
  rooted : desk.Rooted activity root

theorem carries_takeSubject (sound : desk.Sound) {subject : Local}
    (works : desk.Works subject) (source : Source)
    {extra : Store → List Word → Prop} (steady : desk.Steady subject extra) :
    setting.Carries place
      (fun activity => desk.Clear extra activity ∧ desk.Leads activity source)
      (Pattern.takeSubject source subject)
      (fun activity => ∃ root, desk.Subject subject extra root activity) := by
  refine .straight fun activity ⟨clear, leads⟩ _ tidy => ?_
  refine clear.toNeat.then_source sound leads fun address places => ?_
  refine Activity.then_deref rfl fun root reaches => ?_
  have rooted : desk.Rooted activity root :=
    places.rooted tidy ⟨reaches.cell, reaches.slot⟩
  have inside : subject.index < activity.locals.length := by
    rw [clear.length]
    exact works.inside
  refine Activity.then_storeLocal clear.framed
    (Nat.lt_trans works.inside sound.count) rfl inside ?_
  refine ⟨root, ⟨⟨?_, clear.operands, ?_⟩, ?_, ?_⟩⟩
  · exact (clear.toNeat.setWorking sound works _).congr rfl rfl rfl
  · exact steady.keep _ clear.extra (.inr rfl)
  · exact List.getElem?_set_self inside
  · exact rooted.setWorking clear.toNeat works.member _

/-- The tag of the subject decides between two pieces of code. -/
theorem Subject.testTag {turning : Machine → Prop} {position : Nat}
    {subject : Local} {extra : Store → List Word → Prop} {root : Address}
    {tag : Tag} {target : Label} {rest : List Item}
    (held : desk.Subject subject extra root activity) (sound : desk.Sound)
    (works : desk.Works subject)
    (holds : setting.program.Holds place position
      (Pattern.compareTag subject tag ++
        .branch .branchNotEqual target :: rest))
    (same : ∀ word, activity.Finds root word → word.tag = tag →
      setting.Heads turning setting.Stays
        (position + textSize (Pattern.compareTag subject tag) + 2) activity)
    (other : setting.Heads turning setting.Stays (place target) activity) :
    setting.Heads turning setting.Stays position activity := by
  have codes (known : Tag) : (⟨tag.code.toUInt32.toUInt64⟩ : Word) =
      ⟨known.code⟩ ↔ known = tag := by
    cases tag <;> cases known <;> decide
  rw [Program.holds_append] at holds
  refine .straight holds.1 ?_
  refine Activity.then_loadLocal held.framed
    (Nat.lt_trans works.inside sound.count) held.stored ?_
  refine Activity.then_load rfl fun word finds => ?_
  refine Activity.then_getTag rfl (Activity.then_loadConstant ?_)
  rw [Address.address_pack] at finds
  refine Setting.Heads.branch false holds.2 rfl ?_ ?_
  · exact fun _ => other
  · intro equal
    refine same word ⟨finds.cell, finds.slot⟩ ((codes _).mp ?_)
    simpa using equal

theorem reads_matchConstant (sound : desk.Sound) {subject : Local}
    (works : desk.Works subject) (source : Source) {functor : FunctorId}
    (isAtom : Atoms.includes functor) (read done : Label) :
    desk.Reads setting place subject source
      (Pattern.matchConstant source subject functor read done) := by
  intro extra steady turning position holds next activity starts
  rw [← Program.place_last holds rfl] at next
  have split : Pattern.matchConstant source subject functor read done =
      Pattern.takeSubject source subject ++
        (Pattern.compareTag subject .reference ++
          .branch .branchNotEqual read ::
            ((Item.onLocal .loadLocal subject ::
                (Item.constant functor ++ [.plain .store])) ++
              .branch .branchAlways done :: .mark read ::
                ((Item.onLocal .loadLocal subject :: .plain .load ::
                    Item.constant functor) ++
                  [.branch .branchEqual done, .plain .fail, .mark done]))) :=
    rfl
  rw [split, Program.holds_append] at holds
  obtain ⟨taking, testing⟩ := holds
  obtain ⟨-, -, -, branches⟩ := Program.holds_append.mp testing
  obtain ⟨writing, -, -, reads, comparing⟩ := Program.holds_append.mp branches
  obtain ⟨loading, deciding⟩ := Program.holds_append.mp comparing
  have small := Nat.lt_trans works.inside sound.count
  have plain : ((⟨functor.index.toUInt64⟩ : Word).withTag .constant).Plain := by
    rw [Word.withTag_number]
    exact Word.plain_constant isAtom
  refine carries_takeSubject sound works source steady turning _ taking ?_
    activity starts
  rintro later ⟨root, held⟩
  refine held.testTag sound works testing ?_ ?_
  · intro word finds isReference
    obtain ⟨offStack, isOpen⟩ := held.rooted.unbound finds isReference
    refine .straight writing ?_
    refine Activity.then_loadLocal held.framed small held.stored ?_
    rw [Activity.thenAll_append]
    refine Activity.then_constant (Activity.then_store rfl ?_ plain ?_ ?_)
    · rwa [Address.address_pack]
    · rwa [Address.address_pack]
    · intro old present
      refine Setting.Heads.branchAlways (Program.holds_append.mp branches).2 ?_
      exact next _ ⟨held.toNeat.congr rfl rfl rfl, held.operands,
        steady.memory held.extra⟩
  · rw [reads]
    refine .straight loading ?_
    refine Activity.then_loadLocal held.framed small held.stored ?_
    refine Activity.then_load rfl fun word finds => Activity.then_constant ?_
    refine Setting.Heads.branch true deciding rfl ?_ ?_
    · intro _
      exact next _ ⟨held.toNeat.congr rfl rfl rfl, held.operands, held.extra⟩
    · intro _
      exact .fail deciding.2.2 fun _ runs => runs.toStays

end Desk

end LogicMachine
