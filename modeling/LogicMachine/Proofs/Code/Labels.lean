import LogicMachine.Proofs.Code.Text
import LogicMachine.Proofs.Execution.Steps

/-!
# Labels and branches

An assembler is asked for labels, for slots and to add items, in any order.  A
label may be placed before or after the branches to it, or more than once, and
then its last place counts.  The finished words are those of the items one after
another.  A branch leads to the place of its label wherever the words are put,
because it counts from its own position; a branch to a label without a place is
the only thing that can go wrong.
-/

namespace LogicMachine

/-! ## Requests -/

/-- What an assembler is asked for. -/
inductive Assembler.Request where
  | label
  | slot
  | add (item : Item)

namespace Assembler.Request

/-- The item that is to be added. -/
def item? : Assembler.Request → Option Item
  | .add item => some item
  | .label | .slot => none

/-- Labels are used only after they were handed out, so many of them before the
first request. -/
def Scoped : Nat → List Assembler.Request → Prop
  | _, [] => True
  | known, .label :: rest => Scoped (known + 1) rest
  | known, .slot :: rest => Scoped known rest
  | known, .add item :: rest =>
      (∀ label, item.label? = some label ∨ item.target? = some label →
        label.index < known) ∧
        Scoped known rest

end Assembler.Request

/-- The items that are to be added. -/
def itemsOf (requests : List Assembler.Request) : List Item :=
  requests.filterMap Assembler.Request.item?

namespace Assembler

def serve (assembler : Assembler) : Assembler.Request → Assembler
  | .label => assembler.newLabel.2
  | .slot => assembler.newLocal.2
  | .add item => assembler.add item

def serveAll (assembler : Assembler) (requests : List Assembler.Request) :
    Assembler :=
  requests.foldl serve assembler

end Assembler

/-! ## Places of labels -/

/-- Where a text places a label for the last time. -/
def lastPlace? (label : Label) : List Item → Option Nat
  | [] => none
  | item :: rest =>
      match lastPlace? label rest with
      | some place => some (item.codeWords.length + place)
      | none => if item = .mark label then some 0 else none

theorem lastPlace?_eq_none_iff {label : Label} {items : List Item} :
    lastPlace? label items = none ↔ .mark label ∉ items := by
  induction items with
  | nil => simp [lastPlace?]
  | cons item rest ih =>
      rw [lastPlace?]
      cases later : lastPlace? label rest with
      | some place =>
          have placed : .mark label ∈ rest := by
            by_contra absent
            rw [ih.mpr absent] at later
            cases later
          simp [placed]
      | none =>
          have absent := ih.mp later
          by_cases here : item = .mark label
          · simp [here]
          · simp [here, absent, Ne.symm here]

/-- The last of the marks of a label counts. -/
theorem lastPlace?_of_split {label : Label} {before after : List Item}
    (last : .mark label ∉ after) :
    lastPlace? label (before ++ .mark label :: after) =
      some (textSize before) := by
  induction before with
  | nil => simp [lastPlace?, lastPlace?_eq_none_iff.mpr last]
  | cons item rest ih => simp [lastPlace?, ih]

theorem lastPlace?_snoc (label : Label) (items : List Item) (item : Item) :
    lastPlace? label (items ++ [item]) =
      if item = .mark label then some (textSize items)
      else lastPlace? label items := by
  induction items with
  | nil => simp [lastPlace?]
  | cons first rest ih =>
      rw [List.cons_append, lastPlace?, ih]
      split
      case h_1 place found =>
        split at found
        · cases found
          simp_all
        · simp_all [lastPlace?]
      case h_2 found =>
        split at found
        · cases found
        · simp_all [lastPlace?]

namespace Assembler

/-- The assembler has collected a text, and knows of each label where the text
places it last. -/
structure Collects (assembler : Assembler) (items : List Item) : Prop where
  words : assembler.words.toList = items.flatMap Item.codeWords
  places : ∀ label, assembler.position? label = lastPlace? label items

namespace Collects

variable {assembler : Assembler} {items : List Item}

theorem empty : Assembler.empty.Collects [] :=
  ⟨rfl, fun _ => rfl⟩

theorem size_eq (collects : assembler.Collects items) :
    assembler.words.size = textSize items := by
  rw [← Array.length_toList, collects.words]
  rfl

theorem newLocal (collects : assembler.Collects items) :
    assembler.newLocal.2.Collects items :=
  ⟨collects.words, collects.places⟩

/-- A new label has no place. -/
theorem newLabel (collects : assembler.Collects items) :
    assembler.newLabel.2.Collects items := by
  refine ⟨collects.words, fun label => ?_⟩
  rw [← collects.places label]
  unfold position?
  simp only [Assembler.newLabel, Array.getElem?_push]
  split
  case isTrue isNew => simp [isNew]
  case isFalse => rfl

theorem add (collects : assembler.Collects items) {item : Item}
    (known : ∀ label, item.label? = some label →
      label.index < assembler.marks.size) :
    (assembler.add item).Collects (items ++ [item]) := by
  cases item with
  | mark label =>
      refine ⟨by simpa [Assembler.add, Item.codeWords] using collects.words, ?_⟩
      intro other
      have inside := known label rfl
      have found := collects.places other
      rw [lastPlace?_snoc]
      unfold position? at found ⊢
      by_cases same : label = other
      · subst same
        simp [Assembler.add, position, inside, collects.size_eq]
      · have apart : label.index ≠ other.index := by
          intro equal
          cases label
          cases other
          exact same (congrArg Label.mk equal)
        simpa [Assembler.add, same, Array.getElem?_setIfInBounds_ne apart]
          using found
  | plain opcode =>
      refine ⟨by simp [Assembler.add, Item.codeWords, collects.words], ?_⟩
      intro label
      rw [lastPlace?_snoc, if_neg (by simp), ← collects.places label]
      rfl
  | operand opcode value =>
      refine ⟨by simp [Assembler.add, Item.codeWords, collects.words], ?_⟩
      intro label
      rw [lastPlace?_snoc, if_neg (by simp), ← collects.places label]
      rfl
  | branch opcode target =>
      refine ⟨by simp [Assembler.add, Item.codeWords, collects.words], ?_⟩
      intro label
      rw [lastPlace?_snoc, if_neg (by simp), ← collects.places label]
      rfl

theorem serveAll {requests : List Assembler.Request}
    (collects : assembler.Collects items)
    (inScope : Assembler.Request.Scoped assembler.marks.size requests) :
    (assembler.serveAll requests).Collects (items ++ itemsOf requests) := by
  induction requests generalizing assembler items with
  | nil => simpa [itemsOf, Assembler.serveAll] using collects
  | cons request rest ih =>
      cases request with
      | label =>
          apply ih collects.newLabel
          simpa [Assembler.serve, Assembler.newLabel, Assembler.Request.Scoped]
            using inScope
      | slot => exact ih collects.newLocal inScope
      | add item =>
          have known := fun label isLabel => inScope.1 label (.inl isLabel)
          have marks : (assembler.add item).marks.size =
              assembler.marks.size := by
            cases item <;> simp [Assembler.add]
          have later := ih (collects.add known) (marks ▸ inScope.2)
          simpa [itemsOf, Assembler.Request.item?, Assembler.serveAll,
            Assembler.serve] using later

end Collects

/-! ## Finished words -/

theorem mapIdxM_go_error {α β ε : Type} {apply : Nat → α → Except ε β}
    {items : List α} {done : Array β} {fault : ε}
    (faulty : List.mapIdxM.go apply items done = .error fault) :
    ∃ index item, items[index]? = some item ∧
      apply (done.size + index) item = .error fault := by
  induction items generalizing done with
  | nil => cases faulty
  | cons item rest ih =>
      unfold List.mapIdxM.go at faulty
      cases here : apply done.size item with
      | error other =>
          rw [here] at faulty
          cases faulty
          exact ⟨0, item, rfl, here⟩
      | ok result =>
          rw [here] at faulty
          obtain ⟨index, found, present, wrong⟩ := ih faulty
          refine ⟨index + 1, found, present, ?_⟩
          rw [← wrong, Array.size_push]
          congr 1
          omega

/-- The words of the assembler are finished one by one. -/
theorem finish_eq (assembler : Assembler) :
    assembler.finish =
      List.mapIdxM.go assembler.resolve assembler.words.toList #[] := by
  have mapped : assembler.finish =
      assembler.words.toList.mapIdxM assembler.resolve := by
    rw [← Array.toList_mapIdxM]
    rfl
  exact mapped

end Assembler

theorem mem_targetsOf_iff {target : Label} {items : List Item} :
    target ∈ targetsOf items ↔
      .distance target ∈ items.flatMap Item.codeWords := by
  simp only [targetsOf, List.mem_filterMap, List.mem_flatMap]
  constructor
  · rintro ⟨item, member, leads⟩
    refine ⟨item, member, ?_⟩
    cases item with
    | branch opcode other =>
        cases leads
        simp [Item.codeWords]
    | _ => cases leads
  · rintro ⟨item, member, here⟩
    refine ⟨item, member, ?_⟩
    cases item <;> simp_all [Item.codeWords, Item.target?]

namespace Assembler.Collects

variable {assembler : Assembler} {items : List Item}

theorem word_eq (collects : assembler.Collects items) (index : Nat) :
    assembler.words[index]? = (items.flatMap Item.codeWords)[index]? := by
  rw [← Array.getElem?_toList, collects.words]

/-- If every branch has a label to lead to, the words can be finished. -/
theorem finish_ok (collects : assembler.Collects items)
    (marked : ∀ label ∈ targetsOf items, .mark label ∈ items) :
    ∃ words, assembler.finish = .ok words := by
  rw [finish_eq]
  apply mapIdxM_go_ok
  intro index word found
  cases word with
  | fixed word => exact ⟨word, rfl⟩
  | distance target =>
      have leads : target ∈ targetsOf items := by
        rw [mem_targetsOf_iff, ← collects.words]
        exact List.mem_of_getElem? found
      cases placed : lastPlace? target items with
      | none =>
          exact absurd (marked target leads) (lastPlace?_eq_none_iff.mp placed)
      | some place =>
          unfold resolve
          simp only [collects.places target, placed]
          exact ⟨_, rfl⟩

/-- If some branch has none, the fault names the label of such a branch. -/
theorem finish_fault (collects : assembler.Collects items)
    (missing : ∃ label ∈ targetsOf items, .mark label ∉ items) :
    ∃ label ∈ targetsOf items, .mark label ∉ items ∧
      assembler.finish = .error (.malformed (.unplacedLabel label.index)) := by
  cases finished : assembler.finish with
  | ok words =>
      obtain ⟨label, leads, unmarked⟩ := missing
      rw [mem_targetsOf_iff] at leads
      obtain ⟨index, found⟩ := List.getElem?_of_mem leads
      rw [← collects.word_eq] at found
      obtain ⟨final, resolved, -⟩ := (finish_eq_ok finished).2 index _ found
      unfold resolve at resolved
      simp only [collects.places label,
        lastPlace?_eq_none_iff.mpr unmarked] at resolved
      cases resolved
  | error fault =>
      rw [finish_eq] at finished
      obtain ⟨index, word, found, wrong⟩ := mapIdxM_go_error finished
      cases word with
      | fixed word => cases wrong
      | distance target =>
          have leads : target ∈ targetsOf items := by
            rw [mem_targetsOf_iff, ← collects.words]
            exact List.mem_of_getElem? found
          unfold resolve at wrong
          simp only [collects.places target] at wrong
          cases placed : lastPlace? target items with
          | some place =>
              rw [placed] at wrong
              cases wrong
          | none =>
              rw [placed] at wrong
              cases wrong
              exact ⟨target, leads, lastPlace?_eq_none_iff.mp placed, rfl⟩

end Assembler.Collects

/-! ## Where branches lead -/

namespace MachineM

/-- What an instruction does that leads to another position. -/
def follow (opcode : Opcode) (position : Int32) : MachineM Unit :=
  match opcode with
  | .branchEqual => branchIf true (.code position)
  | .branchNotEqual => branchIf false (.code position)
  | .branchAlways => jump (.code position)
  | .choicePointRelative => choicePoint position.toUInt32
  | _ => return

/-- Relative instructions count from their own position. -/
theorem perform_relative {opcode : Opcode} (relative : opcode.isRelative = true)
    (position : Int32) (operand : UInt32) :
    perform position opcode operand =
      follow opcode (position + operand.toInt32) := by
  cases opcode with
  | branchEqual | branchNotEqual | branchAlways | choicePointRelative => rfl
  | _ => cases relative

end MachineM

/-- The distance from a branch to the place of its label is the same at every
base. -/
theorem position_add_distance (base position place : Nat) :
    Int32.ofNat (base + position) +
        (place.toUInt32 + 1 - (position + 1).toUInt32).toInt32 =
      Int32.ofNat (base + place) := by
  have unsigned : (base + position).toUInt32 +
      (place.toUInt32 + 1 - (position + 1).toUInt32) =
        (base + place).toUInt32 := by
    apply UInt32.toNat_inj.mp
    simp only [UInt32.toNat_add, UInt32.toNat_sub, Nat.toUInt32,
      UInt32.toNat_ofNat', UInt32.toNat_one]
    omega
  have signed := congrArg UInt32.toInt32 unsigned
  rw [UInt32.toInt32_add] at signed
  exact signed

/-- Words that are the code of a text, with so many other words before it.  All
but the operands of branches are the words that the items say.  A branch leads
to the last place of its label, at whatever base the words are loaded. -/
structure Relocatable (items : List Item) (offset : Nat)
    (words : List UInt32) : Prop where
  fixed : ∀ index word,
    (items.flatMap Item.codeWords)[index]? = some (.fixed word) →
      words[offset + index]? = some word
  leads : ∀ before opcode target after,
    items = before ++ .branch opcode target :: after →
      ∃ place distance, lastPlace? target items = some place ∧
        words[offset + textSize before + 1]? = some distance ∧
        ∀ base, Int32.ofNat (base + offset + textSize before) +
          distance.toInt32 = Int32.ofNat (base + offset + place)

namespace Assembler.Collects

variable {assembler : Assembler} {items : List Item} {words : List UInt32}

/-- Finished words, possibly inside others, are code of the text. -/
theorem relocatable (collects : assembler.Collects items)
    (finished : assembler.finish = .ok words) (first last : List UInt32) :
    Relocatable items first.length (first ++ words ++ last) := by
  obtain ⟨length, each⟩ := finish_eq_ok finished
  have inside (index : Nat) (word : UInt32)
      (found : words[index]? = some word) :
      (first ++ words ++ last)[first.length + index]? = some word := by
    have here := (List.getElem?_eq_some_iff.mp found).1
    rw [List.append_assoc, List.getElem?_append_right (Nat.le_add_right _ _),
      Nat.add_sub_cancel_left, List.getElem?_append_left here]
    exact found
  constructor
  · intro index word found
    rw [← collects.word_eq] at found
    obtain ⟨final, resolved, there⟩ := each index _ found
    cases resolved
    exact inside index word there
  · intro before opcode target after split
    have found : assembler.words[textSize before + 1]? =
        some (.distance target) := by
      rw [collects.word_eq, split, List.flatMap_append,
        List.getElem?_append_right (by simp [textSize])]
      have second : textSize before + 1 -
          (before.flatMap Item.codeWords).length = 1 :=
        Nat.add_sub_cancel_left _ _
      rw [second]
      rfl
    obtain ⟨final, resolved, there⟩ := each _ _ found
    unfold resolve at resolved
    simp only [collects.places target] at resolved
    cases placed : lastPlace? target items with
    | none =>
        rw [placed] at resolved
        cases resolved
    | some place =>
        rw [placed] at resolved
        cases resolved
        refine ⟨place, place.toUInt32 + 1 - (textSize before + 1).toUInt32,
          rfl, ?_, fun base => ?_⟩
        · rw [Nat.add_assoc]
          exact inside _ _ there
        · exact position_add_distance (base + first.length) _ place

end Assembler.Collects

namespace Relocatable

variable {items : List Item} {offset : Nat} {words : List UInt32}

/-- The first word of a branch is its opcode. -/
theorem opcode_eq (relocatable : Relocatable items offset words)
    {before after : List Item} {opcode : Opcode} {target : Label}
    (split : items = before ++ .branch opcode target :: after) :
    words[offset + textSize before]? = some opcode.encode := by
  apply relocatable.fixed
  rw [split, List.flatMap_append,
    List.getElem?_append_right (by simp [textSize])]
  simp [textSize, Item.codeWords]

end Relocatable

/-- Relocatable words that a machine can execute at whatever base they are
loaded.  At a branch the machine goes on where the label was placed last. -/
structure Loadable (items : List Item) (offset : Nat)
    (words : List UInt32) : Prop extends
    Relocatable items offset words where
  steps : ∀ (machine : Machine) (base : Nat),
    machine.program.code.size < 2 ^ 31 →
    machine.program.HasWords base words →
    ∀ before opcode target after earlier later,
      items = before ++ .branch opcode target :: after →
      opcode.isRelative = true →
      items = earlier ++ .mark target :: later → .mark target ∉ later →
      machine.registers.instruction =
        .code (Int32.ofNat (base + offset + textSize before)) →
      ∃ distance, ∀ fuel, MachineM.step fuel machine =
        (do
          MachineM.follow opcode
            (Int32.ofNat (base + offset + textSize earlier))
          return Status.running)
          (machine.fetched (base + offset + textSize before) opcode distance)

theorem Relocatable.loadable {items : List Item} {offset : Nat}
    {words : List UInt32} (relocatable : Relocatable items offset words) :
    Loadable items offset words := by
  refine ⟨relocatable, ?_⟩
  intro machine base small loaded before opcode target after earlier later
    split relative marked last here
  obtain ⟨place, distance, placed, found, arrives⟩ :=
    relocatable.leads before opcode target after split
  rw [marked, lastPlace?_of_split last] at placed
  cases placed
  refine ⟨distance, fun fuel => ?_⟩
  have wide : opcode.hasOperand = true := by
    cases opcode <;> first | rfl | cases relative
  have ordinary : opcode.isOrdinary = true := by
    cases opcode <;> first | rfl | cases relative
  have word := loaded _ _ (relocatable.opcode_eq split)
  have argument := loaded _ _ found
  rw [← Nat.add_assoc] at word
  rw [← Nat.add_assoc, ← Nat.add_assoc] at argument
  have next := Machine.next_fetched small here word (by rwa [wide, if_pos rfl])
  rw [next.step, MachineM.execute_ordinary ordinary,
    MachineM.perform_relative relative, arrives]

namespace Assembler

/-- Whatever an assembler is asked for, if every branch has a label that was
placed, there is code for the text, alone or as the body of a clause, and it
can be loaded anywhere.  If some branch has none, there is no code. -/
theorem branches_lead (requests : List Assembler.Request) (arity : Nat)
    (inScope : Assembler.Request.Scoped 0 requests) :
    ((∀ label ∈ targetsOf (itemsOf requests),
        .mark label ∈ itemsOf requests) →
      ∃ body clause,
        (empty.serveAll requests).finish = .ok body ∧
        body.length = textSize (itemsOf requests) ∧
        Loadable (itemsOf requests) 0 body ∧
        (empty.serveAll requests).clause arity = .ok clause ∧
        clause =
          [Opcode.allocate.encode,
            (empty.serveAll requests).locals.toUInt32] ++ body ++
          [Opcode.deallocate.encode, arity.toUInt32,
            Opcode.proceed.encode] ∧
        Loadable (itemsOf requests) 2 clause) ∧
    ((∃ label ∈ targetsOf (itemsOf requests),
        .mark label ∉ itemsOf requests) →
      ∃ label ∈ targetsOf (itemsOf requests),
        .mark label ∉ itemsOf requests ∧
        (empty.serveAll requests).finish =
          .error (.malformed (.unplacedLabel label.index)) ∧
        (empty.serveAll requests).clause arity =
          .error (.malformed (.unplacedLabel label.index))) := by
  have collects : (empty.serveAll requests).Collects (itemsOf requests) :=
    Collects.empty.serveAll inScope
  generalize empty.serveAll requests = assembler at collects
  constructor
  · intro marked
    obtain ⟨body, finished⟩ := collects.finish_ok marked
    have alone := collects.relocatable finished [] []
    rw [List.nil_append, List.append_nil] at alone
    have framed := collects.relocatable finished
      [Opcode.allocate.encode, assembler.locals.toUInt32]
      [Opcode.deallocate.encode, arity.toUInt32, Opcode.proceed.encode]
    refine ⟨body, _, finished, ?_, alone.loadable, ?_, rfl, framed.loadable⟩
    · rw [(finish_eq_ok finished).1, collects.size_eq]
    · rw [clause, finished]
      rfl
  · intro missing
    obtain ⟨label, leads, unmarked, faulty⟩ := collects.finish_fault missing
    refine ⟨label, leads, unmarked, faulty, ?_⟩
    rw [clause, faulty]
    rfl

/-- A loop: its start is placed twice, and its end after the branch to it. -/
def loopRequests : List Assembler.Request :=
  [.label, .label, .add (.mark ⟨0⟩), .add (.plain .nop),
    .add (.branch .branchEqual ⟨1⟩), .slot, .add (.mark ⟨0⟩),
    .add (.branch .branchAlways ⟨0⟩), .add (.mark ⟨1⟩), .add (.plain .halt)]

theorem branches_lead_loop :
    Assembler.Request.Scoped 0 loopRequests ∧
      ∃ body clause, (empty.serveAll loopRequests).finish = .ok body ∧
        Loadable (itemsOf loopRequests) 0 body ∧
        (empty.serveAll loopRequests).clause 3 = .ok clause ∧
        Loadable (itemsOf loopRequests) 2 clause := by
  have inScope : Assembler.Request.Scoped 0 loopRequests := by
    simp [loopRequests, Assembler.Request.Scoped, Item.label?, Item.target?]
  have marked : ∀ label ∈ targetsOf (itemsOf loopRequests),
      .mark label ∈ itemsOf loopRequests := by
    decide
  obtain ⟨body, clause, finished, -, alone, framed, -, inside⟩ :=
    (branches_lead loopRequests 3 inScope).1 marked
  exact ⟨inScope, body, clause, finished, alone, framed, inside⟩

/-- Both branches of the loop count from their own position. -/
example : (empty.serveAll loopRequests).finish =
    .ok [Opcode.nop.encode, Opcode.branchEqual.encode, 4,
      Opcode.branchAlways.encode, 0, Opcode.halt.encode] := by
  decide

end Assembler

end LogicMachine
