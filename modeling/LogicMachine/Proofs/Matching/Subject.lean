import LogicMachine.Proofs.Matching.Scene

/-!
# The subject of a match

A match finds its subject in an argument, in a slot or under the cursor.  It
either takes the subject into a slot as it is, or unifies it with what a slot
holds, or follows its references first and then looks at the word that they
lead to.
-/

namespace LogicMachine

namespace View

variable {table : FunctorTable} {view : View} {cells : Set Address}
  {address : Address} {word : Word}

theorem loads_cell {content : Word}
    (terms : view.memory.Terms table cells) (inside : address ∈ cells)
    (found : view.memory.load address = .ok content) :
    view.Loads address content :=
  .inl ⟨.inl (terms.inside inside), found⟩

theorem alike_cell {content : Word} (inside : address ∈ cells)
    (found : view.memory.load address = .ok content) :
    Word.Alike table view.memory cells (.reference address) content := by
  intro T _ value tree respects
  have denotes := respects address inside content found
  have refers : (Word.reference address).Denotes table view.memory value tree ↔
      tree = value address := by
    simp only [Word.Denotes, Word.cell_reference]
  rw [refers]
  constructor
  · rintro rfl
    exact denotes
  · intro other
    exact Word.Denotes.unique other denotes

/-- What a subject holds has the tree of the subject. -/
theorem Subject.content (terms : view.memory.Terms table cells)
    (subject : view.Subject table cells address word) :
    ∃ content, view.Loads address content ∧
      content.IsTerm table view.memory cells ∧
      Word.Alike table view.memory cells word content := by
  cases subject with
  | cell inside =>
      obtain ⟨content, found, isTerm⟩ := terms.isTerm inside
      exact ⟨content, loads_cell terms inside found, isTerm,
        alike_cell inside found⟩
  | slot found isTerm =>
      exact ⟨word, .inr ⟨_, rfl, found⟩, isTerm, fun _ _ _ _ _ => Iff.rfl⟩

/-- The references from a cell lead to another cell. -/
theorem leads_cell (terms : view.memory.Terms table cells)
    (inside : address ∈ cells) :
    ∃ root content, view.Leads address root ∧
      view.memory.RootAt cells root content ∧
      Word.Alike table view.memory cells (.reference address) content := by
  obtain ⟨root, leads⟩ := terms.acyclic address inside
  obtain ⟨content, found, ends⟩ := leads.root
  have member := leads.mem terms.references inside
  refine ⟨root, content, ?_, ⟨member, found, ends⟩, ?_⟩
  · clear found ends member
    induction leads with
    | here isRoot =>
        obtain ⟨content, found, ends⟩ := isRoot
        exact .here (loads_cell terms inside found) ends
    | there found refers different _ ih =>
        exact .there (loads_cell terms inside found) refers different
          (ih (terms.references _ inside _ found _ refers))
  · intro T _ value tree respects
    rw [← alike_cell member found T value tree respects]
    simp only [Word.Denotes, Word.cell_reference,
      respects.leads terms.references inside leads]

/-- Where the references of a subject lead: to a variable that is not bound, or
to a word that is no reference. -/
structure Rooted (table : FunctorTable) (view : View) (cells : Set Address)
    (root : Address) (content : Word) : Prop where
  loads : view.Loads root content
  isTerm : content.IsTerm table view.memory cells
  free : ∀ next, content.cell = .reference next → next = root ∧ root ∈ cells

theorem Subject.root (terms : view.memory.Terms table cells)
    (subject : view.Subject table cells address word) :
    ∃ root content, view.Leads address root ∧
      view.Rooted table cells root content ∧
      Word.Alike table view.memory cells word content ∧
      (root = address ∨ root ∈ cells) := by
  have fromCell {cell : Address} (inside : cell ∈ cells) :
      ∃ root content, view.Leads cell root ∧
        view.Rooted table cells root content ∧
        Word.Alike table view.memory cells (.reference cell) content ∧
        root ∈ cells := by
    obtain ⟨root, content, leads, isRoot, alike⟩ := leads_cell terms inside
    obtain ⟨other, loaded, isTerm⟩ := terms.isTerm isRoot.inside
    rw [isRoot.found] at loaded
    cases loaded
    exact ⟨root, content, leads,
      ⟨loads_cell terms isRoot.inside isRoot.found, isTerm,
        fun next refers => ⟨isRoot.ends next refers, isRoot.inside⟩⟩,
      alike, isRoot.inside⟩
  cases subject with
  | cell inside =>
      obtain ⟨root, content, leads, rooted, alike, member⟩ := fromCell inside
      exact ⟨root, content, leads, rooted, alike, .inr member⟩
  | @slot index _ found isTerm =>
      have loads : view.Loads (.stack (Int32.ofNat index)) word :=
        .inr ⟨_, rfl, found⟩
      by_cases refers : ∃ next, word.cell = .reference next
      · obtain ⟨next, decoded⟩ := refers
        have member : next ∈ cells := by
          simpa only [Word.Formed, decoded] using isTerm.formed
        obtain ⟨region, place, rfl⟩ := terms.segments next member
        obtain ⟨root, content, leads, rooted, alike, inside⟩ :=
          fromCell member
        refine ⟨root, content, .there loads decoded ?_ leads, rooted, ?_,
          .inr inside⟩
        · cases region <;> simp [Region.address]
        · intro T _ value tree respects
          rw [← alike T value tree respects]
          simp only [Word.Denotes, decoded, Word.cell_reference]
      · refine ⟨_, word, .here loads ?_, ⟨loads, isTerm, ?_⟩,
          fun _ _ _ _ _ => Iff.rfl, .inl rfl⟩
        · exact fun next decoded => absurd ⟨next, decoded⟩ refers
        · exact fun next decoded => absurd ⟨next, decoded⟩ refers

/-! ## Changing other slots -/

theorem Loads.setLocal {content : Word} (loads : view.Loads address content)
    {place : Nat} (apart : address ≠ view.slot place) (operand : Operand) :
    (view.setLocal place operand).Loads address content := by
  rcases loads with inMemory | ⟨index, rfl, found⟩
  · exact .inl inMemory
  · refine .inr ⟨index, rfl, ?_⟩
    have different : index ≠ view.below.length + place := by
      rintro rfl
      exact apart rfl
    show (view.below ++ (view.locals.set place operand).map
      Operand.toWord)[index]? = some content
    rw [frame] at found
    by_cases low : index < view.below.length
    · rw [List.getElem?_append_left low] at found ⊢
      exact found
    · have high : view.below.length ≤ index := Nat.not_lt.mp low
      rw [List.getElem?_append_right high] at found ⊢
      rw [List.map_set, List.getElem?_set_ne (by omega)]
      exact found

theorem slot_ne (sane : view.Sane) {place other : Nat}
    (first : place < view.frame.length) (second : other < view.frame.length)
    (different : place ≠ other) :
    Address.stack (Int32.ofNat place) ≠ .stack (Int32.ofNat other) := by
  intro same
  have limit := sane.stack
  rw [stack, List.length_append] at limit
  have values := congrArg Int32.toNatClampNeg (Address.stack.inj same)
  rw [Store.toNatClampNeg_ofNat (by omega),
    Store.toNatClampNeg_ofNat (by omega)] at values
  exact different values

end View

/-! ## Sources -/

namespace Source

/-- What a source has to offer: an address and a word for the term there. -/
inductive Finds (table : FunctorTable) (view : View) (cells : Set Address) :
    Source → Address → Word → Prop where
  | argument {index : Nat} {word : Word} : index + 3 ≤ view.below.length →
      index < 2 ^ 31 →
      view.below[view.below.length - 3 - index]? = some word →
      word.IsTerm table view.memory cells →
      Finds table view cells (.argument index) (view.argument index) word
  | slot {place : Local} {word : Word} : place.index < 2 ^ 31 →
      view.locals[place.index]? = some (.word word) →
      word.IsTerm table view.memory cells →
      Finds table view cells (.slot place) (view.slot place.index) word
  | cursor {place : Local} {address : Address} : place.index < 2 ^ 31 →
      view.locals[place.index]? = some (.address address) →
      address ∈ cells →
      Finds table view cells (.cursor place) address (.reference address)

namespace Finds

variable {table : FunctorTable} {view : View} {cells : Set Address}
  {source : Source} {address : Address} {word : Word}

theorem after_item (finds : source.Finds table view cells address word)
    {wanted : View → Prop} (holds : wanted (view.push (.address address))) :
    view.After wanted source.item := by
  cases finds with
  | argument inside small =>
      simp only [item, View.After, View.toNat_toUInt32 small]
      exact ⟨inside, holds⟩
  | slot small => exact View.after_loadLocalAddress small holds
  | cursor small found => exact View.after_loadLocal small found holds

theorem subject (finds : source.Finds table view cells address word) :
    view.Subject table cells address word := by
  cases finds with
  | argument inside _ found isTerm =>
      refine .slot ?_ isTerm
      rw [View.frame, List.getElem?_append_left (by omega)]
      exact found
  | slot _ found isTerm => exact .slot (View.frame_slot found) isTerm
  | cursor _ _ inside => exact .cell inside

/-- No source is the working slot of a match, apart from a cursor. -/
theorem ne_slot (finds : source.Finds table view cells address word)
    (terms : view.memory.Terms table cells) (sane : view.Sane) {place : Nat}
    (inside : place < view.locals.length)
    (different : ∀ slot, source = .slot slot → slot.index ≠ place) :
    address ≠ view.slot place := by
  have length : view.frame.length =
      view.below.length + view.locals.length := Shows.frame_length view
  cases finds with
  | argument low =>
      apply View.slot_ne sane
      · omega
      · omega
      · omega
  | @slot other word _ found _ =>
      have below := (List.getElem?_eq_some_iff.mp found).1
      have apart := different other rfl
      apply View.slot_ne sane
      · omega
      · omega
      · omega
  | cursor _ _ member =>
      obtain ⟨region, index, rfl⟩ := terms.segments address member
      cases region <;> simp [View.slot, Region.address]

end Finds

end Source

/-! ## The code of a match -/

namespace Scene

variable {scene : Scene} {view : View} {cells : Set Address}
  {kept : List Keep} {waiting : List Demand} {position : Nat}
  {source : Source} {address : Address} {word : Word}

theorem small {place : Nat} (inside : place < scene.count) : place < 2 ^ 31 :=
  Nat.lt_trans inside scene.few

/-- The subject is kept in a slot as it is. -/
theorem takeVariable {slot : Local} {term : Term}
    (holds : scene.Holds position (Pattern.takeVariable source slot))
    (ready : scene.Ready view cells kept (⟨word, .takes term⟩ :: waiting))
    (finds : source.Finds scene.table view cells address word)
    (inside : slot.index < scene.count)
    (free : ∀ keep ∈ kept, keep.place ≠ slot.index)
    (next : ∀ content,
      scene.Ready (view.setLocal slot.index (.word content)) cells
        (⟨slot.index, content, term⟩ :: kept) waiting →
      scene.Ensures (position + textSize (Pattern.takeVariable source slot))
        (view.setLocal slot.index (.word content))) :
    scene.Ensures position view := by
  obtain ⟨content, loads, isTerm, alike⟩ := finds.subject.content ready.terms
  apply scene.straight holds
  apply finds.after_item
  refine View.after_load rfl loads ?_
  refine View.after_storeLocal (small inside) rfl ?_ ?_
  · rw [← ready.length] at inside
    exact inside
  · exact next content (ready.keep inside free isTerm alike)

/-- The subject is made equal to what a slot keeps for the same variable. -/
theorem unifyValue {slot : Local} {name : String} {other : Word}
    (holds : scene.Holds position (Pattern.unifyValue source slot))
    (ready : scene.Ready view cells kept
      (⟨word, .takes (.var name)⟩ :: waiting))
    (finds : source.Finds scene.table view cells address word)
    (named : name ≠ Term.anonymous)
    (known : ⟨slot.index, other, .var name⟩ ∈ kept)
    (inside : slot.index < scene.count)
    (next : ∀ larger memory, cells ⊆ larger →
      scene.Ready { view with memory } larger kept waiting →
      scene.Ensures (position + textSize (Pattern.unifyValue source slot))
        { view with memory }) :
    scene.Ensures position view := by
  obtain ⟨stored, isTerm⟩ := ready.stored _ known
  have means (T : Type) [TreeAlgebra T] (value : Address → T)
      (bound : String → T)
      (met : ∀ demand ∈ waiting ++ kept.map Keep.demand,
        demand.Met scene.table scene.naming view.memory value bound) :
      Demand.Met scene.table scene.naming view.memory value bound
          ⟨word, .takes (.var name)⟩ ↔
        ∃ tree, other.Denotes scene.table view.memory value tree ∧
          word.Denotes scene.table view.memory value tree := by
    have keeps := (Demand.met_var named).mp
      (met (Keep.demand ⟨slot.index, other, .var name⟩)
        (List.mem_append_right _ (List.mem_map_of_mem known)))
    rw [Demand.met_var named]
    constructor
    · exact fun here => ⟨_, keeps, here⟩
    · rintro ⟨tree, there, here⟩
      rw [← there.unique keeps]
      exact here
  have split : Pattern.unifyValue source slot =
      [source.item, Item.onLocal .loadLocalAddress slot] ++
        [.plain .unify] := rfl
  rw [split, holds_append] at holds
  rw [split, textSize_append, ← Nat.add_assoc] at next
  apply scene.straight holds.1
  apply finds.after_item
  apply View.after_loadLocalAddress (small inside)
  refine Context.Ensures.unify scene.closes holds.2.1
    (holds.2.lt (Nat.zero_lt_succ _)) rfl ready.terms ready.apart
    (.slot (View.frame_slot stored) isTerm) (finds.subject.withOperands _) ?_ ?_
  · intro larger memory equates
    exact next larger memory equates.evolves.more (ready.equated equates
      (fun _ => False.elim) fun T _ value bound _ => means T value bound)
  · intro clash
    apply ready.unsolvable
    intro T _ value bound respects met demanded
    obtain ⟨tree, there, here⟩ := (means T value bound met).mp demanded
    exact clash T value respects tree there here

/-- The references of the subject are followed. -/
theorem takeSubject {subject : Local} {term : Term}
    (holds : scene.Holds position (Pattern.takeSubject source subject))
    (ready : scene.Ready view cells kept (⟨word, .takes term⟩ :: waiting))
    (finds : source.Finds scene.table view cells address word)
    (inside : subject.index < scene.count)
    (free : ∀ keep ∈ kept, keep.place ≠ subject.index)
    (different : ∀ slot, source = .slot slot → slot.index ≠ subject.index)
    (next : ∀ root content,
      scene.Ready (view.setLocal subject.index (.address root)) cells kept
        (⟨content, .takes term⟩ :: waiting) →
      View.Rooted scene.table (view.setLocal subject.index (.address root))
        cells root content →
      scene.Ensures (position + textSize (Pattern.takeSubject source subject))
        (view.setLocal subject.index (.address root))) :
    scene.Ensures position view := by
  apply Context.Ensures.of_sane
  intro sane
  obtain ⟨root, content, leads, rooted, alike, place⟩ :=
    finds.subject.root ready.terms
  have there : subject.index < view.locals.length := by
    rw [ready.length]
    exact inside
  have apart : root ≠ view.slot subject.index := by
    rcases place with rfl | member
    · exact finds.ne_slot ready.terms sane there different
    · obtain ⟨region, index, rfl⟩ := ready.terms.segments root member
      cases region <;> simp [View.slot, Region.address]
  apply scene.straight holds
  apply finds.after_item
  refine View.after_deref rfl (leads.withOperands _) ?_
  refine View.after_storeLocal (small inside) rfl there ?_
  apply next root content
  · apply (ready.setLocal free (.address root)).rephrased
    · intro demand member other isWord
      rcases List.mem_cons.mp member with rfl | waits
      · cases List.mem_singleton.mp isWord
        exact rooted.isTerm
      · exact ready.awaited demand (List.mem_cons_of_mem _ waits) other isWord
    · intro demand member place spared
      rcases List.mem_cons.mp member with rfl | waits
      · exact spared.elim
      · exact ⟨demand, List.mem_cons_of_mem _ waits, spared⟩
    · intro T _ value bound respects
      simp only [List.forall_mem_cons]
      exact and_congr_left' (alike.met_iff respects)
  · exact ⟨rooted.loads.setLocal apart _, rooted.isTerm, rooted.free⟩

/-- The tag of the subject decides between two pieces of code. -/
theorem testTag {subject : Local} {tag : Tag} {target : Label}
    {root : Address} {content : Word} {rest : List Item}
    (holds : scene.Holds position
      (Pattern.compareTag subject tag ++
        .branch .branchNotEqual target :: rest))
    (inside : subject.index < scene.count)
    (found : view.locals[subject.index]? = some (.address root))
    (loads : view.Loads root content)
    (same : content.tag = tag → scene.Ensures
      (position + textSize (Pattern.compareTag subject tag) + 2) view)
    (other : content.tag ≠ tag → scene.Ensures (scene.place target) view) :
    scene.Ensures position view := by
  have codes : (⟨tag.code.toUInt32.toUInt64⟩ : Word) = ⟨content.tag.code⟩ ↔
      content.tag = tag := by
    generalize content.tag = known
    cases tag <;> cases known <;> decide
  rw [holds_append] at holds
  apply scene.straight holds.1
  apply View.after_loadLocal (small inside) found
  refine View.after_load rfl loads ?_
  apply branch false holds.2 rfl
  · intro differs
    apply other
    intro equal
    rw [Operand.toWord, Operand.toWord, codes.mpr equal] at differs
    simp at differs
  · intro equal
    apply same
    apply codes.mp
    simpa [Operand.toWord] using equal

end Scene

end LogicMachine
