import LogicMachine.Proofs.Reading.ReadBack

/-!
# Reading the same terms in a later store

A store that only gets more cells keeps its terms: the cells in use show the same
nodes, the same compounds start at them, and their readings are the same.
-/

namespace LogicMachine

/-- A word of a term whose cells are among the given ones. -/
structure Word.Readable (table : FunctorTable) (store : Store)
    (cells : Set Address) (word : Word) : Prop where
  sound : word.cell.Sound table store cells
  isTerm : word.cell.Readable table

namespace Store

/-- One more cell with a readable word. -/
theorem Readable.with_cell {table : FunctorTable} {store : Store}
    {cells : Set Address} (readable : store.Readable table cells)
    {address : Address} (inUse : address ∈ store.allocated) {word : Word}
    (loaded : store.load address = .ok word)
    (isReadable : word.Readable table store (insert address cells)) :
    store.Readable table (insert address cells) where
  formed := by
    intro other member
    rcases Set.mem_insert_iff.mp member with rfl | inside
    · exact ⟨word, loaded, isReadable.sound⟩
    · obtain ⟨found, present, formed⟩ := readable.formed other inside
      exact ⟨found, present, formed.mono (Set.subset_insert _ _)⟩
  inside := Set.insert_subset inUse readable.inside
  acyclic := by
    intro other member
    rcases Set.mem_insert_iff.mp member with rfl | inside
    · by_cases stays : ∀ next, word.cell = .reference next → next = other
      · exact ⟨other, .here ⟨word, loaded, stays⟩⟩
      · push Not at stays
        obtain ⟨next, refers, different⟩ := stays
        have sound := isReadable.sound
        simp only [refers, Cell.Sound] at sound
        obtain ⟨root, leads⟩ := readable.acyclic next
          ((Set.mem_insert_iff.mp sound).resolve_left different)
        exact ⟨root, .there loaded refers different leads⟩
    · exact readable.acyclic other inside
  terms := by
    intro other member found present
    rcases Set.mem_insert_iff.mp member with rfl | inside
    · cases loaded.symm.trans present
      exact isReadable.isTerm
    · exact readable.terms other inside found present

/-- The later store has the cells in use as they were. -/
structure Preserves (before after : Store) : Prop where
  allocated : before.allocated ⊆ after.allocated
  load : ∀ address ∈ before.allocated,
    after.load address = before.load address

/-- A cell in use with a word in it. -/
def Holds (store : Store) (address : Address) (word : Word) : Prop :=
  address ∈ store.allocated ∧ store.load address = .ok word

namespace Preserves

variable {table : FunctorTable} {before after : Store} {cells : Set Address}

theorem refl (store : Store) : store.Preserves store :=
  ⟨subset_rfl, fun _ _ => rfl⟩

theorem trans {last : Store} (first : before.Preserves after)
    (second : after.Preserves last) : before.Preserves last where
  allocated := first.allocated.trans second.allocated
  load := fun address inUse =>
    (second.load address (first.allocated inUse)).trans
      (first.load address inUse)

theorem holds (preserves : before.Preserves after) {address : Address}
    {word : Word} (holds : before.Holds address word) :
    after.Holds address word :=
  ⟨preserves.allocated holds.1, (preserves.load _ holds.1).trans holds.2⟩

theorem functorAt (preserves : before.Preserves after) {header : Address}
    (inUse : header ∈ before.allocated) :
    table.functorAt after header = table.functorAt before header :=
  FunctorTable.functorAt_congr (preserves.load header inUse)

theorem leads (preserves : before.Preserves after)
    (sound : before.Sound table cells) {address root : Address}
    (inside : address ∈ cells) (leads : before.Leads address root) :
    after.Leads address root := by
  induction leads with
  | @here address isRoot =>
      obtain ⟨word, found, ends⟩ := isRoot
      have same := preserves.load address (sound.inside inside)
      exact .here ⟨word, same.trans found, ends⟩
  | @there address next root word found refers different _ ih =>
      have same := preserves.load address (sound.inside inside)
      exact .there (same.trans found) refers different
        (ih (sound.references _ inside _ found _ refers))

theorem at_later (preserves : before.Preserves after)
    (sound : before.Sound table cells) {address : Address}
    (inside : address ∈ cells) {node : Cell} (found : before.At address node) :
    after.At address node := by
  obtain ⟨root, word, leads, loaded, decoded⟩ := found
  have same := preserves.load root
    (sound.inside (leads.mem sound.references inside))
  exact ⟨root, word, preserves.leads sound inside leads, same.trans loaded,
    decoded⟩

theorem at_earlier (preserves : before.Preserves after)
    (sound : before.Sound table cells) {address : Address}
    (inside : address ∈ cells) {node : Cell} (found : after.At address node) :
    before.At address node := by
  obtain ⟨other, known⟩ := sound.exists_at inside
  cases found.unique (preserves.at_later sound inside known)
  exact known

theorem cell_sound (preserves : before.Preserves after) {node : Cell}
    (formed : node.Sound table before cells) :
    node.Sound table after cells := by
  cases node with
  | compound header =>
      obtain ⟨inUse, functor, known, arguments⟩ := formed
      exact ⟨preserves.allocated inUse, functor,
        (preserves.functorAt inUse).trans known, arguments⟩
  | _ => exact formed

theorem word_readable (preserves : before.Preserves after) {word : Word}
    (readable : word.Readable table before cells) :
    word.Readable table after cells :=
  ⟨preserves.cell_sound readable.sound, readable.isTerm⟩

theorem readable (preserves : before.Preserves after)
    (readable : before.Readable table cells) :
    after.Readable table cells where
  formed := by
    intro address inside
    obtain ⟨word, found, formed⟩ := readable.formed address inside
    exact ⟨word, (preserves.load _ (readable.inside inside)).trans found,
      preserves.cell_sound formed⟩
  inside := readable.inside.trans preserves.allocated
  acyclic := by
    intro address inside
    obtain ⟨root, leads⟩ := readable.acyclic address inside
    exact ⟨root, preserves.leads readable.toSound inside leads⟩
  terms := by
    intro address inside word found
    rw [preserves.load _ (readable.inside inside)] at found
    exact readable.terms address inside word found

/-- A compound of the later store that was there before. -/
theorem compound_earlier (preserves : before.Preserves after) {node : Cell}
    (formed : node.Sound table before cells) {key : Address} {name : String}
    {parts : List Address}
    (isCompound : after.Compound table node key name parts) :
    before.Compound table node key name parts := by
  cases isCompound with
  | headed known =>
      exact .headed ((preserves.functorAt formed.1).symm.trans known)
  | pair => exact .pair _

theorem compound_later (preserves : before.Preserves after) {node : Cell}
    (formed : node.Sound table before cells) {key : Address} {name : String}
    {parts : List Address}
    (isCompound : before.Compound table node key name parts) :
    after.Compound table node key name parts := by
  cases isCompound with
  | headed known => exact .headed ((preserves.functorAt formed.1).trans known)
  | pair => exact .pair _

theorem part_earlier (preserves : before.Preserves after) {node : Cell}
    (formed : node.Sound table before cells) {index : Nat} {address : Address}
    (isPart : after.Part table node index address) :
    before.Part table node index address := by
  cases isPart with
  | argument known below =>
      exact .argument ((preserves.functorAt formed.1).symm.trans known) below
  | head => exact .head _
  | tail => exact .tail _

theorem reaches_earlier (preserves : before.Preserves after)
    (sound : before.Sound table cells) {start node : Cell}
    (formed : start.Sound table before cells)
    (reached : after.Reaches table start node) :
    before.Reaches table start node := by
  induction reached with
  | start => exact .start
  | part _ isPart found ih =>
      have here := ih.sound sound formed
      have wasPart := preserves.part_earlier here isPart
      exact .part ih wasPart
        (preserves.at_earlier sound (here.part_mem wasPart) found)

theorem unfolds (preserves : before.Preserves after)
    (sound : before.Sound table cells) {start : Cell}
    (formed : start.Sound table before cells)
    (unfolds : before.Unfolds table start) : after.Unfolds table start := by
  intro node reached index address next isPart found back
  have wasReached := preserves.reaches_earlier sound formed reached
  have here := wasReached.sound sound formed
  have wasPart := preserves.part_earlier here isPart
  have inside := here.part_mem wasPart
  have wasFound := preserves.at_earlier sound inside found
  exact unfolds node wasReached index address next wasPart wasFound
    (preserves.reaches_earlier sound (sound.sound_of_at inside wasFound) back)

mutual

theorem plainReading (preserves : before.Preserves after)
    (readable : before.Readable table cells) {address : Address} {term : Term}
    (inside : address ∈ cells)
    (reading : before.PlainReading table address term) :
    after.PlainReading table address term := by
  cases reading with
  | unbound found =>
      exact .unbound (preserves.at_later readable.toSound inside found)
  | atom found known =>
      exact .atom (preserves.at_later readable.toSound inside found) known
  | compound found isCompound args =>
      have formed := readable.sound_of_at inside found
      exact .compound (preserves.at_later readable.toSound inside found)
        (preserves.compound_later formed isCompound)
        (plainReadings preserves readable
          (readable.parts_mem inside found isCompound) args)

theorem plainReadings (preserves : before.Preserves after)
    (readable : before.Readable table cells) {addresses : List Address}
    {terms : List Term} (inside : ∀ address ∈ addresses, address ∈ cells)
    (readings : before.PlainReadings table addresses terms) :
    after.PlainReadings table addresses terms := by
  cases readings with
  | nil => exact .nil
  | cons first rest =>
      exact .cons
        (plainReading preserves readable (inside _ List.mem_cons_self) first)
        (plainReadings preserves readable
          (fun other member => inside other (List.mem_cons_of_mem _ member))
          rest)

end

end Preserves

end Store

end LogicMachine
