import LogicMachine.Proofs.Reading.Memory

/-!
# Reading finite terms

A compound that has been entered and not left lies above the node at hand.  Above
a node from which no cycle is reachable there is nothing that is below it, so
such a node is never taken for a cycle, and what is remembered of it is its plain
reading.
-/

namespace LogicMachine

namespace Store

variable {table : FunctorTable} {store : Store} {cells : Set Address}

theorem Reaches.trans {start middle last : Cell}
    (first : store.Reaches table start middle)
    (second : store.Reaches table middle last) :
    store.Reaches table start last := by
  induction second with
  | start => exact first
  | part _ isPart found ih => exact .part ih isPart found

/-- What is reached from a node of some cells is a node of these cells. -/
theorem Reaches.sound (sound : store.Sound table cells) {start node : Cell}
    (formed : start.Sound table store cells)
    (reached : store.Reaches table start node) :
    node.Sound table store cells := by
  induction reached with
  | start => exact formed
  | part _ isPart found ih => exact sound.sound_of_at (ih.part_mem isPart) found

theorem Unfolds.below {start node : Cell} (unfolds : store.Unfolds table start)
    (reached : store.Reaches table start node) : store.Unfolds table node :=
  fun inner onward => unfolds inner (reached.trans onward)

/-- No cycle is reachable if every part ranks lower than its node. -/
theorem Unfolds.of_rank {start : Cell} {rank : Cell → Nat} {good : Cell → Prop}
    (isGood : good start)
    (lower : ∀ node index address next, good node →
      store.Part table node index address → store.At address next →
      good next ∧ rank next < rank node) : store.Unfolds table start := by
  have descends {first last : Cell} (isGood : good first)
      (reached : store.Reaches table first last) :
      good last ∧ rank last ≤ rank first := by
    induction reached with
    | start => exact ⟨isGood, Nat.le_refl _⟩
    | part _ isPart found ih =>
        obtain ⟨nextGood, less⟩ := lower _ _ _ _ ih.1 isPart found
        exact ⟨nextGood, by omega⟩
  intro node reached index address next isPart found back
  obtain ⟨nextGood, less⟩ := lower _ _ _ _ (descends isGood reached).1 isPart
    found
  have notHigher := (descends nextGood back).2
  omega

/-- Two compounds of readable cells that start at the same cell are one. -/
theorem Readable.compound_inj (readable : store.Readable table cells)
    {node other : Cell} (formed : node.Sound table store cells)
    (otherFormed : other.Sound table store cells) {key : Address}
    {name otherName : String} {parts others : List Address}
    (isCompound : store.Compound table node key name parts)
    (again : store.Compound table other key otherName others) :
    node = other := by
  cases isCompound with
  | headed known =>
      cases again with
      | headed => rfl
      | pair => exact absurd otherFormed.1 (readable.header_notMem known)
  | pair =>
      cases again with
      | headed known => exact absurd formed.1 (readable.header_notMem known)
      | pair => rfl

/-- Each entered compound has a part that leads to a node. -/
def EnteredAbove (table : FunctorTable) (store : Store) (cells : Set Address)
    (entered : Set Address) (node : Cell) : Prop :=
  ∀ key ∈ entered, ∃ outer name parts,
    store.Compound table outer key name parts ∧
    outer.Sound table store cells ∧
    ∃ part ∈ parts, ∃ next, store.At part next ∧
      store.Reaches table next node

theorem EnteredAbove.enter {entered : Set Address} {node : Cell} {key : Address}
    {name : String} {parts : List Address}
    (above : store.EnteredAbove table cells entered node)
    (formed : node.Sound table store cells)
    (isCompound : store.Compound table node key name parts) {part : Address}
    (member : part ∈ parts) {next : Cell} (found : store.At part next) :
    store.EnteredAbove table cells (insert key entered) next := by
  intro outerKey isEntered
  rcases Set.mem_insert_iff.mp isEntered with rfl | old
  · exact ⟨node, name, parts, isCompound, formed, part, member, next, found,
      .start⟩
  · obtain ⟨outer, outerName, others, isOuter, outerFormed, other, otherMember,
      onward, otherFound, reached⟩ := above outerKey old
    obtain ⟨index, isPart⟩ := isCompound.part member
    exact ⟨outer, outerName, others, isOuter, outerFormed, other, otherMember,
      onward, otherFound, .part reached isPart found⟩

/-- A compound above itself lies on a cycle. -/
theorem EnteredAbove.not_unfolds (readable : store.Readable table cells)
    {entered : Set Address} {node : Cell} {key : Address} {name : String}
    {parts : List Address} (above : store.EnteredAbove table cells entered node)
    (formed : node.Sound table store cells)
    (isCompound : store.Compound table node key name parts)
    (again : key ∈ entered) : ¬ store.Unfolds table node := by
  intro unfolds
  obtain ⟨outer, outerName, others, isOuter, outerFormed, part, member, next,
    found, reached⟩ := above key again
  cases readable.compound_inj formed outerFormed isCompound isOuter
  obtain ⟨index, isPart⟩ := isOuter.part member
  exact unfolds node .start index part next isPart found reached

/-- What is known of a compound from which no cycle is reachable is its plain
reading. -/
def Remembers (table : FunctorTable) (store : Store) (cells : Set Address)
    (known : Address → Option Term) : Prop :=
  ∀ key term, known key = some term → ∀ address ∈ cells, ∀ node name parts,
    store.At address node → store.Compound table node key name parts →
    store.Unfolds table node → store.PlainReading table address term

theorem Remembers.nothing :
    store.Remembers table cells fun _ => none :=
  nofun

theorem Remembers.update (readable : store.Readable table cells)
    {known : Address → Option Term} (remembers : store.Remembers table cells known)
    {node : Cell} {key : Address} {name : String} {parts : List Address}
    {terms : List Term} (formed : node.Sound table store cells)
    (isCompound : store.Compound table node key name parts)
    (plain : store.Unfolds table node →
      store.PlainReadings table parts terms) :
    store.Remembers table cells
      (Function.update known key (some (.compound name terms))) := by
  intro other term isKnown address inside otherNode otherName others found
    again unfolds
  by_cases same : other = key
  · subst same
    rw [Function.update_self] at isKnown
    cases isKnown
    cases readable.compound_inj formed (readable.sound_of_at inside found)
      isCompound again
    exact .compound found isCompound (plain unfolds)
  · rw [Function.update_of_ne same] at isKnown
    exact remembers other term isKnown address inside otherNode otherName others
      found again unfolds

mutual

/-- Reading with a memory gives the plain reading of every term from which no
cycle is reachable, whatever else has been read before. -/
theorem MemoReading.plain (readable : store.Readable table cells)
    {entered : Set Address} {known later : Address → Option Term}
    {address : Address} {term : Term}
    (reading : store.MemoReading table entered known address term later)
    (inside : address ∈ cells)
    (above : ∀ node, store.At address node →
      store.EnteredAbove table cells entered node)
    (remembers : store.Remembers table cells known) :
    store.Remembers table cells later ∧
      ∀ node, store.At address node → store.Unfolds table node →
        store.PlainReading table address term := by
  cases reading with
  | unbound found => exact ⟨remembers, fun _ _ _ => .unbound found⟩
  | atom found named => exact ⟨remembers, fun _ _ _ => .atom found named⟩
  | @cycle _ _ _ _ node _ _ found isCompound again =>
      refine ⟨remembers, fun other found' unfolds => ?_⟩
      cases found.unique found'
      exact absurd unfolds ((above node found).not_unfolds readable
        (readable.sound_of_at inside found) isCompound again)
  | @recalled _ _ _ _ node _ _ _ found isCompound left finished =>
      refine ⟨remembers, fun other found' unfolds => ?_⟩
      cases found.unique found'
      exact remembers _ _ finished address inside node _ _ found isCompound
        unfolds
  | @compound _ _ later _ _ node _ parts terms found isCompound left new args =>
      have formed := readable.sound_of_at inside found
      have partsInside := readable.parts_mem inside found isCompound
      obtain ⟨remembered, plain⟩ :=
        MemoReadings.plain readable args partsInside
          (fun part member next partFound =>
            (above node found).enter formed isCompound member partFound)
          remembers
      have whole : store.Unfolds table node →
          store.PlainReadings table parts terms := by
        intro unfolds
        refine plain fun part member next partFound => ?_
        obtain ⟨index, isPart⟩ := isCompound.part member
        exact unfolds.below (.part .start isPart partFound)
      refine ⟨remembered.update readable formed isCompound whole, ?_⟩
      intro other found' unfolds
      cases found.unique found'
      exact .compound found isCompound (whole unfolds)

theorem MemoReadings.plain (readable : store.Readable table cells)
    {entered : Set Address} {known later : Address → Option Term}
    {addresses : List Address} {terms : List Term}
    (readings : store.MemoReadings table entered known addresses terms later)
    (inside : ∀ address ∈ addresses, address ∈ cells)
    (above : ∀ address ∈ addresses, ∀ node, store.At address node →
      store.EnteredAbove table cells entered node)
    (remembers : store.Remembers table cells known) :
    store.Remembers table cells later ∧
      ((∀ address ∈ addresses, ∀ node, store.At address node →
          store.Unfolds table node) →
        store.PlainReadings table addresses terms) := by
  cases readings with
  | nil => exact ⟨remembers, fun _ => .nil⟩
  | @cons _ _ later _ address term addresses terms first rest =>
      obtain ⟨remembered, plain⟩ := MemoReading.plain readable first
        (inside _ List.mem_cons_self) (above _ List.mem_cons_self) remembers
      obtain ⟨last, others⟩ := MemoReadings.plain readable rest
        (fun other member => inside other (List.mem_cons_of_mem _ member))
        (fun other member => above other (List.mem_cons_of_mem _ member))
        remembered
      refine ⟨last, fun unfolds => .cons ?_ (others ?_)⟩
      · obtain ⟨node, found⟩ := readable.exists_at (inside _ List.mem_cons_self)
        exact plain node found (unfolds _ List.mem_cons_self node found)
      · exact fun other member =>
          unfolds other (List.mem_cons_of_mem _ member)

end

end Store

end LogicMachine
