import LogicMachine.Proofs.Reading.Nodes

/-!
# Plain reading and reading with a memory

The plain reading of an address follows the cells of its term recursively.  It
exists if the term is finite.  Reading with a memory enters no compound while
its own arguments are being read and reads no compound twice, so it comes to an
end for every term.  The two give the same term wherever the plain one exists.
-/

namespace LogicMachine

namespace Store

mutual

/-- The term at an address, read recursively. -/
inductive PlainReading (table : FunctorTable) (store : Store) :
    Address → Term → Prop where
  | unbound {address target : Address}
      (found : store.At address (.reference target)) :
      PlainReading table store address (variableAt target)
  | atom {address : Address} {id : FunctorId} {functor : Functor}
      (found : store.At address (.constant id))
      (known : table.functor id = .ok functor) :
      PlainReading table store address (.atom functor.name)
  | compound {address key : Address} {node : Cell} {name : String}
      {parts : List Address} {terms : List Term}
      (found : store.At address node)
      (isCompound : store.Compound table node key name parts)
      (args : PlainReadings table store parts terms) :
      PlainReading table store address (.compound name terms)

/-- The terms at some addresses, read recursively. -/
inductive PlainReadings (table : FunctorTable) (store : Store) :
    List Address → List Term → Prop where
  | nil : PlainReadings table store [] []
  | cons {address : Address} {term : Term} {addresses : List Address}
      {terms : List Term} (first : PlainReading table store address term)
      (rest : PlainReadings table store addresses terms) :
      PlainReadings table store (address :: addresses) (term :: terms)

end

/-- No structure or list pair below a node is below one of its own parts. -/
def Unfolds (table : FunctorTable) (store : Store) (start : Cell) : Prop :=
  ∀ node, store.Reaches table start node →
    ∀ index address next, store.Part table node index address →
      store.At address next → ¬ store.Reaches table next node

mutual

/-- The term at an address, read with a memory: some compounds have been entered
and not left, others are known.  The last memory holds what is known
afterwards. -/
inductive MemoReading (table : FunctorTable) (store : Store) :
    Set Address → (Address → Option Term) → Address → Term →
      (Address → Option Term) → Prop where
  | unbound {entered : Set Address} {known : Address → Option Term}
      {address target : Address}
      (found : store.At address (.reference target)) :
      MemoReading table store entered known address (variableAt target) known
  | atom {entered : Set Address} {known : Address → Option Term}
      {address : Address} {id : FunctorId} {functor : Functor}
      (found : store.At address (.constant id))
      (named : table.functor id = .ok functor) :
      MemoReading table store entered known address (.atom functor.name) known
  | cycle {entered : Set Address} {known : Address → Option Term}
      {address key : Address} {node : Cell} {name : String}
      {parts : List Address} (found : store.At address node)
      (isCompound : store.Compound table node key name parts)
      (again : key ∈ entered) :
      MemoReading table store entered known address (variableAt key) known
  | recalled {entered : Set Address} {known : Address → Option Term}
      {address key : Address} {node : Cell} {name : String}
      {parts : List Address} {term : Term} (found : store.At address node)
      (isCompound : store.Compound table node key name parts)
      (left : key ∉ entered) (finished : known key = some term) :
      MemoReading table store entered known address term known
  | compound {entered : Set Address} {known later : Address → Option Term}
      {address key : Address} {node : Cell} {name : String}
      {parts : List Address} {terms : List Term} (found : store.At address node)
      (isCompound : store.Compound table node key name parts)
      (left : key ∉ entered) (new : known key = none)
      (args : MemoReadings table store (insert key entered) known parts terms
        later) :
      MemoReading table store entered known address (.compound name terms)
        (Function.update later key (some (.compound name terms)))

/-- The terms at some addresses, read one after another with a memory. -/
inductive MemoReadings (table : FunctorTable) (store : Store) :
    Set Address → (Address → Option Term) → List Address → List Term →
      (Address → Option Term) → Prop where
  | nil {entered : Set Address} {known : Address → Option Term} :
      MemoReadings table store entered known [] [] known
  | cons {entered : Set Address} {known later last : Address → Option Term}
      {address : Address} {term : Term} {addresses : List Address}
      {terms : List Term}
      (first : MemoReading table store entered known address term later)
      (rest : MemoReadings table store entered later addresses terms last) :
      MemoReadings table store entered known (address :: addresses)
        (term :: terms) last

end

variable {table : FunctorTable} {store : Store} {cells : Set Address}

/-! ## The plain reading is unique -/

mutual

theorem PlainReading.unique {address : Address} {term other : Term}
    (reading : store.PlainReading table address term)
    (again : store.PlainReading table address other) : other = term := by
  cases reading with
  | unbound found =>
      cases again with
      | unbound found' =>
          cases found.unique found'
          rfl
      | atom found' => cases found.unique found'
      | compound found' isCompound =>
          cases found.unique found'
          cases isCompound
  | atom found known =>
      cases again with
      | unbound found' => cases found.unique found'
      | atom found' known' =>
          cases found.unique found'
          cases known.symm.trans known'
          rfl
      | compound found' isCompound =>
          cases found.unique found'
          cases isCompound
  | compound found isCompound args =>
      cases again with
      | unbound found' =>
          cases found.unique found'
          cases isCompound
      | atom found' =>
          cases found.unique found'
          cases isCompound
      | compound found' isCompound' args' =>
          cases found.unique found'
          obtain ⟨rfl, rfl, rfl⟩ := isCompound.unique isCompound'
          rw [PlainReadings.unique args args']

theorem PlainReadings.unique {addresses : List Address}
    {terms others : List Term}
    (readings : store.PlainReadings table addresses terms)
    (again : store.PlainReadings table addresses others) : others = terms := by
  cases readings with
  | nil =>
      cases again
      rfl
  | cons first rest =>
      cases again with
      | cons first' rest' =>
          rw [PlainReading.unique first first', PlainReadings.unique rest rest']

end

/-! ## Reading with a memory comes to an end -/

mutual

/-- What is known stays known. -/
theorem MemoReading.keeps {entered : Set Address}
    {known later : Address → Option Term} {address : Address} {term : Term}
    (reading : store.MemoReading table entered known address term later)
    {key : Address} {finished : Term} (isKnown : known key = some finished) :
    later key = some finished := by
  cases reading with
  | unbound | atom | cycle | recalled => exact isKnown
  | @compound _ _ _ _ start _ _ _ _ found isCompound left new args =>
      have other : key ≠ start := by
        rintro rfl
        cases new.symm.trans isKnown
      rw [Function.update_of_ne other]
      exact MemoReadings.keeps args isKnown

theorem MemoReadings.keeps {entered : Set Address}
    {known later : Address → Option Term} {addresses : List Address}
    {terms : List Term}
    (readings : store.MemoReadings table entered known addresses terms later)
    {key : Address} {finished : Term} (isKnown : known key = some finished) :
    later key = some finished := by
  cases readings with
  | nil => exact isKnown
  | cons first rest =>
      exact MemoReadings.keeps rest (MemoReading.keeps first isKnown)

end

theorem MemoReadings.length_eq {entered : Set Address}
    {known later : Address → Option Term} {addresses : List Address}
    {terms : List Term}
    (readings : store.MemoReadings table entered known addresses terms later) :
    addresses.length = terms.length := by
  induction addresses generalizing known terms with
  | nil =>
      cases readings
      rfl
  | cons address addresses ih =>
      cases readings with
      | cons _ rest => exact congrArg (· + 1) (ih rest)

/-- A compound that was entered, whether it has been left or not. -/
def Met (entered : Set Address) (known : Address → Option Term)
    (key : Address) : Prop :=
  key ∈ entered ∨ ∃ term, known key = some term

theorem Met.of_keeps {entered : Set Address}
    {known later : Address → Option Term}
    (keeps : ∀ key term, known key = some term → later key = some term)
    {key : Address} (met : Met entered known key) : Met entered later key := by
  rcases met with inside | ⟨term, isKnown⟩
  · exact .inl inside
  · exact .inr ⟨term, keeps key term isKnown⟩

/-- Cells that are read one after another are read to the end if each of them
is. -/
theorem exists_memoReadings {entered : Set Address}
    {property : (Address → Option Term) → Prop}
    (kept : ∀ known later, property known →
      (∀ key term, known key = some term → later key = some term) →
      property later)
    {addresses : List Address}
    (each : ∀ address ∈ addresses, ∀ known, property known →
      ∃ term later, store.MemoReading table entered known address term later)
    {known : Address → Option Term} (holds : property known) :
    ∃ terms later,
      store.MemoReadings table entered known addresses terms later := by
  induction addresses generalizing known with
  | nil => exact ⟨[], known, .nil⟩
  | cons address addresses ih =>
      obtain ⟨term, later, first⟩ := each address List.mem_cons_self known holds
      obtain ⟨terms, last, rest⟩ :=
        ih (fun other member => each other (List.mem_cons_of_mem _ member))
          (kept known later holds fun _ _ => first.keeps)
      exact ⟨term :: terms, last, .cons first rest⟩

/-- Each compound on the way down is one that has not been met before, so there
are no more of them than cells. -/
theorem Readable.exists_memoReading_of_met
    (readable : store.Readable table cells) {depth : Nat}
    {entered : Set Address} {known : Address → Option Term}
    {address : Address} (inside : address ∈ cells) {met : List Address}
    (distinct : met.Nodup)
    (present : ∀ key ∈ met, ∃ word, store.load key = .ok word)
    (areMet : ∀ key ∈ met, Met entered known key)
    (enough : store.cellCount < depth + met.length) :
    ∃ term later, store.MemoReading table entered known address term later := by
  have short := length_le_cellCount distinct present
  induction depth generalizing entered known address met with
  | zero => omega
  | succ depth ih =>
      obtain ⟨node, found⟩ := readable.exists_at inside
      cases readable.shown inside found with
      | unbound target => exact ⟨_, known, .unbound found⟩
      | atom named => exact ⟨_, known, .atom found named⟩
      | @compound node key name parts isCompound partsInside isThere =>
          by_cases again : key ∈ entered
          · exact ⟨_, known, .cycle found isCompound again⟩
          cases finished : known key with
          | some term => exact ⟨term, known, .recalled found isCompound again finished⟩
          | none =>
              have new : key ∉ met := by
                intro member
                rcases areMet key member with old | ⟨term, isKnown⟩
                · exact again old
                · cases finished.symm.trans isKnown
              have longer : (key :: met).Nodup :=
                List.nodup_cons.mpr ⟨new, distinct⟩
              have presentToo : ∀ other ∈ key :: met,
                  ∃ word, store.load other = .ok word := by
                intro other member
                rcases List.mem_cons.mp member with rfl | old
                · exact isThere
                · exact present other old
              have metToo : ∀ other ∈ key :: met,
                  Met (insert key entered) known other := by
                intro other member
                rcases List.mem_cons.mp member with rfl | old
                · exact .inl (Set.mem_insert _ _)
                · rcases areMet other old with isEntered | isKnown
                  · exact .inl (Set.mem_insert_of_mem _ isEntered)
                  · exact .inr isKnown
              obtain ⟨terms, later, args⟩ :=
                @exists_memoReadings table store (insert key entered)
                  (fun known => ∀ other ∈ key :: met,
                    Met (insert key entered) known other)
                  (fun known later holds keeps other member =>
                    (holds other member).of_keeps keeps)
                  parts
                  (fun part member known holds =>
                    ih (partsInside part member) longer presentToo holds
                      (by simp only [List.length_cons]; omega)
                      (length_le_cellCount longer presentToo))
                  known metToo
              exact ⟨_, _, .compound found isCompound again finished args⟩

theorem Readable.exists_memoReading (readable : store.Readable table cells)
    {address : Address} (inside : address ∈ cells) :
    ∃ term later,
      store.MemoReading table ∅ (fun _ => none) address term later :=
  readable.exists_memoReading_of_met inside List.nodup_nil nofun nofun
    (Nat.lt_succ_self _)

/-- Two structures that are each the argument of the other, read from the one. -/
theorem MemoReading.loop {entered : Set Address}
    {known : Address → Option Term}
    {address part other outer inner : Address} {name innerName : String}
    (found : store.At address (.compound outer))
    (isOuter : store.Compound table (.compound outer) outer name [part])
    (foundPart : store.At part (.compound inner))
    (isInner : store.Compound table (.compound inner) inner innerName [other])
    (foundOther : store.At other (.compound outer))
    (outerLeft : outer ∉ entered) (innerLeft : inner ∉ entered)
    (different : inner ≠ outer) (outerNew : known outer = none)
    (innerNew : known inner = none) :
    ∃ later, later inner = some (.compound innerName [variableAt outer]) ∧
      store.MemoReading table entered known address
        (.compound name [.compound innerName [variableAt outer]]) later := by
  have cycle : store.MemoReading table (insert inner (insert outer entered))
      known other (variableAt outer) known :=
    .cycle foundOther isOuter (by simp)
  have inside : store.MemoReading table (insert outer entered) known part
      (.compound innerName [variableAt outer])
      (Function.update known inner
        (some (.compound innerName [variableAt outer]))) :=
    .compound foundPart isInner (by simp [different, innerLeft]) innerNew
      (.cons cycle .nil)
  refine ⟨_, ?_, .compound found isOuter outerLeft outerNew
    (.cons inside .nil)⟩
  rw [Function.update_of_ne different, Function.update_self]

end Store

end LogicMachine
