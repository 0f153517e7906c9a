import LogicMachine.Proofs.Reading.Filling

/-!
# Reading what cells depict

Cells depict a term if they are laid out as the term is: compounds start at cells
of their own, a named variable is the word it is bound to, and an anonymous
variable is an unbound cell.  Reading such cells gives the term back with its
variables filled in.  What a name is filled with is what is settled about the node
of its word in the end, so it is the same at every occurrence.
-/

namespace LogicMachine

namespace Store

mutual

/-- A word depicts a term whose named variables are bound to words.  The lists
hold the cells where the compounds start and those of the anonymous
variables. -/
inductive Depicts (table : FunctorTable) (store : Store)
    (bound : String → Option Word) :
    Term → Word → List Address → List Address → Prop where
  | atom {name : String} {id : FunctorId}
      (known : table.functor id = .ok (.constant name)) :
      Depicts table store bound (.atom name) (.constant id) [] []
  | constant {functor : String} {id : FunctorId}
      (known : table.functor id = .ok (.constant functor)) :
      Depicts table store bound (.compound functor []) (.constant id) [] []
  | named {name : String} {word : Word} (isNamed : name ≠ Term.anonymous)
      (isBound : bound name = some word) :
      Depicts table store bound (.var name) word [] []
  | anonymous {cell : Address}
      (unbound : store.Holds cell (.reference cell)) :
      Depicts table store bound (.var Term.anonymous) (.reference cell) [] [cell]
  | compound {functor : String} {args : List Term} {word : Word}
      {key : Address} {parts keys cells : List Address} {words : List Word}
      (nonempty : args ≠ [])
      (isCompound : store.Compound table word.cell key functor parts)
      (inUse : key ∈ store.allocated)
      (loads : List.Forall₂ store.Holds parts words)
      (depicts : DepictsAll table store bound args words keys cells) :
      Depicts table store bound (.compound functor args) word (keys ++ [key])
        cells

/-- Words depict the terms of a list. -/
inductive DepictsAll (table : FunctorTable) (store : Store)
    (bound : String → Option Word) :
    List Term → List Word → List Address → List Address → Prop where
  | nil : DepictsAll table store bound [] [] [] []
  | cons {term : Term} {terms : List Term} {word : Word} {words : List Word}
      {keys moreKeys cells moreCells : List Address}
      (first : Depicts table store bound term word keys cells)
      (rest : DepictsAll table store bound terms words moreKeys moreCells) :
      DepictsAll table store bound (term :: terms) (word :: words)
        (keys ++ moreKeys) (cells ++ moreCells)

end

section Later

variable {table : FunctorTable} {store later : Store}
  {bound wider : String → Option Word}

mutual

/-- A later store with more names depicts the same. -/
theorem Depicts.later (preserves : store.Preserves later)
    (keeps : ∀ name word, bound name = some word → wider name = some word)
    {term : Term} {word : Word} {keys cells : List Address}
    (depicts : store.Depicts table bound term word keys cells) :
    later.Depicts table wider term word keys cells := by
  cases depicts with
  | atom known => exact .atom known
  | constant known => exact .constant known
  | named isNamed isBound => exact .named isNamed (keeps _ _ isBound)
  | anonymous unbound => exact .anonymous (preserves.holds unbound)
  | @compound functor _ word key parts _ _ _ nonempty isCompound inUse loads
      depicts =>
      have still : later.Compound table word.cell key functor parts := by
        generalize word.cell = node at isCompound
        cases isCompound with
        | headed known =>
            exact .headed ((preserves.functorAt inUse).trans known)
        | pair => exact .pair _
      exact .compound nonempty still (preserves.allocated inUse)
        (loads.imp fun _ _ holds => preserves.holds holds)
        (DepictsAll.later preserves keeps depicts)

theorem DepictsAll.later (preserves : store.Preserves later)
    (keeps : ∀ name word, bound name = some word → wider name = some word)
    {terms : List Term} {words : List Word} {keys cells : List Address}
    (depicts : store.DepictsAll table bound terms words keys cells) :
    later.DepictsAll table wider terms words keys cells := by
  cases depicts with
  | nil => exact .nil
  | cons first rest =>
      exact .cons (Depicts.later preserves keeps first)
        (DepictsAll.later preserves keeps rest)

end

end Later

/-- What is settled about a node when some compounds are known. -/
inductive Settled (table : FunctorTable) (store : Store)
    (known : Address → Option Term) : Cell → Term → Prop where
  | unbound (target : Address) :
      Settled table store known (.reference target) (variableAt target)
  | atom {id : FunctorId} {functor : Functor}
      (named : table.functor id = .ok functor) :
      Settled table store known (.constant id) (.atom functor.name)
  | compound {node : Cell} {key : Address} {name : String}
      {parts : List Address} {term : Term}
      (isCompound : store.Compound table node key name parts)
      (finished : known key = some term) : Settled table store known node term

section Settling

variable {table : FunctorTable} {store : Store}
  {known later : Address → Option Term} {node : Cell} {term : Term}

theorem Settled.unique {other : Term} (settled : store.Settled table known node term)
    (again : store.Settled table known node other) : other = term := by
  cases settled with
  | unbound =>
      cases again with
      | unbound => rfl
      | compound isCompound => cases isCompound
  | atom named =>
      cases again with
      | atom named' =>
          cases named.symm.trans named'
          rfl
      | compound isCompound => cases isCompound
  | compound isCompound finished =>
      cases again with
      | unbound | atom => cases isCompound
      | compound isCompound' finished' =>
          obtain ⟨rfl, -, -⟩ := isCompound.unique isCompound'
          exact Option.some.inj (finished'.symm.trans finished)

theorem Settled.mono (settled : store.Settled table known node term)
    (keeps : ∀ key term, known key = some term → later key = some term) :
    store.Settled table later node term := by
  cases settled with
  | unbound target => exact .unbound target
  | atom named => exact .atom named
  | compound isCompound finished => exact .compound isCompound (keeps _ _ finished)

theorem MemoReading.exists_at {entered : Set Address} {address : Address}
    (reading : store.MemoReading table entered known address term later) :
    ∃ node, store.At address node := by
  cases reading with
  | unbound found | atom found | cycle found | recalled found
  | compound found => exact ⟨_, found⟩

mutual

/-- Nothing becomes known of a compound while its arguments are being read. -/
theorem MemoReading.entered_same {entered : Set Address}
    {known later : Address → Option Term} {address key : Address} {term : Term}
    (reading : store.MemoReading table entered known address term later)
    (inside : key ∈ entered) : later key = known key := by
  cases reading with
  | unbound | atom | cycle | recalled => rfl
  | @compound _ _ between _ start _ _ _ _ found isCompound left new args =>
      have different : key ≠ start := by
        rintro rfl
        exact left inside
      rw [Function.update_of_ne different]
      exact MemoReadings.entered_same args (Set.mem_insert_of_mem _ inside)

theorem MemoReadings.entered_same {entered : Set Address}
    {known later : Address → Option Term} {addresses : List Address}
    {key : Address} {terms : List Term}
    (readings : store.MemoReadings table entered known addresses terms later)
    (inside : key ∈ entered) : later key = known key := by
  cases readings with
  | nil => rfl
  | cons first rest =>
      rw [MemoReadings.entered_same rest inside,
        MemoReading.entered_same first inside]

end

/-- Reading a node settles it, unless that is being read already. -/
theorem MemoReading.settled {entered : Set Address} {address : Address}
    (reading : store.MemoReading table entered known address term later)
    (found : store.At address node)
    (left : ∀ key name parts, store.Compound table node key name parts →
      key ∉ entered) : store.Settled table later node term := by
  cases reading with
  | unbound found' =>
      cases found'.unique found
      exact .unbound _
  | atom found' named =>
      cases found'.unique found
      exact .atom named
  | cycle found' isCompound again =>
      cases found'.unique found
      exact absurd again (left _ _ _ isCompound)
  | recalled found' isCompound _ finished =>
      cases found'.unique found
      exact .compound isCompound finished
  | compound found' isCompound =>
      cases found'.unique found
      exact .compound isCompound (Function.update_self ..)

end Settling

end Store

/-! ## Names of old cells -/

/-- All variables of a term are named after some cells. -/
def Term.NamedAfter (cells : Set Address) (term : Term) : Prop :=
  ∀ name ∈ term.vars, ∃ cell ∈ cells, name = cell.variableName

namespace Store

/-- What is known of the compounds that start at some cells is named after
these. -/
def NamesKnown (cells : Set Address) (known : Address → Option Term) : Prop :=
  ∀ key ∈ cells, ∀ term, known key = some term → term.NamedAfter cells

section Old

variable {table : FunctorTable} {origin store : Store} {cells : Set Address}

/-- An old compound starts at an old cell, and so do its parts. -/
theorem Compound.old (preserves : origin.Preserves store)
    (readable : origin.Readable table cells) {node : Cell}
    (formed : node.Sound table origin cells) {key : Address} {name : String}
    {parts : List Address}
    (isCompound : store.Compound table node key name parts) :
    key ∈ origin.allocated ∧ ∀ part ∈ parts, part ∈ cells := by
  have was := preserves.compound_earlier formed isCompound
  refine ⟨?_, fun part member => ?_⟩
  · cases was with
    | headed => exact formed.1
    | pair => exact readable.inside formed.1
  · obtain ⟨index, isPart⟩ := was.part member
    exact formed.part_mem isPart

/-- What an old word resolves to is an old node. -/
theorem Resolves.old (preserves : origin.Preserves store)
    (readable : origin.Readable table cells) {word : Word} {node : Cell}
    (formed : word.cell.Sound table origin cells)
    (resolves : store.Resolves word node) : node.Sound table origin cells := by
  unfold Resolves at resolves
  cases decoded : word.cell with
  | reference target =>
      simp only [decoded] at resolves
      simp only [decoded, Cell.Sound] at formed
      exact readable.sound_of_at formed
        (preserves.at_earlier readable.toSound formed resolves)
  | _ =>
      simp only [decoded] at resolves
      rw [decoded] at formed
      rwa [resolves]

mutual

/-- Reading old cells adds to what is known of old compounds only. -/
theorem MemoReading.old (preserves : origin.Preserves store)
    (readable : origin.Readable table cells) {entered : Set Address}
    {known later : Address → Option Term} {address : Address} {term : Term}
    (reading : store.MemoReading table entered known address term later)
    (formed : ∀ node, store.At address node → node.Sound table origin cells)
    (names : NamesKnown origin.allocated known) :
    (∀ key, key ∉ origin.allocated → later key = known key) ∧
      NamesKnown origin.allocated later ∧
      term.NamedAfter origin.allocated := by
  cases reading with
  | @unbound _ _ _ target found =>
      refine ⟨fun _ _ => rfl, names, fun name member => ?_⟩
      cases List.mem_singleton.mp member
      exact ⟨target, readable.inside (formed _ found), rfl⟩
  | atom => exact ⟨fun _ _ => rfl, names, nofun⟩
  | @cycle _ _ _ key _ _ _ found isCompound again =>
      refine ⟨fun _ _ => rfl, names, fun name member => ?_⟩
      cases List.mem_singleton.mp member
      exact ⟨key, (isCompound.old preserves readable (formed _ found)).1, rfl⟩
  | recalled found isCompound left finished =>
      exact ⟨fun _ _ => rfl, names, names _
        (isCompound.old preserves readable (formed _ found)).1 _ finished⟩
  | @compound _ _ between _ key _ name parts terms found isCompound left new args =>
      obtain ⟨keyInUse, partsOld⟩ :=
        isCompound.old preserves readable (formed _ found)
      obtain ⟨same, namesBetween, eachNamed⟩ :=
        MemoReadings.old preserves readable args partsOld names
      have named : (Term.compound name terms).NamedAfter origin.allocated := by
        intro occurring member
        obtain ⟨term, inside, occurs⟩ := Term.mem_varsOf.mp member
        exact eachNamed term inside occurring occurs
      refine ⟨fun other outside => ?_, fun other inUse term isKnown => ?_, named⟩
      · have different : other ≠ key := fun equal =>
          outside (equal.symm ▸ keyInUse)
        rw [Function.update_of_ne different]
        exact same other outside
      · by_cases equal : other = key
        · subst equal
          rw [Function.update_self] at isKnown
          cases isKnown
          exact named
        · rw [Function.update_of_ne equal] at isKnown
          exact namesBetween other inUse term isKnown

theorem MemoReadings.old (preserves : origin.Preserves store)
    (readable : origin.Readable table cells) {entered : Set Address}
    {known later : Address → Option Term} {addresses : List Address}
    {terms : List Term}
    (readings : store.MemoReadings table entered known addresses terms later)
    (inside : ∀ address ∈ addresses, address ∈ cells)
    (names : NamesKnown origin.allocated known) :
    (∀ key, key ∉ origin.allocated → later key = known key) ∧
      NamesKnown origin.allocated later ∧
      ∀ term ∈ terms, term.NamedAfter origin.allocated := by
  cases readings with
  | nil => exact ⟨fun _ _ => rfl, names, nofun⟩
  | cons first rest =>
      obtain ⟨same, namesBetween, named⟩ :=
        MemoReading.old preserves readable first
          (fun node found => readable.sound_of_at (inside _ List.mem_cons_self)
            (preserves.at_earlier readable.toSound
              (inside _ List.mem_cons_self) found)) names
      obtain ⟨sameToo, namesLater, others⟩ :=
        MemoReadings.old preserves readable rest
          (fun other member => inside other (List.mem_cons_of_mem _ member))
          namesBetween
      refine ⟨fun key outside => (sameToo key outside).trans (same key outside),
        namesLater, fun term member => ?_⟩
      rcases List.mem_cons.mp member with rfl | more
      · exact named
      · exact others term more

end

end Old

/-! ## Reading depicted terms -/

section Depicted

variable {table : FunctorTable} {origin store : Store}
  {oldCells cells : Set Address}
  {bound : String → Option Word} {value : String → Term}

/-- Names are bound to old words or to new unbound variables. -/
def BindsTo (table : FunctorTable) (origin : Store) (oldCells : Set Address)
    (store : Store) (bound : String → Option Word) : Prop :=
  ∀ name word, bound name = some word →
    word.Readable table origin oldCells ∨
      ∃ cell, word = .reference cell ∧ store.load cell = .ok (.reference cell)

/-- Each name is filled with what is settled about its node. -/
def Agrees (table : FunctorTable) (store : Store)
    (bound : String → Option Word) (known : Address → Option Term)
    (value : String → Term) : Prop :=
  ∀ name word node reading, bound name = some word →
    store.Resolves word node → store.Settled table known node reading →
    reading = value name

/-- Reading has not come to the new compounds that start at some cells. -/
structure Awaits (origin : Store) (keys : List Address)
    (entered : Set Address) (known : Address → Option Term) : Prop where
  new : ∀ key ∈ keys, key ∉ origin.allocated
  unknown : ∀ key ∈ keys, known key = none
  distinct : keys.Nodup
  apart : ∀ key ∈ entered, key ∉ origin.allocated ∧ key ∉ keys
  names : NamesKnown origin.allocated known

/-- What reading has come to after new compounds that start at some cells. -/
structure Attains (table : FunctorTable) (origin store : Store)
    (cells : Set Address) (bound : String → Option Word) (value : String → Term)
    (keys : List Address) (known later : Address → Option Term)
    (mentioned : List String) : Prop where
  same : ∀ key, key ∉ origin.allocated → key ∉ keys → later key = known key
  names : NamesKnown origin.allocated later
  settled : ∀ name ∈ mentioned, name ≠ Term.anonymous →
    ∃ word address node, bound name = some word ∧ address ∈ cells ∧
      store.load address = .ok word ∧ store.At address node ∧
      store.Settled table later node (value name)

theorem Attains.unchanged {known : Address → Option Term}
    (names : NamesKnown origin.allocated known) :
    Attains table origin store cells bound value [] known known [] :=
  ⟨fun _ _ _ => rfl, names, nofun⟩

/-- An unbound cell is read as a variable that is named after it. -/
theorem MemoReading.of_unbound {entered : Set Address}
    {known later : Address → Option Term} {address cell : Address}
    {result : Term}
    (reading : store.MemoReading table entered known address result later)
    (found : store.At address (.reference cell)) :
    result = variableAt cell ∧ later = known := by
  cases reading with
  | unbound found' =>
      cases found'.unique found
      exact ⟨rfl, rfl⟩
  | atom found' => cases found'.unique found
  | cycle found' isCompound | recalled found' isCompound
  | compound found' isCompound =>
      cases found'.unique found
      cases isCompound

theorem MemoReading.of_constant {entered : Set Address}
    {known later : Address → Option Term} {address : Address} {id : FunctorId}
    {functor : Functor} {result : Term}
    (reading : store.MemoReading table entered known address result later)
    (found : store.At address (.constant id))
    (known' : table.functor id = .ok functor) :
    result = .atom functor.name ∧ later = known := by
  cases reading with
  | unbound found' => cases found'.unique found
  | atom found' named =>
      cases found'.unique found
      cases named.symm.trans known'
      exact ⟨rfl, rfl⟩
  | cycle found' isCompound | recalled found' isCompound
  | compound found' isCompound =>
      cases found'.unique found
      cases isCompound

/-- A cell that holds a reference to an unbound cell shows that cell. -/
theorem At.of_reference {address cell : Address}
    (loaded : store.load address = .ok (.reference cell))
    (unbound : store.load cell = .ok (.reference cell)) :
    store.At address (.reference cell) := by
  have isRoot : store.IsRoot cell :=
    ⟨_, unbound, fun next refers => by simpa using refers.symm⟩
  refine ⟨cell, _, ?_, unbound, Word.cell_reference cell⟩
  by_cases same : cell = address
  · exact same ▸ .here isRoot
  · exact .there loaded (Word.cell_reference cell) same (.here isRoot)

/-- The occurrence of a name that is bound. -/
theorem MemoReading.of_bound (preserves : origin.Preserves store)
    (readable : origin.Readable table oldCells)
    (binds : BindsTo table origin oldCells store bound)
    {entered : Set Address} {known later : Address → Option Term}
    {address : Address} {name : String} {word : Word} {result : Term}
    (reading : store.MemoReading table entered known address result later)
    (inside : address ∈ cells) (loaded : store.load address = .ok word)
    (isBound : bound name = some word)
    (apart : ∀ key ∈ entered, key ∉ origin.allocated)
    (names : NamesKnown origin.allocated known)
    (agrees : store.Agrees table bound later value) :
    result = value name ∧
      Attains table origin store cells bound value [] known later [name] := by
  have finish {node : Cell} (found : store.At address node)
      (left : ∀ key name parts, store.Compound table node key name parts →
        key ∉ entered)
      (same : ∀ key, key ∉ origin.allocated → later key = known key)
      (namesLater : NamesKnown origin.allocated later) :
      result = value name ∧
        Attains table origin store cells bound value [] known later [name] := by
    have settled := reading.settled found left
    have resolves := found.resolves loaded
    obtain rfl := agrees name word node result isBound resolves settled
    refine ⟨rfl, fun key outside _ => same key outside, namesLater, ?_⟩
    intro other member _
    cases List.mem_singleton.mp member
    exact ⟨word, address, node, isBound, inside, loaded, found, settled⟩
  rcases binds name word isBound with ⟨formed, -⟩ | ⟨cell, rfl, unbound⟩
  · have nodeFormed (node : Cell) (found : store.At address node) :
        node.Sound table origin oldCells :=
      (found.resolves loaded).old preserves readable formed
    obtain ⟨same, namesLater, -⟩ :=
      reading.old preserves readable nodeFormed names
    obtain ⟨node, found⟩ := reading.exists_at
    refine finish found (fun key other parts isCompound again => ?_) same
      namesLater
    exact apart key again
      (isCompound.old preserves readable (nodeFormed node found)).1
  · have found := At.of_reference loaded unbound
    obtain ⟨-, rfl⟩ := reading.of_unbound found
    exact finish found (fun _ _ _ isCompound => nomatch isCompound)
      (fun _ _ => rfl) names

theorem Awaits.append {keys more : List Address} {entered : Set Address}
    {known : Address → Option Term}
    (awaits : Awaits origin (keys ++ more) entered known) :
    Awaits origin keys entered known where
  new := fun key member => awaits.new key (List.mem_append_left _ member)
  unknown := fun key member =>
    awaits.unknown key (List.mem_append_left _ member)
  distinct := (List.nodup_append.mp awaits.distinct).1
  apart := fun key member =>
    ⟨(awaits.apart key member).1, fun inside =>
      (awaits.apart key member).2 (List.mem_append_left _ inside)⟩
  names := awaits.names

/-- After the first of two terms the second is awaited. -/
theorem Attains.awaits {keys more : List Address} {entered : Set Address}
    {known later : Address → Option Term} {mentioned : List String}
    (awaits : Awaits origin (keys ++ more) entered known)
    (attains : Attains table origin store cells bound value keys known later
      mentioned) : Awaits origin more entered later where
  new := fun key member => awaits.new key (List.mem_append_right _ member)
  unknown := by
    intro key member
    have inside := List.mem_append_right keys member
    have other : key ∉ keys := fun first =>
      (List.nodup_append.mp awaits.distinct).2.2 key first key member rfl
    rw [attains.same key (awaits.new key inside) other]
    exact awaits.unknown key inside
  distinct := (List.nodup_append.mp awaits.distinct).2.1
  apart := fun key member =>
    ⟨(awaits.apart key member).1, fun inside =>
      (awaits.apart key member).2 (List.mem_append_right _ inside)⟩
  names := attains.names

theorem Attains.append {keys more : List Address}
    {known between later : Address → Option Term}
    {mentioned others : List String}
    (first : Attains table origin store cells bound value keys known between mentioned)
    (second : Attains table origin store cells bound value more between later others)
    (keeps : ∀ key term, between key = some term → later key = some term) :
    Attains table origin store cells bound value (keys ++ more) known later
      (mentioned ++ others) where
  same := by
    intro key new outside
    rw [List.mem_append, not_or] at outside
    exact (second.same key new outside.2).trans (first.same key new outside.1)
  names := second.names
  settled := by
    intro name member isNamed
    rcases List.mem_append.mp member with inside | inside
    · obtain ⟨word, address, node, isBound, within, loaded, found, settled⟩ :=
        first.settled name inside isNamed
      exact ⟨word, address, node, isBound, within, loaded, found,
        settled.mono keeps⟩
    · exact second.settled name inside isNamed

theorem Agrees.earlier {known later : Address → Option Term}
    (agrees : store.Agrees table bound later value)
    (keeps : ∀ key term, known key = some term → later key = some term) :
    store.Agrees table bound known value :=
  fun name word node reading isBound resolves settled =>
    agrees name word node reading isBound resolves (settled.mono keeps)

/-- Arguments are read inside of their compound, which is not known yet. -/
theorem Awaits.enter {keys : List Address} {key : Address}
    {entered : Set Address} {known : Address → Option Term}
    (awaits : Awaits origin (keys ++ [key]) entered known) :
    Awaits origin keys (insert key entered) known where
  new := awaits.append.new
  unknown := awaits.append.unknown
  distinct := awaits.append.distinct
  apart := by
    intro other member
    rcases Set.mem_insert_iff.mp member with rfl | old
    · refine ⟨awaits.new other (by simp), fun inside => ?_⟩
      exact (List.nodup_append.mp awaits.distinct).2.2 other inside other
        (by simp) rfl
    · exact awaits.append.apart other old
  names := awaits.names

theorem Attains.leave {keys : List Address} {key : Address}
    {known later : Address → Option Term} {mentioned : List String}
    {result : Term} (new : key ∉ origin.allocated)
    (keeps : ∀ other term, later other = some term →
      Function.update later key (some result) other = some term)
    (attains : Attains table origin store cells bound value keys known later
      mentioned) :
    Attains table origin store cells bound value (keys ++ [key]) known
      (Function.update later key (some result)) mentioned where
  same := by
    intro other isNew outside
    rw [List.mem_append, List.mem_singleton, not_or] at outside
    rw [Function.update_of_ne outside.2]
    exact attains.same other isNew outside.1
  names := by
    intro other inUse term isKnown
    have different : other ≠ key := by
      rintro rfl
      exact new inUse
    rw [Function.update_of_ne different] at isKnown
    exact attains.names other inUse term isKnown
  settled := by
    intro name member isNamed
    obtain ⟨word, address, node, isBound, inside, loaded, found, settled⟩ :=
      attains.settled name member isNamed
    exact ⟨word, address, node, isBound, inside, loaded, found,
      settled.mono keeps⟩

mutual

/-- Reading the cells of a depicted term gives the term back, filled in. -/
theorem Depicts.read (preserves : origin.Preserves store)
    (readable : origin.Readable table oldCells)
    (whole : store.Readable table cells)
    (binds : BindsTo table origin oldCells store bound) {term : Term}
    {word : Word} {keys fresh : List Address}
    (depicts : store.Depicts table bound term word keys fresh)
    {entered : Set Address} {known later : Address → Option Term}
    {address : Address} {result : Term}
    (reading : store.MemoReading table entered known address result later)
    (inside : address ∈ cells) (loaded : store.load address = .ok word)
    (awaits : Awaits origin keys entered known)
    (agrees : store.Agrees table bound later value) :
    term.Filled value (fresh.map Address.variableName) result ∧
      Attains table origin store cells bound value keys known later term.vars := by
  cases depicts with
  | @atom _ id named =>
      have found : store.At address (.constant id) := by
        simpa using At.of_load loaded (by simp)
      obtain ⟨rfl, rfl⟩ := reading.of_constant found named
      exact ⟨.atom _, .unchanged awaits.names⟩
  | @constant _ id named =>
      have found : store.At address (.constant id) := by
        simpa using At.of_load loaded (by simp)
      obtain ⟨rfl, rfl⟩ := reading.of_constant found named
      exact ⟨.constant _, .unchanged awaits.names⟩
  | named isNamed isBound =>
      obtain ⟨rfl, attains⟩ := reading.of_bound preserves readable binds inside
        loaded isBound (fun key member => (awaits.apart key member).1) awaits.names
        agrees
      exact ⟨.named isNamed, attains⟩
  | anonymous unbound =>
      obtain ⟨rfl, rfl⟩ := reading.of_unbound (At.of_reference loaded unbound.2)
      refine ⟨.anonymous _, fun _ _ _ => rfl, awaits.names, ?_⟩
      intro name member isNamed
      exact absurd (List.mem_singleton.mp member) isNamed
  | @compound functor args _ key parts keys _ words nonempty isCompound inUse
      loads depictsAll =>
      have found : store.At address word.cell := by
        refine At.of_load loaded fun next refers => ?_
        rw [refers] at isCompound
        cases isCompound
      have isKey : key ∈ keys ++ [key] := by simp
      cases reading with
      | unbound found' | atom found' =>
          rw [found.unique found'] at isCompound
          cases isCompound
      | cycle found' isCompound' again =>
          cases found'.unique found
          obtain ⟨rfl, -, -⟩ := isCompound'.unique isCompound
          exact absurd isKey (awaits.apart _ again).2
      | recalled found' isCompound' _ finished =>
          cases found'.unique found
          obtain ⟨rfl, -, -⟩ := isCompound'.unique isCompound
          cases (awaits.unknown _ isKey).symm.trans finished
      | @compound _ _ between _ _ _ _ _ results found' isCompound' left new
          readings =>
          cases found'.unique found
          obtain ⟨rfl, rfl, rfl⟩ := isCompound'.unique isCompound
          have unknown : between key = none :=
            (readings.entered_same (Set.mem_insert _ _)).trans new
          have keeps : ∀ other term, between other = some term →
              Function.update between key (some (.compound functor results))
                other = some term := by
            intro other term isKnown
            have different : other ≠ key := by
              rintro rfl
              cases unknown.symm.trans isKnown
            rwa [Function.update_of_ne different]
          obtain ⟨filled, attains⟩ := DepictsAll.read preserves readable whole
            binds depictsAll readings
            (whole.parts_mem inside found isCompound) loads awaits.enter
            (agrees.earlier keeps)
          exact ⟨.compound nonempty filled,
            attains.leave (awaits.new key isKey) keeps⟩

theorem DepictsAll.read (preserves : origin.Preserves store)
    (readable : origin.Readable table oldCells)
    (whole : store.Readable table cells)
    (binds : BindsTo table origin oldCells store bound) {terms : List Term}
    {words : List Word} {keys fresh : List Address}
    (depicts : store.DepictsAll table bound terms words keys fresh)
    {entered : Set Address} {known later : Address → Option Term}
    {addresses : List Address} {results : List Term}
    (readings : store.MemoReadings table entered known addresses results later)
    (inside : ∀ address ∈ addresses, address ∈ cells)
    (loads : List.Forall₂ store.Holds addresses words)
    (awaits : Awaits origin keys entered known)
    (agrees : store.Agrees table bound later value) :
    Term.FilledAll value terms (fresh.map Address.variableName) results ∧
      Attains table origin store cells bound value keys known later
        (Term.varsOf terms) := by
  cases depicts with
  | nil =>
      cases loads
      cases readings
      exact ⟨.nil, .unchanged awaits.names⟩
  | cons first rest =>
      cases loads with
      | cons loaded loads =>
          cases readings with
          | cons reading readings =>
              obtain ⟨filled, attains⟩ := Depicts.read preserves readable whole
                binds first reading (inside _ List.mem_cons_self) loaded.2
                awaits.append (agrees.earlier fun _ _ => readings.keeps)
              obtain ⟨others, attainsAll⟩ := DepictsAll.read preserves readable
                whole binds rest readings
                (fun other member => inside other (List.mem_cons_of_mem _ member))
                loads (attains.awaits awaits) agrees
              rw [List.map_append]
              exact ⟨.cons filled others,
                attains.append attainsAll fun _ _ => readings.keeps⟩

end

end Depicted

end Store

end LogicMachine
