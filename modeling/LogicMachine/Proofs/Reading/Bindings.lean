import LogicMachine.Proofs.Reading.Depiction

/-!
# Reading a depicted term and its bindings

A word from which no cycle is reachable has one plain reading, in every store that
still has its cells.  So a depicted term is read back with its variables replaced
by the readings of their bindings.  A binding from which a cycle is reachable may
be read differently as a part of the term, but it is read the same at every
occurrence.
-/

namespace LogicMachine

namespace Store

variable {table : FunctorTable} {origin store : Store}
  {oldCells cells : Set Address}

/-- The word refers to the node of a cell. -/
theorem At.of_resolves {address : Address} {word : Word} {node : Cell}
    (loaded : store.load address = .ok word)
    (resolves : store.Resolves word node) : store.At address node := by
  unfold Resolves at resolves
  cases decoded : word.cell with
  | reference target =>
      simp only [decoded] at resolves
      by_cases same : target = address
      · exact same ▸ resolves
      · obtain ⟨root, last, leads, present, isNode⟩ := resolves
        exact ⟨root, last, .there loaded decoded same leads, present, isNode⟩
  | _ =>
      simp only [decoded] at resolves
      rw [resolves, ← decoded]
      exact At.of_load loaded (by simp [decoded])

theorem Preserves.resolves_later (preserves : origin.Preserves store)
    (sound : origin.Sound table oldCells) {word : Word}
    (formed : word.cell.Sound table origin oldCells) {node : Cell}
    (resolves : origin.Resolves word node) : store.Resolves word node := by
  unfold Resolves at resolves ⊢
  cases decoded : word.cell with
  | reference target =>
      simp only [decoded, Cell.Sound] at resolves formed ⊢
      exact preserves.at_later sound formed resolves
  | _ => simpa only [decoded] using resolves

theorem exists_plainReadings {parts : List Address}
    (each : ∀ part ∈ parts, ∃ term, store.PlainReading table part term) :
    ∃ terms, store.PlainReadings table parts terms := by
  induction parts with
  | nil => exact ⟨[], .nil⟩
  | cons part rest ih =>
      obtain ⟨term, first⟩ := each part List.mem_cons_self
      obtain ⟨terms, others⟩ :=
        ih fun other member => each other (List.mem_cons_of_mem _ member)
      exact ⟨term :: terms, .cons first others⟩

/-- No cycle is reachable from the node of a word. -/
def WordUnfolds (table : FunctorTable) (store : Store) (word : Word) : Prop :=
  ∀ node, store.Resolves word node → store.Unfolds table node

/-- What a readable word resolves to. -/
theorem Readable.shown_word (readable : store.Readable table cells)
    {word : Word} (isReadable : word.Readable table store cells) {node : Cell}
    (resolves : store.Resolves word node) : store.Shown table cells node := by
  obtain ⟨sound, isTerm⟩ := isReadable
  unfold Resolves at resolves
  cases decoded : word.cell with
  | reference target =>
      simp only [decoded] at resolves
      simp only [decoded, Cell.Sound] at sound
      exact readable.shown sound resolves
  | _ =>
      simp only [decoded] at resolves
      rw [decoded, ← resolves] at sound isTerm
      exact readable.shown_of_sound sound isTerm

/-- A word from which no cycle is reachable has one plain reading wherever it is
held. -/
theorem Readable.exists_plain (readable : origin.Readable table oldCells)
    {word : Word} (isReadable : word.Readable table origin oldCells)
    (unfolds : origin.WordUnfolds table word) :
    ∃ term, ∀ store, origin.Preserves store → ∀ address,
      store.load address = .ok word →
        store.PlainReading table address term := by
  obtain ⟨node, resolves, formed⟩ :=
    readable.exists_resolves isReadable.sound
  have found {store : Store} (preserves : origin.Preserves store)
      {address : Address} (loaded : store.load address = .ok word) :
      store.At address node :=
    .of_resolves loaded (preserves.resolves_later readable.toSound
      isReadable.sound resolves)
  cases readable.shown_word isReadable resolves with
  | unbound target =>
      exact ⟨_, fun store preserves address loaded =>
        .unbound (found preserves loaded)⟩
  | atom known =>
      exact ⟨_, fun store preserves address loaded =>
        .atom (found preserves loaded) known⟩
  | @compound _ key name parts isCompound inside present =>
      have each : ∀ part ∈ parts, ∃ term,
          origin.PlainReading table part term := by
        intro part member
        obtain ⟨index, isPart⟩ := isCompound.part member
        obtain ⟨term, plain, -⟩ := readable.readBack_plain (inside part member)
          fun next partFound =>
            (unfolds node resolves).below (.part .start isPart partFound)
        exact ⟨term, plain⟩
      obtain ⟨terms, readings⟩ := exists_plainReadings each
      refine ⟨.compound name terms, fun store preserves address loaded => ?_⟩
      exact .compound (found preserves loaded)
        (preserves.compound_later formed isCompound)
        (preserves.plainReadings readable inside readings)

/-- A cell that holds a word from which no cycle is reachable is read back
plainly. -/
theorem Readable.readBack_word (readable : origin.Readable table oldCells)
    {word : Word} (isReadable : word.Readable table origin oldCells)
    (unfolds : origin.WordUnfolds table word)
    (preserves : origin.Preserves store) {address : Address}
    (inUse : address ∈ store.allocated)
    (loaded : store.load address = .ok word) {term : Term}
    (plain : store.PlainReading table address term) :
    readBack table store address = .ok term := by
  have later := preserves.word_readable isReadable
  have whole : store.Readable table (insert address oldCells) :=
    (preserves.readable readable).with_cell inUse loaded
      ⟨later.sound.mono (Set.subset_insert _ _), later.isTerm⟩
  obtain ⟨node, resolves, formed⟩ :=
    readable.exists_resolves isReadable.sound
  have found : store.At address node :=
    .of_resolves loaded (preserves.resolves_later readable.toSound
      isReadable.sound resolves)
  obtain ⟨read, -, reads, -, unique⟩ :=
    whole.readBack_plain (Set.mem_insert _ _) fun other isThere => by
      cases found.unique isThere
      exact preserves.unfolds readable.toSound formed (unfolds node resolves)
  rw [reads, unique term plain]

theorem exists_agrees (bound : String → Option Word)
    (known : Address → Option Term) :
    ∃ value, store.Agrees table bound known value := by
  classical
  have chosen : ∀ name, ∃ chosen, ∀ word node reading,
      bound name = some word → store.Resolves word node →
        store.Settled table known node reading → reading = chosen := by
    intro name
    by_cases some : ∃ word node reading, bound name = some word ∧
        store.Resolves word node ∧ store.Settled table known node reading
    · obtain ⟨word, node, reading, isBound, resolves, settled⟩ := some
      refine ⟨reading, fun word' node' other isBound' resolves' settled' => ?_⟩
      cases isBound.symm.trans isBound'
      cases resolves.unique resolves'
      exact settled.unique settled'
    · refine ⟨default, fun word node reading isBound resolves settled => ?_⟩
      exact absurd ⟨word, node, reading, isBound, resolves, settled⟩ some
  choose value agrees using chosen
  exact ⟨value, agrees⟩

/-- The term that stands for a name is the reading of the word that it is bound
to, unless a cycle is reachable from that. -/
structure Renders (table : FunctorTable) (origin : Store)
    (oldCells : Set Address) (store : Store) (word : Word) (term : Term) :
    Prop where
  fresh : ∀ cell, word = .reference cell →
    store.load cell = .ok (.reference cell) → term = variableAt cell
  named : word.Readable table origin oldCells →
    term.NamedAfter origin.allocated
  plain : word.Readable table origin oldCells →
    origin.WordUnfolds table word → ∀ later, origin.Preserves later →
      ∀ address ∈ later.allocated, later.load address = .ok word →
        readBack table later address = .ok term

/-- What is settled about the node of a bound word renders the word. -/
theorem Settled.renders (preserves : origin.Preserves store)
    (readable : origin.Readable table oldCells)
    {known : Address → Option Term}
    (names : NamesKnown origin.allocated known)
    (remembers : store.Remembers table cells known) {word : Word}
    {address : Address} {node : Cell} {term : Term} (inside : address ∈ cells)
    (loaded : store.load address = .ok word) (found : store.At address node)
    (settled : store.Settled table known node term) :
    Renders table origin oldCells store word term where
  fresh := by
    rintro cell rfl unbound
    cases found.unique (At.of_reference loaded unbound)
    cases settled with
    | unbound => rfl
    | compound isCompound => cases isCompound
  named := by
    intro isReadable
    have formed := (found.resolves loaded).old preserves readable
      isReadable.sound
    cases settled with
    | unbound target =>
        intro other member
        cases List.mem_singleton.mp member
        exact ⟨target, readable.inside formed, rfl⟩
    | atom =>
        intro other member
        cases member
    | compound isCompound finished =>
        exact names _ (isCompound.old preserves readable formed).1 _ finished
  plain := by
    intro isReadable unfolds later preservesToo other inUse loadedToo
    obtain ⟨start, resolves, formed⟩ :=
      readable.exists_resolves isReadable.sound
    have same := (preserves.resolves_later readable.toSound isReadable.sound
      resolves).unique (found.resolves loaded)
    subst same
    have isPlain : store.PlainReading table address term := by
      cases settled with
      | unbound => exact .unbound found
      | atom named => exact .atom found named
      | compound isCompound finished =>
          exact remembers _ _ finished address inside _ _ _ found isCompound
            (preserves.unfolds readable.toSound formed (unfolds start resolves))
    obtain ⟨plain, reads⟩ := readable.exists_plain isReadable unfolds
    rw [isPlain.unique (reads store preserves address loaded)] at reads
    exact readable.readBack_word isReadable unfolds preservesToo inUse loadedToo
      (reads later preservesToo other loadedToo)

/-- A cell that depicts a term is read back as the term with its variables
filled in. -/
theorem Depicts.readBack (preserves : origin.Preserves store)
    (readable : origin.Readable table oldCells)
    (whole : store.Readable table cells) {bound : String → Option Word}
    (binds : BindsTo table origin oldCells store bound) {term : Term}
    {word : Word} {keys fresh : List Address}
    (depicts : store.Depicts table bound term word keys fresh)
    (new : ∀ key ∈ keys, key ∉ origin.allocated) (distinct : keys.Nodup)
    {address : Address} (inside : address ∈ cells)
    (loaded : store.load address = .ok word) :
    ∃ value result, readBack table store address = .ok result ∧
      term.Filled value (fresh.map Address.variableName) result ∧
      ∀ name ∈ term.vars, name ≠ Term.anonymous → ∃ word,
        bound name = some word ∧
          Renders table origin oldCells store word (value name) := by
  obtain ⟨result, later, reading⟩ := whole.exists_memoReading inside
  obtain ⟨value, agrees⟩ := @exists_agrees table store bound later
  have awaits : Awaits origin keys ∅ fun _ => none :=
    ⟨new, fun _ _ => rfl, distinct, nofun, nofun⟩
  obtain ⟨filled, attains⟩ := depicts.read preserves readable whole binds
    reading inside loaded awaits agrees
  obtain ⟨remembers, -⟩ := reading.plain whole inside
    (fun _ _ _ => False.elim) .nothing
  refine ⟨value, result,
    reading.readBack_eq whole inside, filled, ?_⟩
  intro name mentioned isNamed
  obtain ⟨word, held, node, isBound, within, holds, found, settled⟩ :=
    attains.settled name mentioned isNamed
  exact ⟨word, isBound, settled.renders preserves readable attains.names
    remembers within holds found⟩

end Store

end LogicMachine
