import LogicMachine.Proofs.Code.Linking

/-!
# Adding to a linked program

Compiling advances a program: functors get numbers and predicates that are
called before they are defined get entries, but no code in use changes.  Adding
a clause makes it the last one of its predicate.
-/

namespace LogicMachine

namespace Program

theorem grows_journal (program : Program) (journal : Journal) :
    program.Grows { program with journal } :=
  ⟨⟨fun _ _ found => found, fun _ _ found => found,
    fun _ _ found => ⟨_, found, rfl⟩, fun _ _ found => found, Nat.le_refl _,
    rfl⟩, fun _ _ => rfl, Nat.le_refl _⟩

theorem Linked.withJournal {program : Program} {linkage : Linkage}
    (linked : program.Linked linkage) (journal : Journal) :
    Program.Linked { program with journal } linkage :=
  linked.of_grows (program.grows_journal journal) linked.top.2 (fun _ => rfl)
    linked.consistent

/-- The later program has all that the earlier one has, and is linked if the
earlier one is. -/
structure Advances (before after : Program) : Prop where
  grows : before.Grows after
  linked : ∀ linkage, before.Linked linkage →
    ∃ later, after.Linked later ∧ linkage.Extends later before.top

namespace Advances

theorem refl (program : Program) : program.Advances program :=
  ⟨.refl program, fun linkage linked =>
    ⟨linkage, linked, .refl linkage program.top⟩⟩

theorem trans {first second third : Program} (left : first.Advances second)
    (right : second.Advances third) : first.Advances third where
  grows := left.grows.trans right.grows
  linked := by
    intro linkage linked
    obtain ⟨middle, linkedMiddle, extended⟩ := left.linked linkage linked
    obtain ⟨last, linkedLast, extendedMore⟩ := right.linked middle linkedMiddle
    exact ⟨last, linkedLast, extended.trans extendedMore left.grows.top⟩

/-- Only what is reported differs. -/
theorem journal (program : Program) (journal : Journal) :
    program.Advances { program with journal } :=
  ⟨program.grows_journal journal, fun linkage linked =>
    ⟨linkage, linked.withJournal journal, .refl _ _⟩⟩

end Advances

/-! ## Writing code -/

theorem getElem?_writeWords (code : Array UInt32) (position : Nat)
    (words : List UInt32) (fits : position + words.length ≤ code.size)
    (index : Nat) :
    (writeWords code position words)[index]? =
      if position ≤ index ∧ index < position + words.length then
        words[index - position]?
      else code[index]? := by
  induction words generalizing code position with
  | nil =>
      rw [if_neg]
      · rfl
      · simp only [List.length_nil, Nat.add_zero]
        omega
  | cons word rest ih =>
      simp only [List.length_cons] at fits ⊢
      rw [writeWords, ih _ _ (by simp only [Array.size_setIfInBounds]; omega)]
      by_cases here : index = position
      · subst here
        rw [if_neg (by omega), if_pos (by omega)]
        simp only [Nat.sub_self, List.getElem?_cons_zero]
        rw [Array.getElem?_setIfInBounds_self_of_lt (by omega)]
      · rw [Array.getElem?_setIfInBounds_ne (by omega)]
        by_cases inside : position ≤ index ∧ index < position + (rest.length + 1)
        · rw [if_pos inside, if_pos (by omega)]
          rw [show index - position = index - (position + 1) + 1 by omega,
            List.getElem?_cons_succ]
        · rw [if_neg inside, if_neg (by omega)]

@[simp]
theorem size_writeWords (code : Array UInt32) (position : Nat)
    (words : List UInt32) :
    (writeWords code position words).size = code.size := by
  induction words generalizing code position with
  | nil => rfl
  | cons word rest ih => simp [writeWords, ih]

/-- The program with words written over its code. -/
def overwritten (program : Program) (position : Nat) (words : List UInt32) :
    Program :=
  { program with code := writeWords program.code position words }

/-- The program with words added at the top. -/
def extended (program : Program) (words : List UInt32) : Program :=
  { program with
    code := writeWords program.code program.top words
    top := program.top + words.length }

theorem overwritten_hasWords {program : Program} {position : Nat}
    {words : List UInt32} (fits : position + words.length ≤ program.code.size) :
    (program.overwritten position words).HasWords position words := by
  intro index word found
  have inside := (List.getElem?_eq_some_iff.mp found).1
  simp only [overwritten]
  rw [getElem?_writeWords _ _ _ fits, if_pos (by omega),
    Nat.add_sub_cancel_left, found]

theorem overwritten_code_of_outside {program : Program} {position : Nat}
    {words : List UInt32} (fits : position + words.length ≤ program.code.size)
    {index : Nat}
    (outside : index < position ∨ position + words.length ≤ index) :
    (program.overwritten position words).code[index]? =
      program.code[index]? := by
  simp only [overwritten]
  rw [getElem?_writeWords _ _ _ fits, if_neg (by omega)]

theorem extended_hasWords {program : Program} {words : List UInt32}
    (fits : program.top + words.length ≤ program.code.size) :
    (program.extended words).HasWords program.top words :=
  overwritten_hasWords fits

theorem extended_grows {program : Program} {words : List UInt32}
    (fits : program.top + words.length ≤ program.code.size) :
    program.Grows (program.extended words) where
  functors := fun _ _ found => found
  numbers := fun _ _ found => found
  entries := fun _ _ found => ⟨_, found, rfl⟩
  natives := fun _ _ found => found
  size := Nat.le_refl _
  capacity := by simp [extended]
  code := fun index below => overwritten_code_of_outside fits (.inl below)
  top := Nat.le_add_right _ _

/-- Added code belongs to no predicate. -/
theorem Linked.extended {program : Program} {linkage : Linkage}
    (linked : program.Linked linkage) {words : List UInt32}
    (fits : program.top + words.length ≤ program.code.size) :
    (program.extended words).Linked linkage := by
  refine linked.of_grows (extended_grows fits) ?_ (fun _ => rfl)
    linked.consistent
  simpa [Program.extended] using fits

theorem extended_advances {program : Program} {words : List UInt32}
    (fits : program.top + words.length ≤ program.code.size) :
    program.Advances (program.extended words) :=
  ⟨extended_grows fits, fun linkage linked =>
    ⟨linkage, linked.extended fits, .refl _ _⟩⟩

end Program

namespace ProgramM

theorem ends_write {position : Nat} {words : List UInt32} {program : Program}
    {regular : Unit → Program → Prop} {faulty : Fault → Program → Prop}
    (written : position + words.length ≤ program.code.size →
      regular () (program.overwritten position words))
    (full : program.code.size < position + words.length →
      faulty (.exhausted .code program.code.size) program) :
    Ends (write position words program) regular faulty := by
  simp only [write, ends_bind, ends_get]
  by_cases tooLong : program.code.size < position + words.length
  · rw [if_pos tooLong]
    exact full tooLong
  · rw [if_neg tooLong]
    exact written (by omega)

theorem ends_append {words : List UInt32} {program : Program}
    {regular : Nat → Program → Prop} {faulty : Fault → Program → Prop}
    (added : program.top + words.length ≤ program.code.size →
      regular program.top (program.extended words))
    (full : faulty (.exhausted .code program.code.size) program) :
    Ends (append words program) regular faulty := by
  simp only [append, ends_bind, ends_get]
  exact ends_write (fun fits => added fits) (fun _ => full)

theorem intern_advances (functor : Functor) (program : Program) :
    Ends (intern functor program)
      (fun id after => program.Advances after ∧
        ((program.functors.Small → program.functors.Consistent) →
          after.functors.Small → after.functors.get? id = some functor))
      (fun _ _ => False) := by
  have grows : program.Grows
      { program with functors := (program.functors.intern functor).2 } :=
    ⟨⟨fun _ _ found => FunctorTable.get?_intern_of_some found functor,
      fun _ _ found => FunctorTable.numbers_intern_of_some found functor,
      fun _ _ found => ⟨_, found, rfl⟩, fun _ _ found => found,
      FunctorTable.size_le_intern _ _, rfl⟩, fun _ _ => rfl, Nat.le_refl _⟩
  refine ⟨⟨grows, fun linkage linked => ⟨linkage, ?_, .refl _ _⟩⟩, ?_⟩
  · refine linked.of_grows grows linked.top.2 (fun _ => rfl) ?_
    intro small
    exact ((linked.consistent (grows.toKeeps.small small)).intern functor
      small).1
  · intro consistent small
    exact ((consistent (grows.toKeeps.small small)).intern functor small).2

end ProgramM

namespace Program

/-- The program with an entry for a predicate that has no clause yet. -/
def announced (program : Program) (words : List UInt32) (functor : Functor)
    (journal : Journal) : Program :=
  { program.extended words with
    journal := journal
    predicates := program.predicates.insert functor
      (.undefined program.top) }

theorem predicate?_announced (program : Program) (words : List UInt32)
    (functor : Functor) (journal : Journal) (other : Functor) :
    (program.announced words functor journal).predicate? other =
      if other = functor then some (.undefined program.top)
      else program.predicate? other := by
  simp only [predicate?, announced, Std.TreeMap.getElem?_insert]
  by_cases same : other = functor
  · simp [same]
  · rw [if_neg same, if_neg]
    simpa using Ne.symm same

theorem Linked.owner_of_top_le {program : Program} {linkage : Linkage}
    (linked : program.Linked linkage) {index : Nat}
    (high : program.top ≤ index) : linkage.owner index = none := by
  cases found : linkage.owner index with
  | none => rfl
  | some piece =>
      have := (linked.owned index piece found).2
      omega

theorem announced_grows {program : Program} {words : List UInt32}
    {functor : Functor} (journal : Journal)
    (unknown : program.predicate? functor = none)
    (fits : program.top + words.length ≤ program.code.size) :
    program.Grows (program.announced words functor journal) := by
  have base := extended_grows fits
  refine ⟨⟨base.functors, base.numbers, ?_, base.natives, base.size, base.capacity⟩,
    base.code, base.top⟩
  intro other predicate found
  refine ⟨predicate, ?_, rfl⟩
  rw [predicate?_announced, if_neg, found]
  rintro rfl
  rw [unknown] at found
  cases found

theorem announced_advances {program : Program} {words : List UInt32}
    (isUndefined : words = dispatchUndefined) {functor : Functor}
    (journal : Journal) (unknown : program.predicate? functor = none)
    (fits : program.top + words.length ≤ program.code.size) :
    program.Advances (program.announced words functor journal) := by
  have grows := announced_grows journal unknown fits
  refine ⟨grows, ?_⟩
  intro linkage linked
  let owner := Linkage.give linkage.owner program.top
    (program.top + dispatchSize) (.dispatch functor 0)
  let chain : Chain := ⟨[program.top], []⟩
  have size : words.length = dispatchSize := by
    rw [isUndefined]
    rfl
  have stands : (program.announced words functor journal).HasWords program.top
      words :=
    (extended_hasWords fits).congr fun _ _ => rfl
  have dispatches : (program.announced words functor journal).Dispatches
      chain.blocks chain.clauses := by
    show Program.HasWords _ program.top dispatchUndefined
    rw [← isUndefined]
    exact stands
  have matching : chain.Matches (.undefined program.top) := ⟨rfl, rfl⟩
  have owns : Linkage.Owns ⟨linkage.chains, owner⟩ functor chain := by
    refine ⟨?_, nofun⟩
    intro index block inside offset below
    cases index with
    | zero =>
        cases inside
        exact Linkage.give_inside (by omega) (by omega)
    | succ index => cases inside
  refine ⟨_, linked.update grows.toKeeps ⟨grows.top, ?_⟩
    (fun index below _ => grows.code index below)
    (predicate?_announced program words functor journal) rfl matching dispatches
    nofun ?_ owns ?_, ?_, ?_, ?_⟩
  · simpa [announced, extended, size] using fits
  · intro index piece found
    have below := (linked.owned index piece found).2
    exact (Linkage.give_outside (by omega)).trans found
  · intro index piece found
    have top := linked.top.1
    simp only [announced, extended, size]
    rcases Linkage.of_give found with inside | isOld
    · omega
    · have := linked.owned index piece isOld
      omega
  · intro other chain found
    dsimp only
    rw [if_neg, found]
    rintro rfl
    rw [linked.unknown other unknown] at found
    cases found
  · intro other chain found
    dsimp only at found
    split at found
    · cases found
      exact .inr rfl
    · exact .inl found
  · intro index below
    exact Linkage.give_outside (by omega)

end Program

namespace ProgramM

/-- The entry of a predicate is where its chain starts. -/
theorem entryOf_advances (functor : Functor) (program : Program) :
    Ends (entryOf functor program)
      (fun entry after => program.Advances after ∧
        ∃ predicate, after.predicate? functor = some predicate ∧
          predicate.entry = entry)
      (fun fault after => (∃ capacity, fault = .exhausted .code capacity) ∧
        after = program) := by
  simp only [entryOf, ends_bind, ends_get]
  cases known : program.predicate? functor with
  | some predicate => exact ⟨.refl program, predicate, known, rfl⟩
  | none =>
      generalize isUndefined : dispatchUndefined = words
      simp only [ends_bind]
      refine ends_append (fun fits => ?_) ⟨⟨_, rfl⟩, rfl⟩
      refine ⟨Program.announced_advances isUndefined.symm _ known fits,
        .undefined program.top, ?_, rfl⟩
      exact (Program.predicate?_announced program words functor _ functor).trans
        (if_pos rfl)

end ProgramM

/-! ## Adding a clause -/

namespace Program

/-- A chain with one more clause. -/
theorem Dispatches.snoc {program later : Program} {front : List Nat}
    {previous last : Nat} {clauses : List Clause} {clause : Clause}
    (dispatches : program.Dispatches (front ++ [previous]) clauses)
    (lengths : clauses.length = front.length + 1)
    (same : ∀ block ∈ front, ∀ index < dispatchSize,
      later.code[block + index]? = program.code[block + index]?)
    (next : later.HasWords previous (dispatchNext last))
    (ending : ∀ index, 2 ≤ index → index < dispatchSize →
      later.code[previous + index]? = program.code[previous + index]?)
    (added : later.HasWords last (dispatchLast clause.address)) :
    later.Dispatches (front ++ [previous] ++ [last]) (clauses ++ [clause]) := by
  induction front generalizing clauses with
  | nil =>
      match clauses, lengths with
      | [only], _ =>
          refine ⟨?_, added⟩
          intro index word found
          match index with
          | 0 => exact next 0 word found
          | 1 => exact next 1 word found
          | 2 =>
              rw [ending 2 (by decide) (by decide)]
              exact dispatches 2 word found
          | 3 =>
              rw [ending 3 (by decide) (by decide)]
              exact dispatches 3 word found
  | cons block rest ih =>
      match clauses, lengths with
      | first :: others, lengths =>
          have tail : ∃ following rest', rest ++ [previous] =
              following :: rest' := by
            cases rest with
            | nil => exact ⟨previous, [], rfl⟩
            | cons following rest => exact ⟨following, rest ++ [previous], rfl⟩
          obtain ⟨following, rest', shape⟩ := tail
          have unfolded : program.HasWords block
                (dispatchOther following first.address) ∧
              program.Dispatches (rest ++ [previous]) others := by
            rw [List.cons_append, shape] at dispatches
            rw [shape]
            exact dispatches
          have inner := ih unfolded.2 (by simpa using lengths)
            (fun other member => same other (List.mem_cons_of_mem _ member))
          rw [List.cons_append, List.cons_append, List.cons_append]
          rw [shape, List.cons_append] at inner ⊢
          exact ⟨unfolded.1.congr (same block List.mem_cons_self), inner⟩

/-- Words that belong to nothing, on the way to become those of a clause. -/
structure Unclaimed (program : Program) (linkage : Linkage)
    (clause : Clause) : Prop where
  stands : program.HasWords clause.address clause.words
  positive : 1 ≤ clause.address
  below : clause.address + clause.words.length ≤ program.top
  free : ∀ offset < clause.words.length,
    linkage.owner (clause.address + offset) = none

/-- The later linkage has one more clause at the end of a chain. -/
structure AddsClause (program : Program) (linkage : Linkage)
    (functor : Functor) (clause : Clause) (later : Linkage) : Prop where
  chain : ∃ chain, later.chains functor = some chain ∧
    chain.clauses =
      ((linkage.chains functor).elim [] Chain.clauses) ++ [clause]
  others : ∀ other, other ≠ functor →
    later.chains other = linkage.chains other
  owner : ∀ index piece, later.owner index = some piece →
    linkage.owner index = some piece ∨ program.top ≤ index ∨
      ∃ offset < clause.words.length, index = clause.address + offset

/-- The program with other code and another predicate. -/
def relinked (program : Program) (code : Array UInt32) (top : Nat)
    (journal : Journal) (functor : Functor) (predicate : Predicate) :
    Program :=
  { program with
    code := code
    top := top
    journal := journal
    predicates := program.predicates.insert functor predicate }

section Relinked

variable {program : Program} {linkage : Linkage} {functor : Functor}
  {predicate : Predicate} {code : Array UInt32} {top : Nat}
  {journal : Journal}

@[simp]
theorem relinked_code :
    (program.relinked code top journal functor predicate).code = code :=
  rfl

theorem predicate?_relinked (other : Functor) :
    (program.relinked code top journal functor predicate).predicate? other =
      if other = functor then some predicate
      else program.predicate? other := by
  simp only [predicate?, relinked, Std.TreeMap.getElem?_insert]
  by_cases same : other = functor
  · simp [same]
  · rw [if_neg same, if_neg]
    simpa using Ne.symm same

theorem relinked_keeps (size : code.size = program.code.size)
    (entry : ∀ known, program.predicate? functor = some known →
      predicate.entry = known.entry) :
    program.Keeps (program.relinked code top journal functor predicate) where
  functors := fun _ _ found => found
  numbers := fun _ _ found => found
  entries := by
    intro other known found
    rw [predicate?_relinked]
    split
    case isTrue same =>
      subst same
      exact ⟨predicate, rfl, entry known found⟩
    case isFalse => exact ⟨known, found, rfl⟩
  natives := fun _ _ found => found
  size := Nat.le_refl _
  capacity := size

/-- What words belong to once the clause is linked, with dispatch code from the old
top up to the new one. -/
def linking (program : Program) (linkage : Linkage) (functor : Functor)
    (clause : Clause) (fresh top : Nat) : Nat → Option Piece :=
  Linkage.give
    (Linkage.give linkage.owner program.top top (.dispatch functor fresh))
    clause.address (clause.address + clause.words.length)
    (.clause functor ((linkage.chains functor).elim [] Chain.clauses).length)

section Claim

variable {clause : Clause} {chain : Chain} {fresh : Nat}
  (linked : program.Linked linkage)
  (unclaimed : program.Unclaimed linkage clause)

include linked unclaimed

theorem linking_of_owner {index : Nat} {piece : Piece}
    (found : linkage.owner index = some piece) :
    program.linking linkage functor clause fresh top index = some piece := by
  have below := (linked.owned index piece found).2
  rw [linking, Linkage.give_outside, Linkage.give_outside (by omega), found]
  rintro ⟨low, high⟩
  have free := unclaimed.free (index - clause.address) (by omega)
  rw [show clause.address + (index - clause.address) = index by omega,
    found] at free
  cases free

theorem linking_owned (higher : program.top ≤ top) {index : Nat} {piece : Piece}
    (found : program.linking linkage functor clause fresh top index =
      some piece) : 1 ≤ index ∧ index < top := by
  have positive := unclaimed.positive
  have limit := unclaimed.below
  have start := linked.top.1
  rcases Linkage.of_give found with inside | outside
  · omega
  rcases Linkage.of_give outside with inside | isOld
  · omega
  have := linked.owned index piece isOld
  omega

/-- The words of a chain belong to it: those that did before, a new piece of
dispatch code, and the words of the new clause. -/
theorem linking_owns
    (clauses : chain.clauses =
      ((linkage.chains functor).elim [] Chain.clauses) ++ [clause])
    (blocks : ∀ (index : Nat) block, chain.blocks[index]? = some block →
      (∃ old, linkage.chains functor = some old ∧
        old.blocks[index]? = some block) ∨
      (block = program.top ∧ top = program.top + dispatchSize ∧
        index = fresh)) :
    Linkage.Owns
      ⟨linkage.chains, program.linking linkage functor clause fresh top⟩ functor
      chain where
  blocks := by
    intro index block inside offset below
    rcases blocks index block inside with
      ⟨before, found, there⟩ | ⟨rfl, rfl, rfl⟩
    · exact linking_of_owner linked unclaimed
        ((linked.owns functor before found).blocks index block there offset
          below)
    · have limit := unclaimed.below
      exact (Linkage.give_outside (by omega)).trans
        (Linkage.give_inside (by omega) (by omega))
  clauses := by
    intro index other inside offset below
    rw [clauses] at inside
    by_cases isOld :
      index < ((linkage.chains functor).elim [] Chain.clauses).length
    · rw [List.getElem?_append_left isOld] at inside
      cases found : linkage.chains functor with
      | none => simp [found] at isOld
      | some before =>
          rw [found] at inside
          exact linking_of_owner linked unclaimed
            ((linked.owns functor before found).clauses index other inside
              offset below)
    · rw [List.getElem?_append_right (Nat.not_lt.mp isOld)] at inside
      obtain ⟨first, isNew⟩ := List.getElem?_eq_some_iff.mp inside
      simp only [List.length_singleton, Nat.lt_one_iff] at first
      simp only [first, List.getElem_cons_zero] at isNew
      subst isNew
      have place : index =
          ((linkage.chains functor).elim [] Chain.clauses).length := by omega
      rw [place]
      exact Linkage.give_inside (by omega) (by omega)

/-- Clauses stay where they are, and the new one stands where it was put. -/
theorem relinked_clauses
    (source : program.Source functor clause.words)
    (clauses : chain.clauses =
      ((linkage.chains functor).elim [] Chain.clauses) ++ [clause])
    (keeps : program.Keeps
      (program.relinked code top journal functor predicate))
    (same : ∀ index < program.top,
      (∀ block, linkage.owner index ≠ some (.dispatch functor block)) →
        code[index]? = program.code[index]?) :
    ∀ other ∈ chain.clauses,
      (program.relinked code top journal functor predicate).HasWords
          other.address other.words ∧
        (program.relinked code top journal functor predicate).Source functor
          other.words := by
  intro other member
  rw [clauses] at member
  rcases List.mem_append.mp member with isOld | isNew
  · cases found : linkage.chains functor with
    | none => simp [found] at isOld
    | some before =>
        have inside : other ∈ before.clauses := by simpa [found] using isOld
        obtain ⟨there, isSource⟩ :=
          linked.clauses functor before found other inside
        obtain ⟨index, place⟩ := List.getElem?_of_mem inside
        refine ⟨there.congr fun offset below => ?_, isSource.mono keeps⟩
        have owns := (linked.owns functor before found).clauses index other
          place offset below
        refine same _ (linked.owned _ _ owns).2 fun block isDispatch => ?_
        rw [owns] at isDispatch
        cases isDispatch
  · cases List.mem_singleton.mp isNew
    refine ⟨unclaimed.stands.congr fun offset below => ?_,
      source.mono keeps⟩
    have limit := unclaimed.below
    refine same _ (by omega) fun block isDispatch => ?_
    rw [unclaimed.free offset below] at isDispatch
    cases isDispatch

/-- Adding a clause to a chain, with at most one new piece of dispatch code. -/
theorem Linked.claim
    (source : program.Source functor clause.words) (chain : Chain)
    (fresh : Nat)
    (clauses : chain.clauses =
      ((linkage.chains functor).elim [] Chain.clauses) ++ [clause])
    (entry : ∀ known, program.predicate? functor = some known →
      predicate.entry = known.entry)
    (size : code.size = program.code.size)
    (higher : program.top ≤ top) (fits : top ≤ program.code.size)
    (same : ∀ index < program.top,
      (∀ block, linkage.owner index ≠ some (.dispatch functor block)) →
        code[index]? = program.code[index]?)
    (matching : chain.Matches predicate)
    (dispatches : (program.relinked code top journal functor
      predicate).Dispatches chain.blocks chain.clauses)
    (blocks : ∀ (index : Nat) block, chain.blocks[index]? = some block →
      (∃ old, linkage.chains functor = some old ∧
        old.blocks[index]? = some block) ∨
      (block = program.top ∧ top = program.top + dispatchSize ∧
        index = fresh)) :
    ∃ later, (program.relinked code top journal functor
        predicate).Linked later ∧
      program.AddsClause linkage functor clause later := by
  have keeps := @relinked_keeps program functor predicate code top journal size
    entry
  refine ⟨_, linked.update keeps ⟨higher, size ▸ fits⟩ same
    predicate?_relinked rfl matching dispatches
    (relinked_clauses linked unclaimed source clauses keeps same)
    (fun _ _ => linking_of_owner linked unclaimed)
    (linking_owns linked unclaimed clauses blocks)
    (fun _ _ => linking_owned linked unclaimed higher),
    ⟨chain, by simp, clauses⟩, ?_, ?_⟩
  · intro other different
    simp [different]
  · intro index piece found
    rcases Linkage.of_give found with inside | outside
    · exact .inr (.inr ⟨index - clause.address, by omega, by omega⟩)
    · exact (Linkage.of_give outside).symm.imp_right (.inl ·.1)

end Claim

end Relinked

end Program

namespace ProgramM

/-- What adding a clause to a linked program leads to. -/
def ClauseAdded (program : Program) (linkage : Linkage) (functor : Functor)
    (clause : Clause) (after : Program) : Prop :=
  program.Keeps after ∧ program.top ≤ after.top ∧
    ∃ later, after.Linked later ∧
      program.AddsClause linkage functor clause later

section AddClause

variable {program : Program} {linkage : Linkage} {functor : Functor}
  {clause : Clause}

/-- The code with a new piece of dispatch code at the top and the piece before
it made to go on there. -/
def chainedCode (program : Program) (previous : Nat)
    (next last : List UInt32) : Array UInt32 :=
  Program.writeWords (Program.writeWords program.code program.top last)
    previous next

section ChainedCode

variable {previous : Nat} {next last : List UInt32}

@[simp]
theorem size_chainedCode :
    (chainedCode program previous next last).size = program.code.size := by
  simp [chainedCode]

theorem getElem?_chainedCode (nextSize : next.length = 2)
    (lastSize : last.length = dispatchSize)
    (inside : previous + dispatchSize ≤ program.top)
    (fits : program.top + last.length ≤ program.code.size) (index : Nat) :
    (chainedCode program previous next last)[index]? =
      if previous ≤ index ∧ index < previous + 2 then
        next[index - previous]?
      else if program.top ≤ index ∧ index < program.top + dispatchSize then
        last[index - program.top]?
      else program.code[index]? := by
  have wide : previous + next.length ≤
      (Program.writeWords program.code program.top last).size := by
    rw [Program.size_writeWords, nextSize]
    simp only [dispatchSize] at inside
    omega
  unfold chainedCode
  rw [Program.getElem?_writeWords _ _ _ wide,
    Program.getElem?_writeWords _ _ _ fits, nextSize, lastSize]

theorem chainedCode_of_outside (nextSize : next.length = 2)
    (lastSize : last.length = dispatchSize)
    (inside : previous + dispatchSize ≤ program.top)
    (fits : program.top + last.length ≤ program.code.size) {index : Nat}
    (below : index < program.top)
    (apart : index < previous ∨ previous + 2 ≤ index) :
    (chainedCode program previous next last)[index]? =
      program.code[index]? := by
  rw [getElem?_chainedCode nextSize lastSize inside fits, if_neg (by omega),
    if_neg (by omega)]

end ChainedCode

/-- No word belongs to two pieces of a chain. -/
theorem block_apart {front : List Nat} {previous : Nat}
    {clauses : List Clause}
    (owns : linkage.Owns functor ⟨front ++ [previous], clauses⟩)
    {block index : Nat} (member : block ∈ front)
    (below : index < dispatchSize) :
    block + index < previous ∨ previous + dispatchSize ≤ block + index := by
  apply Classical.byContradiction
  intro overlaps
  obtain ⟨place, there⟩ := List.getElem?_of_mem member
  have placeBelow := (List.getElem?_eq_some_iff.mp there).1
  have one := owns.blocks place block
    (by rw [List.getElem?_append_left placeBelow]; exact there) index below
  have two := owns.blocks front.length previous (by simp)
    (block + index - previous) (by omega)
  rw [show previous + (block + index - previous) = block + index by omega,
    one] at two
  simp only [Option.some.injEq, Piece.dispatch.injEq, true_and] at two
  omega

/-- A new piece of dispatch code after the last one of a chain. -/
structure Chained (program : Program) (linkage : Linkage) (functor : Functor)
    (clause : Clause) (front : List Nat) (previous : Nat)
    (clauses : List Clause) (next last : List UInt32) : Prop where
  found : linkage.chains functor = some ⟨front ++ [previous], clauses⟩
  lengths : clauses.length = front.length + 1
  isNext : next = dispatchNext program.top
  isLast : last = dispatchLast clause.address
  fits : program.top + last.length ≤ program.code.size

namespace Chained

variable {front : List Nat} {previous : Nat} {clauses : List Clause}
  {next last : List UInt32}

theorem nextSize (chained : Chained program linkage functor clause front
    previous clauses next last) : next.length = 2 := by
  rw [chained.isNext]
  rfl

theorem lastSize (chained : Chained program linkage functor clause front
    previous clauses next last) : last.length = dispatchSize := by
  rw [chained.isLast]
  rfl

theorem inside (chained : Chained program linkage functor clause front
    previous clauses next last) (linked : program.Linked linkage) :
    previous + dispatchSize ≤ program.top :=
  (linked.block_lt chained.found
    (show previous ∈ front ++ [previous] by simp)).2

theorem dispatches (chained : Chained program linkage functor clause front
    previous clauses next last) (linked : program.Linked linkage)
    (journal : Journal) (predicate : Predicate) :
    (program.relinked (chainedCode program previous next last)
        (program.top + last.length) journal functor predicate).Dispatches
      (front ++ [previous] ++ [program.top]) (clauses ++ [clause]) := by
  have inside := chained.inside linked
  have outside {index : Nat} :=
    @chainedCode_of_outside program previous next last chained.nextSize
      chained.lastSize inside chained.fits index
  have word := getElem?_chainedCode chained.nextSize chained.lastSize inside
    chained.fits
  have size := chained.lastSize
  simp only [dispatchSize] at inside size
  refine (linked.dispatches functor _ chained.found).snoc chained.lengths
    ?_ ?_ ?_ ?_
  · intro block member index below
    have within := linked.block_lt chained.found
      (List.mem_append_left _ member)
    have apart := block_apart (linked.owns functor _ chained.found) member below
    rw [Program.relinked_code]
    refine outside (by omega) ?_
    simp only [dispatchSize] at apart
    omega
  · rw [← chained.isNext]
    intro index found there
    have below := (List.getElem?_eq_some_iff.mp there).1
    rw [chained.nextSize] at below
    rw [Program.relinked_code, word, if_pos (by omega),
      Nat.add_sub_cancel_left, there]
  · intro index low high
    simp only [dispatchSize] at high
    rw [Program.relinked_code]
    exact outside (by omega) (by omega)
  · rw [← chained.isLast]
    intro index found there
    have below := (List.getElem?_eq_some_iff.mp there).1
    rw [Program.relinked_code, word, if_neg (by omega),
      if_pos (by simp only [dispatchSize]; omega), Nat.add_sub_cancel_left,
      there]

theorem added (chained : Chained program linkage functor clause front
    previous clauses next last) (linked : program.Linked linkage)
    (unclaimed : program.Unclaimed linkage clause)
    (source : program.Source functor clause.words)
    {known predicate : Predicate}
    (present : program.predicate? functor = some known)
    (matching : Chain.Matches
      ⟨front ++ [previous] ++ [program.top], clauses ++ [clause]⟩ predicate)
    (entry : predicate.entry = known.entry) (journal : Journal) :
    ClauseAdded program linkage functor clause
      (program.relinked (chainedCode program previous next last)
        (program.top + last.length) journal functor predicate) := by
  have inside := chained.inside linked
  have entries : ∀ other, program.predicate? functor = some other →
      predicate.entry = other.entry := by
    intro other there
    rw [present] at there
    cases there
    exact entry
  refine ⟨Program.relinked_keeps size_chainedCode entries,
    Nat.le_add_right _ _, ?_⟩
  refine linked.claim unclaimed source
    ⟨front ++ [previous] ++ [program.top], clauses ++ [clause]⟩
    (front.length + 1) (by simp [chained.found]) entries size_chainedCode
    (Nat.le_add_right _ _) chained.fits ?_ matching
    (chained.dispatches linked journal predicate) ?_
  · intro index below free
    apply chainedCode_of_outside chained.nextSize chained.lastSize inside
      chained.fits below
    apply Classical.byContradiction
    intro overlaps
    have belongs := (linked.owns functor _ chained.found).blocks front.length
      previous (by simp) (index - previous)
      (by simp only [dispatchSize]; omega)
    rw [show previous + (index - previous) = index by omega] at belongs
    exact free _ belongs
  · intro index block there
    by_cases old : index < (front ++ [previous]).length
    · rw [List.getElem?_append_left old] at there
      exact .inl ⟨_, chained.found, there⟩
    · rw [List.getElem?_append_right (by omega)] at there
      have first : index - (front ++ [previous]).length = 0 := by
        have := (List.getElem?_eq_some_iff.mp there).1
        simp only [List.length_singleton] at this
        omega
      rw [first] at there
      cases there
      simp only [List.length_append, List.length_singleton] at first old
      exact .inr ⟨rfl, by rw [chained.lastSize], by omega⟩

end Chained

/-- The first clause of a predicate that nobody has called. -/
theorem first_added (linked : program.Linked linkage)
    (unclaimed : program.Unclaimed linkage clause)
    (source : program.Source functor clause.words)
    (unknown : program.predicate? functor = none) {last : List UInt32}
    (isLast : last = dispatchLast clause.address)
    (fits : program.top + last.length ≤ program.code.size)
    (journal : Journal) :
    ClauseAdded program linkage functor clause
      (program.relinked (Program.writeWords program.code program.top last)
        (program.top + last.length) journal functor (.single program.top)) := by
  have size : last.length = dispatchSize := by
    rw [isLast]
    rfl
  have entries : ∀ other, program.predicate? functor = some other →
      (Predicate.single program.top).entry = other.entry := by
    intro other there
    rw [unknown] at there
    cases there
  have none := linked.unknown functor unknown
  refine ⟨Program.relinked_keeps (by simp) entries, Nat.le_add_right _ _, ?_⟩
  refine linked.claim unclaimed source ⟨[program.top], [clause]⟩ 0
    (by simp [none]) entries (by simp) (Nat.le_add_right _ _) fits ?_
    ⟨rfl, clause, rfl⟩ ?_ ?_
  · intro index below _
    rw [Program.getElem?_writeWords _ _ _ fits, if_neg (by omega)]
  · show Program.HasWords _ program.top (dispatchLast clause.address)
    rw [← isLast]
    exact (Program.extended_hasWords fits).congr fun _ _ => rfl
  · intro index block there
    cases index with
    | zero =>
        cases there
        exact .inr ⟨rfl, by rw [size], rfl⟩
    | succ index => cases there

/-- The first clause of a predicate that was called before. -/
theorem undefined_added (linked : program.Linked linkage)
    (unclaimed : program.Unclaimed linkage clause)
    (source : program.Source functor clause.words) {entry : Nat}
    (present : program.predicate? functor = some (.undefined entry))
    {last : List UInt32} (isLast : last = dispatchLast clause.address)
    (journal : Journal) :
    ClauseAdded program linkage functor clause
      (program.relinked (Program.writeWords program.code entry last)
        program.top journal functor (.single entry)) := by
  obtain ⟨⟨blocks, clauses⟩, found, rfl, rfl⟩ := linked.known functor _ present
  have inside := linked.block_lt found (List.mem_singleton_self entry)
  have size : last.length = dispatchSize := by
    rw [isLast]
    rfl
  have fits : entry + last.length ≤ program.code.size := by
    rw [size]
    exact Nat.le_trans inside.2 linked.top.2
  have entries : ∀ other, program.predicate? functor = some other →
      (Predicate.single entry).entry = other.entry := by
    intro other there
    rw [present] at there
    cases there
    rfl
  refine ⟨Program.relinked_keeps (by simp) entries, Nat.le_refl _, ?_⟩
  refine linked.claim unclaimed source ⟨[entry], [clause]⟩ 0
    (by simp [found]) entries (by simp) (Nat.le_refl _) linked.top.2 ?_
    ⟨rfl, clause, rfl⟩ ?_ ?_
  · intro index below free
    rw [Program.getElem?_writeWords _ _ _ fits, if_neg]
    rintro ⟨low, high⟩
    have belongs := (linked.owns functor _ found).blocks 0 entry rfl
      (index - entry) (by omega)
    rw [show entry + (index - entry) = index by omega] at belongs
    exact free _ belongs
  · show Program.HasWords _ entry (dispatchLast clause.address)
    rw [← isLast]
    exact (Program.overwritten_hasWords fits).congr fun _ _ => rfl
  · intro index block there
    exact .inl ⟨_, found, there⟩

/-- The end of adding a clause. -/
theorem ends_relink {event : Event} {predicate : Predicate}
    {middle : Program} {regular : Unit → Program → Prop}
    {faulty : Fault → Program → Prop}
    (relinked : ∀ journal, regular ()
      (middle.relinked middle.code middle.top journal functor predicate)) :
    Ends ((do
        report event
        modify fun program =>
          { program with
            predicates := program.predicates.insert functor predicate } :
        ProgramM Unit) middle) regular faulty :=
  relinked _

/-- A clause that is added to a linked program becomes the last one of its
predicate. -/
theorem addClause_linked (linked : program.Linked linkage)
    (unclaimed : program.Unclaimed linkage clause)
    (source : program.Source functor clause.words) :
    Ends (addClause functor clause.address program)
      (fun _ => ClauseAdded program linkage functor clause)
      (fun fault after => (∃ capacity, fault = .exhausted .code capacity) ∧
        after = program) := by
  unfold addClause dispatch
  generalize isLast : dispatchLast clause.address = last
  -- The piece before the new one lies inside the code in use.
  have writable {chain : Chain} {previous : Nat} {next : List UInt32}
      (isNext : dispatchNext program.top = next)
      (found : linkage.chains functor = some chain)
      (member : previous ∈ chain.blocks) :
      ¬ (program.extended last).code.size < previous + next.length := by
    have inside := linked.block_lt found member
    have top := linked.top.2
    have size : next.length = 2 := by
      rw [← isNext]
      rfl
    simp only [Program.extended, Program.size_writeWords]
    simp only [dispatchSize] at inside
    omega
  rw [ends_bind, ends_get]
  cases present : program.predicate? functor with
  | none =>
      rw [ends_bind, ends_bind]
      refine ends_append (fun fits => ?_) ⟨⟨_, rfl⟩, rfl⟩
      rw [ends_pure]
      refine ends_relink fun journal => ?_
      exact first_added linked unclaimed source present isLast.symm fits journal
  | some predicate =>
      cases predicate with
      | undefined entry =>
          rw [ends_bind, ends_bind]
          refine ends_write (fun fits => ?_) (fun _ => ⟨⟨_, rfl⟩, rfl⟩)
          rw [ends_pure]
          refine ends_relink fun journal => ?_
          exact undefined_added linked unclaimed source present isLast.symm
            journal
      | single entry =>
          obtain ⟨⟨blocks, clauses⟩, found, rfl, only, rfl⟩ :=
            linked.known functor _ present
          rw [ends_bind, ends_bind]
          refine ends_append (fun fits => ?_) ⟨⟨_, rfl⟩, rfl⟩
          generalize isNext : dispatchNext program.top = next
          rw [ends_bind]
          refine ends_write (fun _ => ?_) (fun full =>
            absurd full (writable isNext found List.mem_cons_self))
          rw [ends_pure]
          refine ends_relink fun journal => ?_
          have chained : Chained program linkage functor clause [] entry [only]
              next last :=
            ⟨found, rfl, isNext.symm, isLast.symm, fits⟩
          have matching : Chain.Matches
              ⟨[] ++ [entry] ++ [program.top], [only] ++ [clause]⟩
              (.chain entry program.top) :=
            ⟨rfl, [], rfl⟩
          exact chained.added linked unclaimed source present matching rfl
            journal
      | chain entry ending =>
          obtain ⟨⟨blocks, clauses⟩, found, lengths, middle, rfl⟩ :=
            linked.known functor _ present
          rw [ends_bind, ends_bind]
          refine ends_append (fun fits => ?_) ⟨⟨_, rfl⟩, rfl⟩
          generalize isNext : dispatchNext program.top = next
          rw [ends_bind]
          refine ends_write (fun _ => ?_) (fun full =>
            absurd full (writable isNext found (List.mem_append_right _
              (List.mem_singleton_self ending))))
          rw [ends_pure]
          refine ends_relink fun journal => ?_
          have chained : Chained program linkage functor clause
              (entry :: middle) ending clauses next last :=
            ⟨found, by simpa using lengths, isNext.symm, isLast.symm, fits⟩
          have matching : Chain.Matches
              ⟨entry :: middle ++ [ending] ++ [program.top],
                clauses ++ [clause]⟩ (.chain entry program.top) :=
            ⟨by simpa using lengths, middle ++ [ending], by simp⟩
          exact chained.added linked unclaimed source present matching rfl
            journal

end AddClause

end ProgramM

end LogicMachine
