import LogicMachine.Proofs.Unification.Binding

/-!
# What unification leaves behind

Unification binds variables and adds cells.  The cells stay sound, whether or
not it succeeds.  Where no cell holds a functor, every valuation of the changed
store is one of the store before it, and after a success each of them makes the
terms equal.
-/

namespace LogicMachine

/-- A store that went on from another one by binding variables and adding
cells. -/
structure Store.Develops (table : FunctorTable) (cells : Set Address)
    (before : Store) (larger : Set Address) (after : Store) : Prop where
  more : cells ⊆ larger
  sound : after.Sound table larger
  capacity : after.capacity .retained = before.capacity .retained
  terms : before.TermCells table cells → after.TermCells table larger
  earlier : before.TermCells table cells → ∀ value : Address → Tree,
    after.Respects table larger value → before.Respects table cells value

/-- What is left when a list of equations was worked on: equations between
sound cells that no valuation solves without solving the given ones. -/
def Settles (table : FunctorTable) (cells : Set Address) (before : Store)
    (given remaining : List Equation) (after : Store) : Prop :=
  ∃ larger, Store.Develops table cells before larger after ∧
    (∀ equation ∈ remaining,
      equation.left ∈ larger ∧ equation.right ∈ larger) ∧
    (before.TermCells table cells → ∀ value : Address → Tree,
      after.Respects table larger value →
      (∀ equation ∈ remaining, equation.Holds value) →
      ∀ equation ∈ given, equation.Holds value)

namespace Store.Develops

variable {table : FunctorTable} {cells larger largest : Set Address}
  {before after final : Store}

theorem refl (sound : before.Sound table cells) :
    Develops table cells before cells before where
  more := subset_rfl
  sound := sound
  capacity := rfl
  terms := id
  earlier := fun _ _ => id

theorem trans (first : Develops table cells before larger after)
    (second : Develops table larger after largest final) :
    Develops table cells before largest final where
  more := first.more.trans second.more
  sound := second.sound
  capacity := second.capacity.trans first.capacity
  terms := fun terms => second.terms (first.terms terms)
  earlier := fun terms value respects =>
    first.earlier terms value (second.earlier (first.terms terms) value respects)

theorem room (developed : Develops table cells before larger after)
    (small : before.capacity .retained < 2 ^ 31) :
    after.capacity .retained < 2 ^ 31 := by
  rw [developed.capacity]
  exact small

/-- Copying a term. -/
theorem copy {copies : Copies} {pairs : List CopyTask}
    (sound : before.Sound table cells)
    (twins : Twins table .retained .share cells before
      ⟨copies, none, ∅, pairs, []⟩ after) :
    Develops table cells before (cells ∪ copiedCells copies pairs) after where
  more := Set.subset_union_left
  sound := twins.sound_later sound
  capacity := twins.grows.capacity .retained
  terms := twins.terms_later
  earlier := fun terms _ => twins.respects_before terms

section Bind

/-- The store in which a variable was bound to a word. -/
def bound (store : Store) (target : Address) (old word : Word) : Store :=
  (store.record target old).put target word

variable {target : Address} {word old : Word}
  (found : after.load target = .ok old)
  (free : old.cell = .reference target)

theorem allocated_bound :
    (bound after target old word).allocated = after.allocated := by
  cases target <;> rfl

include found in
theorem load_bound_self :
    (bound after target old word).load target = .ok word :=
  load_put_self ((load_record _ _ _ _).trans found) word

include found in
theorem load_bound_of_ne {address : Address} (different : address ≠ target) :
    (bound after target old word).load address = after.load address :=
  (load_put_of_ne ((load_record _ _ _ _).trans found) word different).trans
    (load_record _ _ _ _)

include found free in
theorem bound_agrees (headers : Set Address) :
    table.Agrees headers after (bound after target old word) := by
  refine FunctorTable.Agrees.of_ne fun header _ => ?_
  by_cases equal : header = target
  · exact .inr ⟨target, old, equal ▸ found, free⟩
  · exact .inl (load_bound_of_ne found equal)

include found free in
/-- A bound variable has the tree of the word that it was bound to. -/
theorem bound_denotes {value : Address → Tree} (inside : target ∈ larger)
    (formed : word.Formed table after ⟨larger, after.allocated, larger⟩)
    (respects : (bound after target old word).Respects table larger value) :
    word.Denotes table after value (value target) :=
  (respects target inside word (load_bound_self found)).earlier formed
    (bound_agrees found free _)

include found free in
/-- A valuation of the store in which the variable is bound is one of the store
in which it was free. -/
theorem bound_respects {value : Address → Tree}
    (terms : after.TermCells table larger)
    (respects : (bound after target old word).Respects table larger value) :
    after.Respects table larger value := by
  intro address member other loaded
  by_cases equal : address = target
  · subst equal
    cases found.symm.trans loaded
    simp [Word.Denotes, free]
  · exact (respects address member other
      ((load_bound_of_ne found equal).trans loaded)).earlier
        (terms.word_formed member loaded) (bound_agrees found free _)

include found free in
/-- Binding a variable to a word that does not lead back to it. -/
theorem bind (developed : Develops table cells before larger after)
    (inside : target ∈ larger) (formed : word.cell.Sound table after larger)
    (onward : ∀ next, word.cell = .reference next →
      next ≠ target ∧ after.IsRoot next)
    (isTerm : before.TermCells table cells → ∀ id, word.cell ≠ .functor id) :
    Develops table cells before larger (bound after target old word) := by
  have sound := developed.sound
  have allocated : after.allocated ⊆ (bound after target old word).allocated :=
    Eq.superset allocated_bound
  have agrees : table.Agrees after.allocated after
      (bound after target old word) := bound_agrees found free _
  have ending : ∃ root, (bound after target old word).Leads target root := by
    by_cases refers : ∃ next, word.cell = .reference next
    · obtain ⟨next, refers⟩ := refers
      obtain ⟨different, nextWord, nextFound, ends⟩ := onward next refers
      exact ⟨next, .there (load_bound_self found) refers different
        (.here ⟨nextWord, (load_bound_of_ne found different).trans nextFound,
          ends⟩)⟩
    · exact ⟨target, .here ⟨word, load_bound_self found,
        fun next known => absurd ⟨next, known⟩ refers⟩⟩
  have soundLater : (bound after target old word).Sound table larger := by
    refine ⟨?_, sound.inside.trans allocated, ?_⟩
    · intro address member
      by_cases equal : address = target
      · rw [equal]
        exact ⟨word, load_bound_self found, formed.imp subset_rfl allocated
          agrees⟩
      · obtain ⟨other, loaded, shape⟩ := sound.formed address member
        exact ⟨other, (load_bound_of_ne found equal).trans loaded,
          shape.imp subset_rfl allocated agrees⟩
    · intro address member
      obtain ⟨root, leads⟩ := sound.acyclic address member
      refine leads.transfer sound.references (fun other _ => ?_) member
      by_cases equal : other = target
      · exact .inr (equal ▸ ending)
      · exact .inl (load_bound_of_ne found equal)
  refine ⟨developed.more, soundLater, ?_, ?_, ?_⟩
  · simpa [bound] using developed.capacity
  · refine fun terms => ⟨soundLater, ?_⟩
    rintro address member ⟨other, id, loaded, isFunctor⟩
    by_cases equal : address = target
    · subst equal
      cases (load_bound_self found).symm.trans loaded
      exact isTerm terms id isFunctor
    · exact (developed.terms terms).noHeader address member
        ⟨other, id, (load_bound_of_ne found equal).symm.trans loaded, isFunctor⟩
  · exact fun terms value respects => developed.earlier terms value
      (bound_respects found free (developed.terms terms) respects)

end Bind

end Store.Develops

section Binding

variable {table : FunctorTable} {cells : Set Address} {before : Store}

theorem Settles.refl (sound : before.Sound table cells)
    {equations : List Equation}
    (sides : ∀ equation ∈ equations,
      equation.left ∈ cells ∧ equation.right ∈ cells) :
    Settles table cells before equations equations before :=
  ⟨cells, .refl sound, sides, fun _ _ _ holds => holds⟩

/-- Equations may be replaced by equations that say more. -/
theorem Settles.imp {given other remaining : List Equation} {after : Store}
    (settles : Settles table cells before other remaining after)
    (stronger : before.TermCells table cells → ∀ value : Address → Tree,
      before.Respects table cells value →
      (∀ equation ∈ other, equation.Holds value) →
      ∀ equation ∈ given, equation.Holds value) :
    Settles table cells before given remaining after := by
  obtain ⟨larger, developed, sides, holds⟩ := settles
  exact ⟨larger, developed, sides, fun terms value respects solved =>
    stronger terms value (developed.earlier terms value respects)
      (holds terms value respects solved)⟩

/-- Binding a variable to the word of another root makes the two equal. -/
theorem bindTo_settles (sound : before.Sound table cells)
    (small : before.capacity .retained < 2 ^ 31)
    {target source : Address} {old word : Word}
    (targetRoot : before.RootAt cells target old)
    (free : old.cell.IsVariable)
    (sourceRoot : before.RootAt cells source word)
    (different : source ≠ target)
    (order : target.isRetained → word.cell.IsVariable → source.isRetained) :
    Ends (StoreM.bindTo table target source word before)
      (fun _ => Settles table cells before [⟨target, source⟩] [])
      (fun fault _ =>
        fault = .exhausted .retained (before.capacity .retained)) := by
  have self := targetRoot.eq_self free
  have formed : word.cell.Sound table before cells := by
    obtain ⟨_, loaded, shape⟩ := sound.formed source sourceRoot.inside
    cases sourceRoot.found.symm.trans loaded
    exact shape
  have wordFormed (terms : before.TermCells table cells) :=
    terms.word_formed sourceRoot.inside sourceRoot.found
  unfold StoreM.bindTo
  by_cases copies : (target.isRetained && !source.isRetained) = true
  · rw [if_pos copies, ends_bind]
    simp only [Bool.and_eq_true, Bool.not_eq_true'] at copies
    obtain ⟨isRetained, notRetained⟩ := copies
    have noVariable : ¬ word.cell.IsVariable := by
      intro refers
      rw [order isRetained refers] at notRetained
      cases notRetained
    refine (copyTerm_twins sound (.inr rfl) small formed).imp ?_
      (fun _ _ full => full.1)
    rintro copy middle ⟨node, copies, pairs, copied⟩
    have twins := copied.twins
    have developed := Store.Develops.copy sound twins
    have unchanged : middle.load target = .ok old := by
      rcases twins.cell_cases sound targetRoot.inside with same |
        ⟨-, unretained, -⟩
      · exact same.trans targetRoot.found
      · rw [isRetained] at unretained
        cases unretained
    have copyBound := copied.not_isVariable noVariable
    have copyFormed (terms : before.TermCells table cells) :=
      twins.formed_twin terms (wordFormed terms) copied.resolves copied.twin
    have inside := developed.more targetRoot.inside
    rw [StoreM.store_eq unchanged, ends_ok]
    refine ⟨_, developed.bind unchanged self inside
      (twins.sound_twin copied.sound copied.twin)
      (fun next refers => absurd ⟨next, refers⟩ copyBound)
      (fun terms => (Word.formed_iff.mp (copyFormed terms)).2), nofun, ?_⟩
    rintro terms value respects - equation member
    cases List.mem_singleton.mp member
    have onCopy := Store.Develops.bound_denotes unchanged self inside
      (copyFormed terms) respects
    have respectsCopy := Store.Develops.bound_respects unchanged self
      (developed.terms terms) respects
    obtain ⟨tree, ofSource, ofCopy⟩ := twins.root_denotes terms respectsCopy
      (wordFormed terms) copied.resolves copied.twin
    have onSource := twins.respects_before terms respectsCopy source
      sourceRoot.inside word sourceRoot.found
    exact (onCopy.unique ofCopy).trans (onSource.unique ofSource).symm
  · rw [if_neg copies, StoreM.store_eq targetRoot.found, ends_ok]
    refine ⟨cells, (Store.Develops.refl sound).bind targetRoot.found self
      targetRoot.inside formed ?_
      (fun terms => (Word.formed_iff.mp (wordFormed terms)).2), nofun, ?_⟩
    · intro next refers
      rw [sourceRoot.ends next refers]
      exact ⟨different, word, sourceRoot.found, sourceRoot.ends⟩
    · rintro terms value respects - equation member
      cases List.mem_singleton.mp member
      have onTarget := Store.Develops.bound_denotes targetRoot.found self
        targetRoot.inside (wordFormed terms) respects
      have onSource := Store.Develops.bound_respects targetRoot.found self
        terms respects source sourceRoot.inside word sourceRoot.found
      exact onTarget.unique onSource

/-- Binding makes two different roots equal, one of which is a variable. -/
theorem bindVariable_settles (sound : before.Sound table cells)
    (small : before.capacity .retained < 2 ^ 31)
    {first second : Address} {firstWord secondWord : Word}
    (firstRoot : before.RootAt cells first firstWord)
    (secondRoot : before.RootAt cells second secondWord)
    (different : first ≠ second)
    (free : firstWord.cell.IsVariable ∨ secondWord.cell.IsVariable) :
    Ends (StoreM.bindVariable table first second before)
      (fun _ => Settles table cells before [⟨first, second⟩] [])
      (fun fault _ =>
        fault = .exhausted .retained (before.capacity .retained)) := by
  rcases bindVariable_cases firstRoot secondRoot free with
    ⟨binds, isFree, order⟩ | ⟨binds, isFree, order⟩
  · rw [binds]
    exact bindTo_settles sound small firstRoot isFree secondRoot different.symm
      order
  · rw [binds]
    refine (bindTo_settles sound small secondRoot isFree firstRoot different
      order).imp ?_ (fun _ _ full => full)
    intro _ _ settles
    refine settles.imp fun _ value _ holds equation member => ?_
    cases List.mem_singleton.mp member
    exact (holds ⟨second, first⟩ List.mem_cons_self).symm

/-- Working on a pair clashes, settles it, or finds no room. -/
theorem unifyPair_settles (sound : before.Sound table cells)
    (small : before.capacity .retained < 2 ^ 31) {equation : Equation}
    (leftInside : equation.left ∈ cells)
    (rightInside : equation.right ∈ cells) :
    Ends (StoreM.unifyPair table equation before)
      (fun outcome after => ∀ arguments, outcome = some arguments →
        Settles table cells before [equation] arguments after)
      (fun fault _ =>
        fault = .exhausted .retained (before.capacity .retained)) := by
  obtain ⟨left, leftLeads⟩ := sound.acyclic _ leftInside
  obtain ⟨right, rightLeads⟩ := sound.acyclic _ rightInside
  obtain ⟨leftWord, leftFound, leftEnds⟩ := leftLeads.root
  obtain ⟨rightWord, rightFound, rightEnds⟩ := rightLeads.root
  have leftRoot : before.RootAt cells left leftWord :=
    ⟨leftLeads.mem sound.references leftInside, leftFound, leftEnds⟩
  have rightRoot : before.RootAt cells right rightWord :=
    ⟨rightLeads.mem sound.references rightInside, rightFound, rightEnds⟩
  -- The equation of two roots stands for that of the cells that lead there.
  have ofRoots {arguments : List Equation} {after : Store}
      (settles : Settles table cells before [⟨left, right⟩] arguments after) :
      Settles table cells before [equation] arguments after := by
    refine settles.imp fun terms value respects holds other member => ?_
    cases List.mem_singleton.mp member
    have same : value left = value right :=
      holds ⟨left, right⟩ List.mem_cons_self
    unfold Equation.Holds
    rw [respects.leads sound.references leftInside leftLeads,
      respects.leads sound.references rightInside rightLeads, same]
  by_cases same : left = right
  · subst same
    rw [unifyPair_same leftLeads rightLeads, ends_ok]
    rintro _ ⟨⟩
    refine ofRoots ⟨cells, .refl sound, nofun, ?_⟩
    intro _ value _ _ other member
    cases List.mem_singleton.mp member
    rfl
  by_cases free : leftWord.cell.IsVariable ∨ rightWord.cell.IsVariable
  · rw [unifyPair_variable leftLeads rightLeads same leftFound rightFound free,
      ends_bind]
    refine (bindVariable_settles sound small leftRoot rightRoot same
      free).imp ?_ (fun _ _ full => full)
    rintro _ after settles _ ⟨⟩
    exact ofRoots settles
  · rw [not_or] at free
    have leftFormed := sound.sound_of_at leftInside
      ⟨left, leftWord, leftLeads, leftFound, rfl⟩
    have rightFormed := sound.sound_of_at rightInside
      ⟨right, rightWord, rightLeads, rightFound, rfl⟩
    rw [unifyPair_values sound leftLeads rightLeads same leftFound rightFound
      leftFormed rightFormed free.1 free.2, ends_ok]
    intro arguments compared
    refine ofRoots ⟨cells, .refl sound,
      Store.compare_sides leftFormed rightFormed compared, ?_⟩
    intro _ value respects holds other member
    cases List.mem_singleton.mp member
    exact compare_holds compared
      (respects left leftRoot.inside leftWord leftFound)
      (respects right rightRoot.inside rightWord rightFound) holds

/-- A unification that succeeds has settled all equations.  It can only be
stopped or run out of room. -/
theorem unifyAll_settles (steps : Nat) (sound : before.Sound table cells)
    (small : before.capacity .retained < 2 ^ 31) {equations : List Equation}
    (sides : ∀ equation ∈ equations,
      equation.left ∈ cells ∧ equation.right ∈ cells) :
    Ends (StoreM.unifyAll table steps equations before)
      (fun success after => success = true →
        Settles table cells before equations [] after)
      (fun fault _ => fault = .diverged ∨
        fault = .exhausted .retained (before.capacity .retained)) := by
  induction steps generalizing equations cells before with
  | zero =>
      cases equations with
      | nil => exact fun _ => .refl sound sides
      | cons equation rest => exact .inl rfl
  | succ steps ih =>
      cases equations with
      | nil => exact fun _ => .refl sound sides
      | cons equation rest =>
          obtain ⟨leftInside, rightInside⟩ := sides equation List.mem_cons_self
          unfold StoreM.unifyAll
          rw [ends_bind]
          refine (unifyPair_settles sound small leftInside rightInside).imp ?_
            (fun _ _ full => .inr full)
          intro outcome middle settled
          cases outcome with
          | none => exact fun failed => absurd failed Bool.false_ne_true
          | some arguments =>
              obtain ⟨larger, developed, argumentSides, holds⟩ :=
                settled arguments rfl
              have sidesLater : ∀ other ∈ arguments ++ rest,
                  other.left ∈ larger ∧ other.right ∈ larger := by
                intro other member
                rcases List.mem_append.mp member with new | old
                · exact argumentSides other new
                · obtain ⟨first, second⟩ :=
                    sides other (List.mem_cons_of_mem _ old)
                  exact ⟨developed.more first, developed.more second⟩
              refine (ih developed.sound (developed.room small)
                sidesLater).imp ?_ ?_
              · intro success after settledRest succeeded
                obtain ⟨largest, further, -, restHolds⟩ := settledRest succeeded
                refine ⟨largest, developed.trans further,
                  fun _ member => absurd member List.not_mem_nil, ?_⟩
                intro terms value respects nothing other member
                have solved := restHolds (developed.terms terms) value respects
                  nothing
                rcases List.mem_cons.mp member with rfl | old
                · refine holds terms value (further.earlier
                    (developed.terms terms) value respects) ?_ _
                    List.mem_cons_self
                  exact fun argument new =>
                    solved argument (List.mem_append_left _ new)
                · exact solved other (List.mem_append_right _ old)
              · rintro fault _ (diverged | full)
                · exact .inl diverged
                · exact .inr (developed.capacity ▸ full)

end Binding

end LogicMachine
