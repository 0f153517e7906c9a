import LogicMachine.Proofs.Unification.Binding

/-!
# Unification solves equations

Unification replaces equations between cells by simpler ones until none are
left.  Every step keeps the set of valuations that solve them.  A valuation
into finite trees also bounds the number of steps, because the trees of the
equations that a step adds are parts of the tree of the equation it removes.
-/

namespace LogicMachine

section Pair

variable {T : Type} [TreeAlgebra T] {table : FunctorTable}
  {cells : Set Address} {before : Store}

theorem Store.Leads.rootAt (closed : before.Closed table cells)
    {address root : Address} (leads : before.Leads address root)
    (inside : address ∈ cells) : ∃ word, before.RootAt cells root word := by
  obtain ⟨word, found, ends⟩ := leads.root
  exact ⟨word, leads.mem closed.references inside, found, ends⟩

theorem Reduced.of_iff {equation other : Equation} {remaining : List Equation}
    {after : Store}
    (reduced : Reduced T table cells before [other] remaining after)
    (same : ∀ value : Address → T, before.Respects table cells value →
      (equation.Holds value ↔ other.Holds value)) :
    Reduced T table cells before [equation] remaining after := by
  obtain ⟨larger, extended, reduces, sides⟩ := reduced
  refine ⟨larger, extended, ⟨?_, ?_⟩, sides⟩
  · intro value respects holds
    obtain ⟨respected, held⟩ := reduces.sound value respects holds
    refine ⟨respected, ?_⟩
    intro given member
    cases List.mem_singleton.mp member
    exact (same value respected).mpr (held _ List.mem_cons_self)
  · intro known respects holds
    refine reduces.complete known respects ?_
    intro given member
    cases List.mem_singleton.mp member
    exact (same known respects).mp (holds _ List.mem_cons_self)

/-- An equation may be replaced by equations that say the same. -/
theorem Reduced.rewrite (closed : before.Closed table cells)
    {equation : Equation} {remaining : List Equation}
    (sides : ∀ equation ∈ remaining,
      equation.left ∈ cells ∧ equation.right ∈ cells)
    (same : ∀ value : Address → T, before.Respects table cells value →
      (equation.Holds value ↔ ∀ other ∈ remaining, other.Holds value)) :
    Reduced T table cells before [equation] remaining before := by
  refine ⟨cells, .refl _ closed, ⟨?_, ?_⟩, sides⟩
  · intro value respects holds
    refine ⟨respects, ?_⟩
    intro given member
    cases List.mem_singleton.mp member
    exact (same value respects).mpr holds
  · intro known respects holds
    exact ⟨known, respects, (same known respects).mp
      (holds _ List.mem_cons_self), fun _ _ => rfl⟩

/-- What working on one equation comes to. -/
def PairOutcome (T : Type) [TreeAlgebra T] (table : FunctorTable)
    (cells : Set Address) (before : Store) (equation : Equation)
    (outcome : Option (List Equation)) (after : Store) : Prop :=
  match outcome with
  | none => ∀ value : Address → T, before.Respects table cells value →
      ¬ equation.Holds value
  | some arguments =>
      Reduced T table cells before [equation] arguments after ∧
        (∀ other ∈ arguments, other.left ∈ cells ∧ other.right ∈ cells) ∧
        ∀ size : T → Nat, Measures size →
          ∀ value : Address → T, before.Respects table cells value →
            totalSize size value arguments < size (value equation.left)

/-- The equation of two roots stands for that of the cells that lead there. -/
theorem PairOutcome.of_roots {equation : Equation} {left right : Address}
    {outcome : Option (List Equation)} {after : Store}
    (ended : PairOutcome T table cells before ⟨left, right⟩ outcome after)
    (sameLeft : ∀ value : Address → T, before.Respects table cells value →
      value equation.left = value left)
    (sameRight : ∀ value : Address → T, before.Respects table cells value →
      value equation.right = value right) :
    PairOutcome T table cells before equation outcome after := by
  have same (value : Address → T)
      (respects : before.Respects table cells value) :
      equation.Holds value ↔ Equation.Holds value ⟨left, right⟩ := by
    unfold Equation.Holds
    rw [sameLeft value respects, sameRight value respects]
  cases outcome with
  | none =>
      intro value respects holds
      exact ended value respects ((same value respects).mp holds)
  | some arguments =>
      obtain ⟨reduced, sides, less⟩ := ended
      refine ⟨reduced.of_iff same, sides, ?_⟩
      intro size measures value respects
      rw [sameLeft value respects]
      exact less size measures value respects

theorem PairOutcome.solved {equation : Equation} {after : Store}
    (reduced : Reduced T table cells before [equation] [] after) :
    PairOutcome T table cells before equation (some []) after :=
  ⟨reduced, nofun, fun _ measures _ _ => measures.positive _⟩

/-- Two nodes that are no variables are compared. -/
theorem PairOutcome.compared (wellFormed : before.WellFormed table cells)
    {left right : Address} {leftWord rightWord : Word}
    (leftRoot : before.RootAt cells left leftWord)
    (rightRoot : before.RootAt cells right rightWord)
    (leftBound : ¬ leftWord.cell.IsVariable)
    (rightBound : ¬ rightWord.cell.IsVariable) :
    PairOutcome T table cells before ⟨left, right⟩
      (Cell.compare table before leftWord.cell rightWord.cell) before := by
  have alike (value : Address → T) (respects : before.Respects table cells value)
      (holds : Equation.Holds value ⟨left, right⟩) :=
    compare_eq_some (respects left leftRoot.inside _ leftRoot.found)
      ((show value left = value right from holds) ▸
        respects right rightRoot.inside _ rightRoot.found) leftBound rightBound
  cases compared : Cell.compare table before leftWord.cell rightWord.cell with
  | none =>
      intro value respects holds
      obtain ⟨arguments, again, -⟩ := alike value respects holds
      cases compared.symm.trans again
  | some arguments =>
      have closed := wellFormed.toClosed
      have sides := Store.compare_sides
        (closed.word_formed leftRoot.inside leftRoot.found).sound
        (closed.word_formed rightRoot.inside rightRoot.found).sound compared
      refine ⟨.rewrite closed sides ?_, sides, ?_⟩
      · intro value respects
        refine ⟨fun holds => ?_, compare_holds compared
          (respects left leftRoot.inside _ leftRoot.found)
          (respects right rightRoot.inside _ rightRoot.found)⟩
        obtain ⟨_, again, equal⟩ := alike value respects holds
        cases compared.symm.trans again
        exact equal
      · intro size measures value respects
        exact compare_size compared measures
          (respects left leftRoot.inside _ leftRoot.found)

/-- The two sides of an equation lead to roots of which one is a variable that
cannot be bound to the other, for want of room. -/
def Store.Stuck (table : FunctorTable) (store : Store) (equation : Equation) :
    Prop :=
  ∃ left right, store.Leads equation.left left ∧
    store.Leads equation.right right ∧
    (store.Crowded table left right ∨ store.Crowded table right left)

theorem unifyPair_ends (wellFormed : before.WellFormed table cells)
    (small : before.capacity .retained < 2 ^ 31) {equation : Equation}
    (leftInside : equation.left ∈ cells)
    (rightInside : equation.right ∈ cells) :
    Ends (StoreM.unifyPair table equation before)
      (PairOutcome T table cells before equation)
      (fun fault _ =>
        fault = .exhausted .retained (before.capacity .retained) ∧
          before.Stuck table equation) := by
  have closed := wellFormed.toClosed
  obtain ⟨left, leftLeads⟩ := wellFormed.acyclic _ leftInside
  obtain ⟨right, rightLeads⟩ := wellFormed.acyclic _ rightInside
  obtain ⟨leftWord, leftRoot⟩ := leftLeads.rootAt closed leftInside
  obtain ⟨rightWord, rightRoot⟩ := rightLeads.rootAt closed rightInside
  have toRoots {outcome : Option (List Equation)} {after : Store}
      (ended : PairOutcome T table cells before ⟨left, right⟩ outcome after) :
      PairOutcome T table cells before equation outcome after :=
    ended.of_roots
      (fun value respects =>
        respects.leads closed.references leftInside leftLeads)
      (fun value respects =>
        respects.leads closed.references rightInside rightLeads)
  by_cases same : left = right
  · subst same
    rw [unifyPair_same leftLeads rightLeads, ends_ok]
    refine toRoots (.solved (.rewrite closed (by simp) ?_))
    exact fun value _ => ⟨fun _ => by simp, fun _ => rfl⟩
  by_cases free : leftWord.cell.IsVariable ∨ rightWord.cell.IsVariable
  · rw [unifyPair_variable leftLeads rightLeads same leftRoot.found
      rightRoot.found free, ends_bind]
    refine (bindVariable_ends T wellFormed small leftRoot rightRoot same
      free).imp ?_ ?_
    · exact fun _ _ reduced => toRoots (.solved reduced)
    · exact fun _ _ full => ⟨full.1, left, right, leftLeads, rightLeads, full.2⟩
  · rw [not_or] at free
    rw [unifyPair_values wellFormed.sound leftLeads rightLeads same
      leftRoot.found rightRoot.found
      (closed.word_formed leftRoot.inside leftRoot.found).sound
      (closed.word_formed rightRoot.inside rightRoot.found).sound free.1 free.2,
      ends_ok]
    exact toRoots (.compared wellFormed leftRoot rightRoot free.1 free.2)

end Pair

section All

variable {T : Type} [TreeAlgebra T] {table : FunctorTable}
  {cells : Set Address} {before : Store} {equations : List Equation}

variable (table) in
/-- Some pairs were worked on, which leaves other pairs and another store. -/
inductive WorkedOff : List Equation → Store → List Equation → Store → Prop where
  | refl (equations : List Equation) (store : Store) :
      WorkedOff equations store equations store
  | step {equation : Equation} {arguments rest remaining : List Equation}
      {store middle after : Store}
      (worked : StoreM.unifyPair table equation store =
        .ok (some arguments) middle)
      (onward : WorkedOff (arguments ++ rest) middle remaining after) :
      WorkedOff (equation :: rest) store remaining after

/-- A pair is reached in which a variable cannot be bound for want of room. -/
def Store.Jams (table : FunctorTable) (store : Store)
    (equations : List Equation) : Prop :=
  ∃ equation rest middle,
    WorkedOff table equations store (equation :: rest) middle ∧
      middle.Stuck table equation

theorem Store.Jams.step {equation : Equation} {arguments rest : List Equation}
    {middle : Store}
    (worked : StoreM.unifyPair table equation before =
      .ok (some arguments) middle)
    (jams : middle.Jams table (arguments ++ rest)) :
    before.Jams table (equation :: rest) := by
  obtain ⟨stuck, others, last, onward, full⟩ := jams
  exact ⟨stuck, others, last, .step worked onward, full⟩

/-- The reasons for which unification does not come to an end: there is no room
for a copy, or no valuation into trees of a size that the steps allow solves the
equations. -/
def UnifyFault (T : Type) [TreeAlgebra T] (table : FunctorTable)
    (cells : Set Address) (before : Store) (steps : Nat)
    (equations : List Equation) (fault : Fault) : Prop :=
  fault = .exhausted .retained (before.capacity .retained) ∧
      before.Jams table equations ∨
    fault = .diverged ∧
      ∀ size : T → Nat, Measures size → ∀ value : Address → T,
        before.Respects table cells value →
        (∀ equation ∈ equations, equation.Holds value) →
        steps < totalSize size value equations

/-- Solutions survive a step, and they say how much smaller the trees of the
equations became. -/
theorem UnifyFault.step {T : Type} [TreeAlgebra T] {larger : Set Address}
    {equation : Equation} {arguments rest : List Equation} {middle : Store}
    {steps : Nat} {fault : Fault}
    (worked : StoreM.unifyPair table equation before =
      .ok (some arguments) middle)
    (sameCapacity : middle.capacity .retained = before.capacity .retained)
    (framed : Store.Reduces T table cells before larger middle
      (equation :: rest) (arguments ++ rest))
    (sides : ∀ other ∈ arguments ++ rest,
      other.left ∈ cells ∧ other.right ∈ cells)
    (less : ∀ size : T → Nat, Measures size → ∀ value : Address → T,
      before.Respects table cells value →
        totalSize size value arguments < size (value equation.left))
    (faulty : UnifyFault T table larger middle steps (arguments ++ rest)
      fault) :
    UnifyFault T table cells before (steps + 1) (equation :: rest) fault := by
  rcases faulty with ⟨rfl, jams⟩ | ⟨rfl, large⟩
  · exact .inl ⟨by rw [sameCapacity], jams.step worked⟩
  · refine .inr ⟨rfl, ?_⟩
    intro size measures value respects holds
    obtain ⟨later, respected, held, same⟩ :=
      framed.complete value respects holds
    have many := large size measures later respected held
    have sizes : totalSize size later (arguments ++ rest) =
        totalSize size value (arguments ++ rest) := by
      refine congrArg List.sum (List.map_congr_left ?_)
      intro other member
      rw [same _ (sides other member).1]
    have fewer := less size measures value respects
    rw [sizes, totalSize_append] at many
    rw [totalSize_cons]
    omega

variable (T) in
theorem unifyAll_ends (steps : Nat) (wellFormed : before.WellFormed table cells)
    (small : before.capacity .retained < 2 ^ 31)
    (sides : ∀ equation ∈ equations,
      equation.left ∈ cells ∧ equation.right ∈ cells) :
    Ends (StoreM.unifyAll table steps equations before)
      (fun success after =>
        match success with
        | true => Reduced T table cells before equations [] after
        | false => ∀ value : Address → T, before.Respects table cells value →
            ¬ ∀ equation ∈ equations, equation.Holds value)
      (fun fault _ => UnifyFault T table cells before steps equations
        fault) := by
  induction steps generalizing equations cells before with
  | zero =>
      cases equations with
      | nil => exact ⟨cells, .refl _ wellFormed.toClosed, .refl, nofun⟩
      | cons equation rest =>
          refine .inr ⟨rfl, ?_⟩
          intro size measures value _ _
          have positive := measures.positive (value equation.left)
          rw [totalSize_cons]
          omega
  | succ steps ih =>
      cases equations with
      | nil => exact ⟨cells, .refl _ wellFormed.toClosed, .refl, nofun⟩
      | cons equation rest =>
          obtain ⟨leftInside, rightInside⟩ := sides equation List.mem_cons_self
          have restSides : ∀ other ∈ rest,
              other.left ∈ cells ∧ other.right ∈ cells :=
            fun other member => sides other (List.mem_cons_of_mem _ member)
          have ended : Ends _ (PairOutcome T table cells before equation) _ :=
            unifyPair_ends wellFormed small leftInside rightInside
          unfold StoreM.unifyAll
          rw [ends_bind]
          cases worked : StoreM.unifyPair table equation before with
          | error fault middle =>
              rw [worked] at ended
              exact .inl ⟨ended.1, equation, rest, before, .refl _ _, ended.2⟩
          | ok outcome middle =>
              rw [worked] at ended
              cases outcome with
              | none =>
                  intro value respects holds
                  exact ended value respects (holds _ List.mem_cons_self)
              | some arguments =>
                  obtain ⟨⟨larger, extended, reduces, -⟩, argumentSides,
                    less⟩ := ended
                  have framed := reduces.frame restSides
                  have sidesNow : ∀ other ∈ arguments ++ rest,
                      other.left ∈ cells ∧ other.right ∈ cells :=
                    fun other member => (List.mem_append.mp member).elim
                      (argumentSides other) (restSides other)
                  have sameCapacity := extended.grows.capacity .retained
                  refine (ih (extended.wellFormed wellFormed.acyclic)
                    (sameCapacity ▸ small) (fun other member =>
                      ⟨extended.more (sidesNow other member).1,
                        extended.more (sidesNow other member).2⟩)).imp ?_ ?_
                  · intro success after outcome
                    cases success with
                    | true =>
                        obtain ⟨largest, further, solved, nothing⟩ := outcome
                        exact ⟨largest, extended.trans further,
                          framed.trans extended.more solved, nothing⟩
                    | false =>
                        intro value respects holds
                        obtain ⟨later, respected, held, -⟩ :=
                          framed.complete value respects holds
                        exact outcome later respected held
                  · exact fun _ _ => UnifyFault.step worked sameCapacity framed
                      sidesNow less

end All

end LogicMachine
