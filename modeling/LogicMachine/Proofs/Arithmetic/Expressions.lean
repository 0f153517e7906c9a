import Mathlib.Algebra.BigOperators.Fin
import Mathlib.Algebra.Order.BigOperators.Group.Finset
import Mathlib.Data.List.Forall2
import LogicMachine.Store.Evaluate
import LogicMachine.Proofs.Arithmetic.Exact
import LogicMachine.Proofs.Store.Chain

/-!
# Evaluating finite terms

The finite terms that a store holds, as far as arithmetic looks at them, and
their values over exact integers.  Evaluation ends for every one of them: with
the exact value if each part has one that fits in 64 bits, without a value
otherwise.  It crashes only where the one quotient that does not fit is met,
going from left to right, before a part without a value.
-/

namespace LogicMachine

/-- A finite term as far as arithmetic looks at it.  Variables, list pairs and
opaque payloads are neither atoms nor operations. -/
inductive Expression where
  | atom (name : String)
  | operation (functor : Functor) (args : Fin functor.arity → Expression)
  | other

namespace Expression

/-- The exact value, if every part has one that fits. -/
def value : Expression → Option Int
  | .atom name => Arithmetic.integer? name
  | .operation functor args =>
      ((List.ofFn fun index => (args index).value).mapM id).bind
        (Arithmetic.fitting functor.name)
  | .other => none

/-- Going from left to right, the quotient of the least integer by minus one is
met before any part without a value. -/
inductive Overflows : Expression → Prop where
  | part {functor : Functor} {args : Fin functor.arity → Expression}
      {earlier later : List Expression} {part : Expression}
      (split : List.ofFn args = earlier ++ part :: later)
      (valued : ∀ before ∈ earlier, before.value.isSome)
      (overflows : Overflows part) : Overflows (.operation functor args)
  | quotient {functor : Functor} {args : Fin functor.arity → Expression}
      {values : List Int}
      (valued : (List.ofFn fun index => (args index).value).mapM id =
        some values)
      (unchecked : Arithmetic.Unchecked functor.name values) :
      Overflows (.operation functor args)

/-- The number of operations and other nodes. -/
def size : Expression → Nat
  | .atom _ | .other => 1
  | .operation _ args => 1 + ∑ index, (args index).size

theorem size_part_lt {functor : Functor}
    (args : Fin functor.arity → Expression) (index : Fin functor.arity) :
    (args index).size < (operation functor args).size := by
  have atMost := Finset.single_le_sum (f := fun index => (args index).size)
    (fun _ _ => Nat.zero_le _) (Finset.mem_univ index)
  simp only [size]
  omega

theorem fits_of_value {expression : Expression} {result : Int}
    (valued : expression.value = some result) : Arithmetic.Fits result := by
  cases expression with
  | atom name => exact Arithmetic.fits_of_integer? valued
  | operation functor args =>
      rw [value] at valued
      obtain ⟨values, -, found⟩ := Option.bind_eq_some_iff.mp valued
      exact Arithmetic.fits_of_fitting found
  | other => cases valued

theorem fits_of_values {expressions : List Expression} {values : List Int}
    (valued : (expressions.map value).mapM id = some values) :
    ∀ result ∈ values, Arithmetic.Fits result := by
  induction expressions generalizing values with
  | nil =>
      cases valued
      nofun
  | cons expression expressions ih =>
      simp only [List.map_cons, List.mapM_cons, id, Option.bind_eq_bind,
        Option.bind_eq_some_iff, Option.pure_def, Option.some.injEq] at valued
      obtain ⟨first, isFirst, rest, isRest, rfl⟩ := valued
      intro result member
      rcases List.mem_cons.mp member with rfl | later
      · exact fits_of_value isFirst
      · exact ih isRest result later

end Expression

namespace Store

/-- The finite term that a store holds at an address. -/
inductive Shows (table : FunctorTable) (store : Store) :
    Address → Expression → Prop where
  | atom {address : Address} {word : Word} {id : FunctorId} {functor : Functor}
      (found : store.derefLoad address = .ok word)
      (decoded : word.cell = .constant id)
      (known : table.functor id = .ok functor) :
      Shows table store address (.atom functor.name)
  | operation {address header : Address} {word : Word} {functor : Functor}
      {args : Fin functor.arity → Expression}
      (found : store.derefLoad address = .ok word)
      (decoded : word.cell = .compound header)
      (known : table.functorAt store header = .ok functor)
      (parts : ∀ index : Fin functor.arity,
        Shows table store (header.plus (index + 1)) (args index)) :
      Shows table store address (.operation functor args)
  | other {address : Address} {word : Word}
      (found : store.derefLoad address = .ok word)
      (noAtom : ∀ id, word.cell ≠ .constant id)
      (noStructure : ∀ header, word.cell ≠ .compound header) :
      Shows table store address .other

variable {table : FunctorTable} {store : Store}

theorem Shows.unique {address : Address} {first second : Expression}
    (shows : store.Shows table address first)
    (again : store.Shows table address second) : first = second := by
  induction shows generalizing second with
  | atom found decoded known =>
      cases again with
      | atom found' decoded' known' => grind
      | operation found' decoded' => grind
      | other found' noAtom' => grind
  | operation found decoded known parts ih =>
      cases again with
      | atom found' decoded' => grind
      | other found' noAtom' noStructure' => grind
      | operation found' decoded' known' parts' =>
          cases found.symm.trans found'
          cases decoded.symm.trans decoded'
          cases known.symm.trans known'
          exact congrArg _ (funext fun index => ih index (parts' index))
  | other found noAtom noStructure =>
      cases again with
      | atom found' decoded' => grind
      | operation found' decoded' => grind
      | other => rfl

theorem Shows.load_ok {address : Address} {expression : Expression}
    (shows : store.Shows table address expression) :
    ∃ word, store.load address = .ok word := by
  have read {word : Word} (found : store.derefLoad address = .ok word) :
      ∃ word, store.load address = .ok word := by
    unfold derefLoad at found
    cases chain : store.deref address with
    | error fault => simp [chain, bind, Except.bind] at found
    | ok root =>
        cases deref_eq_ok_iff.mp chain with
        | here isRoot => exact ⟨_, isRoot.choose_spec.1⟩
        | there loaded => exact ⟨_, loaded⟩
  cases shows with
  | atom found => exact read found
  | operation found => exact read found
  | other found => exact read found

/-- The result of evaluating an expression. -/
def Settles (result : Except Fault (Option Int)) (expression : Expression) :
    Prop :=
  (expression.Overflows ∧
    ∃ cause, cause.IsOverflow ∧ result = .error (.crash cause)) ∨
  (¬ expression.Overflows ∧ result = .ok expression.value)

/-- Expressions are evaluated from left to right, up to the first one that
overflows or has no value. -/
theorem valuesOf_cases {value : Address → Except Fault (Option Int)}
    {addresses : List Address} {expressions : List Expression}
    (each : List.Forall₂ (fun address => Settles (value address)) addresses
      expressions) :
    ((∃ earlier part later, expressions = earlier ++ part :: later ∧
        (∀ before ∈ earlier, before.value.isSome) ∧ part.Overflows) ∧
      ∃ cause, cause.IsOverflow ∧
        valuesOf value addresses = .error (.crash cause)) ∨
    ((∀ earlier part later, expressions = earlier ++ part :: later →
        (∀ before ∈ earlier, before.value.isSome) → ¬ part.Overflows) ∧
      valuesOf value addresses =
        .ok ((expressions.map Expression.value).mapM id)) := by
  induction each with
  | nil => exact .inr ⟨by simp, rfl⟩
  | @cons address expression addresses expressions first rest ih =>
      rcases first with ⟨overflows, cause, isOverflow, crashed⟩ | ⟨safe, valued⟩
      · exact .inl ⟨⟨[], expression, expressions, rfl, nofun, overflows⟩,
          cause, isOverflow, by simp [valuesOf, crashed, bind, Except.bind]⟩
      · cases isValue : expression.value with
        | none =>
            refine .inr ⟨?_, ?_⟩
            · intro earlier part later split before
              cases earlier with
              | nil =>
                  cases split
                  exact safe
              | cons =>
                  cases split
                  simpa [isValue] using before expression (by simp)
            · simp [valuesOf, valued, isValue, bind, Except.bind]
              rfl
        | some number =>
            rcases ih with ⟨⟨earlier, part, later, split, before, overflows⟩,
              cause, isOverflow, crashed⟩ | ⟨noPart, listed⟩
            · refine .inl ⟨⟨expression :: earlier, part, later, by simp [split],
                ?_, overflows⟩, cause, isOverflow, ?_⟩
              · simpa [isValue] using before
              · simp [valuesOf, valued, isValue, crashed, bind, Except.bind]
            · refine .inr ⟨?_, ?_⟩
              · intro earlier part later split before
                cases earlier with
                | nil =>
                    cases split
                    exact safe
                | cons _ earlier =>
                    cases split
                    exact noPart earlier part later rfl fun before' member =>
                      before before' (List.mem_cons_of_mem _ member)
              · simp only [valuesOf, valued, isValue, listed, bind,
                  Except.bind, List.map_cons, List.mapM_cons]
                cases (expressions.map Expression.value).mapM id <;> rfl

/-- An operation settles once its arguments have. -/
theorem settles_operation {functor : Functor}
    {args : Fin functor.arity → Expression} {addresses : List Address}
    {value : Address → Except Fault (Option Int)}
    (each : List.Forall₂ (fun address => Settles (value address)) addresses
      (List.ofFn args)) :
    Settles ((valuesOf value addresses).bind fun
        | none => .ok none
        | some values =>
            (Arithmetic.apply functor.name values).mapError .crash)
      (.operation functor args) := by
  have sameValues : (List.ofFn args).map Expression.value =
      List.ofFn fun index => (args index).value :=
    List.map_ofFn ..
  rcases valuesOf_cases each with ⟨⟨earlier, part, later, split, valued,
    overflows⟩, cause, isOverflow, crashed⟩ | ⟨noPart, result⟩
  · exact .inl ⟨.part split valued overflows, cause, isOverflow,
      by rw [crashed]; rfl⟩
  · cases valued : (List.ofFn fun index => (args index).value).mapM id with
    | none =>
        refine .inr ⟨?_, ?_⟩
        · intro overflows
          cases overflows with
          | part split before inner => exact noPart _ _ _ split before inner
          | quotient isSome => simp [valued] at isSome
        · simp [result, sameValues, valued, Except.bind, Expression.value]
    | some values =>
        have fits := Expression.fits_of_values (sameValues ▸ valued)
        rcases Arithmetic.apply_cases functor.name fits with
          ⟨unchecked, cause, isOverflow, crashed⟩ | ⟨safe, applied⟩
        · refine .inl ⟨.quotient valued unchecked, cause, isOverflow, ?_⟩
          simp [result, sameValues, valued, crashed, Except.bind,
            Except.mapError]
        · refine .inr ⟨?_, ?_⟩
          · intro overflows
            cases overflows with
            | part split before inner =>
                exact noPart _ _ _ split before inner
            | quotient isSome unchecked =>
                cases valued.symm.trans isSome
                exact safe unchecked
          · simp [result, sameValues, valued, applied, Except.bind,
              Except.mapError, Expression.value]

/-- A structure whose parts show a larger expression than the one at hand. -/
def Encloses (table : FunctorTable) (store : Store) (size : Nat)
    (header : Address) : Prop :=
  ∃ (functor : Functor) (args : Fin functor.arity → Expression),
    table.functorAt store header = .ok functor ∧
    (∀ index : Fin functor.arity,
      store.Shows table (header.plus (index + 1)) (args index)) ∧
    size < (Expression.operation functor args).size

/-- The value of a structure is that of its functor at the values of its
arguments. -/
theorem evaluateWithin_structure {address header : Address} {word : Word}
    {functor : Functor} {addresses : List Address}
    (found : store.derefLoad address = .ok word)
    (decoded : word.cell = .compound header)
    (known : table.functorAt store header = .ok functor)
    (listed : arguments header functor.arity = .ok addresses) (depth : Nat) :
    evaluateWithin table store (depth + 1) address =
      (valuesOf (evaluateWithin table store depth) addresses).bind fun
        | none => .ok none
        | some values =>
            (Arithmetic.apply functor.name values).mapError .crash := by
  simp only [evaluateWithin, found, decoded, known, listed, bind, Except.bind]
  cases valuesOf (evaluateWithin table store depth) addresses with
  | error fault => rfl
  | ok values =>
      cases values with
      | none => rfl
      | some values =>
          cases applied : Arithmetic.apply functor.name values <;>
            simp [applied, Except.mapError]
          rfl

/-- The structures around an expression are distinct cells, so the number of
cells bounds the depth. -/
theorem evaluateWithin_settles {address : Address} {expression : Expression}
    (shows : store.Shows table address expression) {path : List Address}
    (distinct : path.Nodup)
    (around : ∀ header ∈ path, store.Encloses table expression.size header)
    {depth : Nat} (enough : store.cellCount < depth + path.length) :
    Settles (evaluateWithin table store depth address) expression := by
  have readable (headers : List Address) (nodup : headers.Nodup)
      (enclose : ∀ header ∈ headers, ∃ size,
        store.Encloses table size header) :
      headers.length ≤ store.cellCount := by
    refine length_le_cellCount nodup fun header member => ?_
    obtain ⟨_, functor, args, known, -⟩ := enclose header member
    obtain ⟨word, -, loaded, -⟩ := load_of_functorAt known
    exact ⟨word, loaded⟩
  have short := readable path distinct fun header member =>
    ⟨_, around header member⟩
  induction shows generalizing path depth with
  | @atom address word id functor found decoded known =>
      obtain ⟨depth, rfl⟩ : ∃ less, depth = less + 1 := ⟨depth - 1, by omega⟩
      refine .inr ⟨nofun, ?_⟩
      simp [evaluateWithin, integerAt, found, decoded, known, bind, Except.bind,
        Expression.value]
      rfl
  | @other address word found noAtom noStructure =>
      obtain ⟨depth, rfl⟩ : ∃ less, depth = less + 1 := ⟨depth - 1, by omega⟩
      refine .inr ⟨nofun, ?_⟩
      cases decoded : word.cell with
      | constant id => exact absurd decoded (noAtom id)
      | compound header => exact absurd decoded (noStructure header)
      | _ =>
          simp only [evaluateWithin, found, decoded, bind, Except.bind]
          rfl
  | @operation address header word functor args found decoded known parts ih =>
      obtain ⟨depth, rfl⟩ : ∃ less, depth = less + 1 := ⟨depth - 1, by omega⟩
      have new : header ∉ path := by
        intro member
        obtain ⟨other, others, again, shown, larger⟩ := around header member
        cases known.symm.trans again
        have same : args = others :=
          funext fun index => (parts index).unique (shown index)
        rw [same] at larger
        exact absurd larger (Nat.lt_irrefl _)
      have longer : (header :: path).Nodup := List.nodup_cons.mpr ⟨new, distinct⟩
      have encloses (index : Fin functor.arity) :
          ∀ outer ∈ header :: path,
            store.Encloses table (args index).size outer := by
        have smaller := Expression.size_part_lt args index
        intro outer member
        rcases List.mem_cons.mp member with rfl | old
        · exact ⟨functor, args, known, parts, smaller⟩
        · obtain ⟨other, others, again, shown, larger⟩ := around outer old
          exact ⟨other, others, again, shown, by omega⟩
      have room : (header :: path).length ≤ store.cellCount := by
        refine readable _ longer fun outer member => ?_
        rcases List.mem_cons.mp member with rfl | old
        · exact ⟨0, functor, args, known, parts, by simp [Expression.size]⟩
        · exact ⟨_, around outer old⟩
      simp only [List.length_cons] at room
      have settled (index : Fin functor.arity) :=
        ih index longer (encloses index)
          (show store.cellCount < depth + (header :: path).length by
            simp only [List.length_cons]
            omega) room
      obtain ⟨headerWord, -, loaded, -⟩ := load_of_functorAt known
      have small : functor.arity < 2 ^ 31 := arity_lt loaded
        fun index inside => (parts ⟨index, inside⟩).load_ok
      have listed := arguments_eq (isCell_of_load loaded).1 small
      have each : List.Forall₂
          (fun address => Settles (evaluateWithin table store depth address))
          ((List.range functor.arity).map fun index => header.plus (index + 1))
          (List.ofFn args) := by
        refine List.forall₂_iff_get.mpr ⟨by simp, ?_⟩
        intro index inside inside'
        simpa using settled ⟨index, by simpa using inside⟩
      rw [evaluateWithin_structure found decoded known listed]
      exact settles_operation each

/-- The value of an expression ends with it or crashes. -/
theorem evaluate_settles {address : Address} {expression : Expression}
    (shows : store.Shows table address expression) :
    Settles (store.evaluate table address) expression :=
  evaluateWithin_settles shows List.nodup_nil nofun (Nat.lt_succ_self _)

end Store

end LogicMachine
